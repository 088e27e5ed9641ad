import Mathlib.Data.List.Sort

set_option autoImplicit false

namespace StrataMemory.ListOrders

variable {α : Type} {a b : α} {xs ys : List α}

theorem pair_sublist_concat {c : α} :
    [a, b].Sublist (xs ++ [c]) ↔ [a, b].Sublist xs ∨ b = c ∧ a ∈ xs := by
  rw [← List.reverse_sublist, List.reverse_append]
  change [b, a].Sublist (c :: xs.reverse) ↔ _
  rw [List.sublist_cons_iff]
  have hreverse : [a, b].reverse.Sublist xs.reverse ↔ [a, b].Sublist xs := List.reverse_sublist
  refine or_congr hreverse ?_
  constructor
  · rintro ⟨rest, heq, hrest⟩
    cases heq
    exact ⟨rfl, by simpa using hrest⟩
  · rintro ⟨rfl, ha⟩
    exact ⟨[a], rfl, by simpa using ha⟩

theorem pair_sublist_filter {p : α → Bool} :
    [a, b].Sublist (xs.filter p) ↔ [a, b].Sublist xs ∧ p a = true ∧ p b = true := by
  constructor
  · intro h
    refine ⟨h.trans List.filter_sublist, ?_, ?_⟩
    · exact (List.mem_filter.mp (h.subset (by simp))).2
    · exact (List.mem_filter.mp (h.subset (by simp))).2
  · rintro ⟨h, ha, hb⟩
    simpa [ha, hb] using h.filter p

theorem pair_sublist_or (hne : a ≠ b) (ha : a ∈ xs) (hb : b ∈ xs) :
    [a, b].Sublist xs ∨ [b, a].Sublist xs := by
  induction xs with
  | nil => cases ha
  | cons c xs ih =>
    rcases List.mem_cons.mp ha with rfl | ha' <;> rcases List.mem_cons.mp hb with rfl | hb'
    · exact absurd rfl hne
    · exact .inl (List.cons_sublist_cons.mpr (List.singleton_sublist.mpr hb'))
    · exact .inr (List.cons_sublist_cons.mpr (List.singleton_sublist.mpr ha'))
    · exact (ih ha' hb').imp (List.Sublist.cons c) (List.Sublist.cons c)

theorem pair_sublist_asymm (hxs : xs.Nodup) (h : [a, b].Sublist xs) : ¬ [b, a].Sublist xs := by
  induction xs with
  | nil => cases h
  | cons c xs ih =>
    obtain ⟨hc, hxs⟩ := List.nodup_cons.mp hxs
    intro h'
    cases h with
    | cons _ h =>
      cases h' with
      | cons _ h' => exact ih hxs h h'
      | cons_cons _ _ => exact hc (h.subset (by simp))
    | cons_cons _ h =>
      cases h' with
      | cons _ h' => exact hc (h'.subset (by simp))
      | cons_cons _ _ => exact hc (h.subset (by simp))

theorem eq_of_same_order (hperm : ys.Perm xs) (hxs : xs.Nodup)
    (h : ∀ a b, [a, b].Sublist xs → [a, b].Sublist ys) : ys = xs := by
  have hys : ys.Pairwise fun a b => [a, b].Sublist ys :=
    List.pairwise_iff_forall_sublist.mpr fun hab => hab
  have hsame : xs.Pairwise fun a b => [a, b].Sublist ys :=
    List.pairwise_iff_forall_sublist.mpr fun hab => h _ _ hab
  refine List.Perm.eq_of_pairwise (fun a b _ _ hab hba => ?_) hys hsame hperm
  exact absurd hba (pair_sublist_asymm (hperm.nodup_iff.mpr hxs) hab)

end StrataMemory.ListOrders
