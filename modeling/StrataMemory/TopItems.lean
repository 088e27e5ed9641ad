import Mathlib.Data.List.Sort

set_option autoImplicit false

/-!
# The best items of a list

A bounded search may break ties as it likes. Its scores are those of any other such search.
-/
namespace StrataMemory.TopItems

variable {α κ : Type} [LinearOrder κ] {score : α → κ} {items found other : List α} {k : ℕ}

/-- `found` are `k` items of highest score, or all if there are fewer, the best first. -/
structure Top (score : α → κ) (items : List α) (k : ℕ) (found : List α) : Prop where
  subset : ∀ a ∈ found, a ∈ items
  nodup : found.Nodup
  length : found.length = min k items.length
  sorted : found.Pairwise fun a b => score b ≤ score a
  best : ∀ a ∈ items, a ∉ found → ∀ b ∈ found, score a ≤ score b

theorem top_of_full (hitems : items.Nodup) (hsubset : ∀ a ∈ found, a ∈ items) (hnodup : found.Nodup)
    (hshort : found.length ≤ k) (hsorted : found.Pairwise fun a b => score b ≤ score a)
    (hfull : ∀ a ∈ items, a ∉ found → found.length = k ∧ ∀ b ∈ found, score a ≤ score b) :
    Top score items k found where
  subset := hsubset
  nodup := hnodup
  length := by
    have hle : found.length ≤ items.length := (List.subperm_of_subset hnodup hsubset).length_le
    by_cases hlength : found.length = k
    · rw [hlength] at hle ⊢
      exact (min_eq_left hle).symm
    · have hall : ∀ a ∈ items, a ∈ found := fun a ha => by
        by_contra hout
        exact hlength (hfull a ha hout).1
      have hge : items.length ≤ found.length := (List.subperm_of_subset hitems hall).length_le
      omega
  sorted := hsorted
  best a ha hout := (hfull a ha hout).2

theorem top_take {sorted : List α} (hitems : items.Nodup) (hperm : sorted.Perm items)
    (hsorted : sorted.Pairwise fun a b => score b ≤ score a) : Top score items k (sorted.take k) := by
  have hnodup : sorted.Nodup := hperm.nodup_iff.mpr hitems
  refine ⟨fun a ha => hperm.mem_iff.mp (List.mem_of_mem_take ha),
    (List.take_sublist k sorted).nodup hnodup, ?_, hsorted.sublist (List.take_sublist k sorted), ?_⟩
  · rw [List.length_take, hperm.length_eq]
  · intro a ha hout b hb
    have hmem : a ∈ sorted.take k ++ sorted.drop k := by
      rw [List.take_append_drop]
      exact hperm.mem_iff.mpr ha
    rw [← List.take_append_drop k sorted] at hsorted
    exact (List.pairwise_append.mp hsorted).2.2 b hb a ((List.mem_append.mp hmem).resolve_left hout)

theorem top_nil (score : α → κ) (k : ℕ) : Top score [] k [] where
  subset _ ha := ha
  nodup := List.nodup_nil
  length := (Nat.min_zero k).symm
  sorted := List.Pairwise.nil
  best _ ha := absurd ha List.not_mem_nil

theorem Top.full (h : Top score items k found) {a : α} (ha : a ∈ items)
    (hout : a ∉ found) : found.length = k := by
  have hnodup : (a :: found).Nodup := List.nodup_cons.mpr ⟨hout, h.nodup⟩
  have hsubset : ∀ b ∈ a :: found, b ∈ items := fun b hb =>
    (List.mem_cons.mp hb).elim (fun heq => heq ▸ ha) (h.subset b)
  have hlonger := (List.subperm_of_subset hnodup hsubset).length_le
  rw [List.length_cons, h.length] at hlonger
  rw [h.length]
  omega

section Scores
variable [DecidableEq α]

theorem Top.completed (h : Top score items k found) (hitems : items.Nodup) :
    ∃ rest, (found ++ rest).Perm items ∧ (found ++ rest).Pairwise fun a b => score b ≤ score a := by
  let rest := (items.filter (· ∉ found)).insertionSort fun a b => score b ≤ score a
  have hmem : ∀ a, a ∈ rest ↔ a ∈ items ∧ a ∉ found := fun a => by
    rw [List.mem_insertionSort, List.mem_filter, decide_eq_true_iff]
  have hrest : rest.Nodup := (List.perm_insertionSort _ _).nodup_iff.mpr (hitems.filter _)
  refine ⟨rest, (List.perm_ext_iff_of_nodup ?_ hitems).mpr fun a => ?_, ?_⟩
  · exact h.nodup.append hrest fun a ha hr => ((hmem a).mp hr).2 ha
  · rw [List.mem_append, hmem]
    constructor
    · rintro (ha | ha)
      · exact h.subset a ha
      · exact ha.1
    · intro ha
      by_cases hfound : a ∈ found
      · exact .inl hfound
      · exact .inr ⟨ha, hfound⟩
  · refine List.pairwise_append.mpr ⟨h.sorted, ?_, fun b hb a ha => ?_⟩
    · have : Std.Total fun a b : α => score b ≤ score a := ⟨fun a b => le_total (score b) (score a)⟩
      have : IsTrans α fun a b => score b ≤ score a := ⟨fun _ _ _ hab hbc => hbc.trans hab⟩
      exact List.pairwise_insertionSort _ _
    · exact h.best a ((hmem a).mp ha).1 ((hmem a).mp ha).2 b hb

theorem Top.scores_eq (h : Top score items k found) (hother : Top score items k other)
    (hitems : items.Nodup) : found.map score = other.map score := by
  obtain ⟨rest, hperm, hsorted⟩ := h.completed hitems
  obtain ⟨rest', hperm', hsorted'⟩ := hother.completed hitems
  have hall : (found ++ rest).map score = (other ++ rest').map score :=
    ((hperm.trans hperm'.symm).map score).eq_of_pairwise (fun a b _ _ hab hba => le_antisymm hba hab)
      (List.pairwise_map.mpr hsorted) (List.pairwise_map.mpr hsorted')
  rw [List.map_append, List.map_append] at hall
  refine List.append_inj_left hall ?_
  rw [List.length_map, List.length_map, h.length, hother.length]

end Scores
end StrataMemory.TopItems
