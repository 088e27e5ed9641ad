import StrataMemory.ShadowedBeliefs

set_option autoImplicit false

/-! What diversity selects of a ranking of texts: a subsequence of texts that differ, in which
each text that is left out has a better one that it resembles. -/
namespace StrataMemory.Resolver
open Records

section Selection
variable (p : Platform) (threshold : ℚ)

theorem diversifyFrom_all {kept texts : List String}
    (h : (kept ++ texts).Pairwise fun k a => jaccard p a k < threshold) (i : ℕ) :
    diversifyFrom p threshold kept i texts = List.range' i texts.length := by
  induction texts generalizing kept i with
  | nil => rfl
  | cons a texts ih =>
    have hnew : ¬ (kept.any fun k => threshold ≤ jaccard p a k) = true := by
      intro hany
      obtain ⟨k, hk, hnear⟩ := List.any_eq_true.mp hany
      have hfar := (List.pairwise_append.mp h).2.2 k hk a List.mem_cons_self
      exact absurd (of_decide_eq_true hnear) (not_le.mpr hfar)
    have hrest : ((kept ++ [a]) ++ texts).Pairwise fun k a => jaccard p a k < threshold := by
      rwa [List.append_assoc, List.singleton_append]
    rw [diversifyFrom, if_neg hnew, ih hrest, List.length_cons, List.range'_succ]

theorem mem_keepIndices {α : Type} {keep : List ℕ} {xs : List α} {a : α} :
    a ∈ keepIndices keep xs ↔ ∃ i ∈ keep, xs[i]? = some a := by
  unfold keepIndices
  rw [List.mem_map]
  constructor
  · rintro ⟨⟨_, i⟩, hitem, rfl⟩
    obtain ⟨hmem, hkeep⟩ := List.mem_filter.mp hitem
    exact ⟨i, of_decide_eq_true hkeep, List.mem_zipIdx_iff_getElem?.mp hmem⟩
  · rintro ⟨i, hi, ha⟩
    refine ⟨(a, i), List.mem_filter.mpr ⟨?_, decide_eq_true hi⟩, rfl⟩
    exact List.mem_zipIdx_iff_getElem?.mpr ha

def selected (texts : List String) : List (String × ℕ) :=
  (texts.zipIdx.reverse.pwFilter (differs p threshold Prod.fst)).reverse

variable {p threshold}

theorem mem_selected {texts : List String} {a : String} {i : ℕ} :
    (a, i) ∈ selected p threshold texts ↔
      texts[i]? = some a ∧ i ∈ diversify p texts threshold := by
  have hselected := keepIndices_diversify p threshold Prod.fst texts.zipIdx
  rw [List.zipIdx_map_fst] at hselected
  rw [selected, ← hselected, mem_keepIndices]
  simp only [List.getElem?_zipIdx, Option.map_eq_some_iff, Prod.mk.injEq, Nat.zero_add]
  constructor
  · rintro ⟨j, hj, b, hb, rfl, rfl⟩
    exact ⟨hb, hj⟩
  · rintro ⟨ha, hi⟩
    exact ⟨i, hi, a, ha, rfl, rfl⟩

theorem selected_apart (texts : List String) : (selected p threshold texts).Pairwise fun k a =>
    jaccard p a.1 k.1 < threshold := by
  have hpairs := List.pairwise_pwFilter (R := differs p threshold Prod.fst) texts.zipIdx.reverse
  exact (List.pairwise_reverse.mpr hpairs).imp fun {k a} h => not_le.mp h

theorem lt_of_before {texts : List String} {k a : String × ℕ} (h : [k, a].Sublist texts.zipIdx) :
    k.2 < a.2 := by
  have hindices : [k.2, a.2].Sublist (List.range' 0 texts.length) := by
    rw [← List.zipIdx_map_snd]
    exact h.map Prod.snd
  exact List.pairwise_iff_forall_sublist.mp List.pairwise_lt_range' hindices

theorem diversify_apart {texts : List String} {i j : ℕ} {a b : String}
    (hi : i ∈ diversify p texts threshold) (hj : j ∈ diversify p texts threshold) (hne : i ≠ j)
    (ha : texts[i]? = some a) (hb : texts[j]? = some b) : jaccard p a b < threshold := by
  have : Std.Symm fun k a : String × ℕ => jaccard p a.1 k.1 < threshold :=
    ⟨fun k a h => (jaccard_comm p _ _).trans_lt h⟩
  have hdistinct : (b, j) ≠ (a, i) := fun h => hne (congrArg Prod.snd h).symm
  have hfar := (selected_apart texts).forall (mem_selected.mpr ⟨hb, hj⟩)
    (mem_selected.mpr ⟨ha, hi⟩) hdistinct
  exact hfar

/-- A text that is dropped resembles one that is kept and stands before it. -/
theorem diversify_covers {texts : List String} {i : ℕ} {a : String} (ha : texts[i]? = some a)
    (hdropped : i ∉ diversify p texts threshold) :
    ∃ j ∈ diversify p texts threshold, j < i ∧
      ∃ b, texts[j]? = some b ∧ threshold ≤ jaccard p a b := by
  have hmem : (a, i) ∈ texts.zipIdx.reverse :=
    List.mem_reverse.mpr (List.mem_zipIdx_iff_getElem?.mpr ha)
  rcases pwFilter_covers (R := differs p threshold Prod.fst) hmem with hkept | ⟨k, hk, hnear, hsub⟩
  · exact absurd (mem_selected.mp (List.mem_reverse.mpr hkept)).2 hdropped
  · obtain ⟨hb, hkept⟩ := mem_selected.mp (List.mem_reverse.mpr hk)
    have hbefore : [k, (a, i)].Sublist texts.zipIdx := by simpa using hsub.reverse
    exact ⟨k.2, hkept, lt_of_before hbefore, k.1, hb, not_not.mp hnear⟩

end Selection

/-- The pass keeps increasing indices, of texts that differ. Each text it drops resembles one
that it keeps at a smaller index, and from the texts it keeps it would drop none. -/
theorem diversify_maximal (p : Platform) (texts : List String) (threshold : ℚ) :
    let kept := diversify p texts threshold
    kept.Pairwise (· < ·) ∧ (∀ i ∈ kept, i < texts.length) ∧
    (∀ i ∈ kept, ∀ j ∈ kept, i ≠ j → ∀ a b, texts[i]? = some a → texts[j]? = some b →
      jaccard p a b < threshold) ∧
    (∀ i a, texts[i]? = some a → i ∉ kept → ∃ j ∈ kept, j < i ∧
      ∃ b, texts[j]? = some b ∧ threshold ≤ jaccard p a b) ∧
    let again := kept.filterMap fun i => texts[i]?
    again.length = kept.length ∧ diversify p again threshold = List.range again.length := by
  intro kept
  have hrange : kept.Sublist (List.range' 0 texts.length) := diversifyFrom_sublist p threshold [] _ 0
  have hincreasing : kept.Pairwise (· < ·) := List.Pairwise.sublist hrange List.pairwise_lt_range'
  have hbound : ∀ i ∈ kept, i < texts.length := fun i hi => by
    simpa using hrange.subset hi
  refine ⟨hincreasing, hbound, fun i hi j hj hne a b => diversify_apart hi hj hne,
    fun i a ha hdropped => diversify_covers ha hdropped, ?_, ?_⟩
  · have hmap : (kept.filterMap fun i => texts[i]?) = kept.map fun i => texts.getD i "" :=
      List.filterMap_eq_map_iff_forall_eq_some.mpr fun i hi => by
        rw [List.getD_eq_getElem?_getD, List.getElem?_eq_getElem (hbound i hi)]
        rfl
    rw [hmap, List.length_map]
  · have hdiffer : (kept.filterMap fun i => texts[i]?).Pairwise fun k a =>
        jaccard p a k < threshold := by
      refine List.pairwise_filterMap.mpr (hincreasing.imp_of_mem fun hi hj hlt a ha b hb => ?_)
      exact diversify_apart hj hi (ne_of_gt hlt) hb ha
    have hall : diversifyFrom p threshold [] 0 (kept.filterMap fun i => texts[i]?) = _ :=
      diversifyFrom_all p threshold hdiffer 0
    exact hall.trans List.range_eq_range'.symm

end StrataMemory.Resolver
