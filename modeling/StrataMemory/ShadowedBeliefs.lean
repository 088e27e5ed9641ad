import StrataMemory.CurrentTruth
import Mathlib.Data.List.Pairwise
import Mathlib.Tactic.NormNum

set_option autoImplicit false

namespace StrataMemory.Resolver
open KeyedTables Records Tables CanonicalStore ListOrders NodeRuns

section Greedy
variable {α : Type}

theorem pwFilter_covers {R : α → α → Prop} [DecidableRel R] {a : α} {xs : List α} (ha : a ∈ xs) :
    a ∈ xs.pwFilter R ∨ ∃ k ∈ xs.pwFilter R, ¬ R a k ∧ [a, k].Sublist xs := by
  induction xs with
  | nil => cases ha
  | cons b xs ih =>
    by_cases hb : ∀ k ∈ xs.pwFilter R, R b k
    · rw [List.pwFilter_cons_of_pos hb]
      rcases List.mem_cons.mp ha with rfl | ha
      · exact .inl List.mem_cons_self
      · rcases ih ha with hkept | ⟨k, hk, hrel, hsub⟩
        · exact .inl (List.mem_cons_of_mem _ hkept)
        · exact .inr ⟨k, List.mem_cons_of_mem _ hk, hrel, hsub.cons b⟩
    · rw [List.pwFilter_cons_of_neg hb]
      rcases List.mem_cons.mp ha with rfl | ha
      · push Not at hb
        obtain ⟨k, hk, hrel⟩ := hb
        have hmem : k ∈ xs := (List.pwFilter_sublist xs).subset hk
        exact .inr ⟨k, hk, hrel, (List.singleton_sublist.mpr hmem).cons_cons _⟩
      · rcases ih ha with hkept | ⟨k, hk, hrel, hsub⟩
        · exact .inl hkept
        · exact .inr ⟨k, hk, hrel, hsub.cons b⟩

variable (p : Platform) (threshold : ℚ) (text : α → String)

def differs (a k : α) : Prop := ¬ threshold ≤ jaccard p (text a) (text k)

instance : DecidableRel (differs p threshold text) := fun _ _ => inferInstanceAs (Decidable (¬ _))

theorem diversifyFrom_sublist (kept texts : List String) (i : ℕ) :
    (diversifyFrom p threshold kept i texts).Sublist (List.range' i texts.length) := by
  induction texts generalizing kept i with
  | nil => exact .refl _
  | cons a texts ih =>
    rw [List.length_cons, List.range'_succ, diversifyFrom]
    split
    · exact (ih kept (i + 1)).cons i
    · exact (ih (kept ++ [a]) (i + 1)).cons_cons i

def keptFrom (keep : List ℕ) (i : ℕ) (xs : List α) : List α :=
  ((xs.zipIdx i).filter fun item => item.2 ∈ keep).map Prod.fst

theorem keptFrom_cons (keep : List ℕ) (i : ℕ) (a : α) (xs : List α) :
    keptFrom keep i (a :: xs) =
      if i ∈ keep then a :: keptFrom keep (i + 1) xs else keptFrom keep (i + 1) xs := by
  unfold keptFrom
  rw [List.zipIdx_cons, List.filter_cons]
  by_cases hi : i ∈ keep <;> simp [hi]

theorem keptFrom_skip {keep : List ℕ} {i j : ℕ} (hij : i < j) (xs : List α) :
    keptFrom (i :: keep) j xs = keptFrom keep j xs := by
  induction xs generalizing j with
  | nil => rfl
  | cons a xs ih =>
    have hmem : j ∈ i :: keep ↔ j ∈ keep := by
      rw [List.mem_cons, or_iff_right (by omega)]
    simp only [keptFrom_cons, hmem, ih (Nat.lt_succ_of_lt hij)]

theorem keptFrom_diversifyFrom (xs ys : List α) (i : ℕ) :
    (ys.reverse.pwFilter (differs p threshold text)).reverse ++
      keptFrom (diversifyFrom p threshold
        ((ys.reverse.pwFilter (differs p threshold text)).reverse.map text) i (xs.map text)) i xs =
    ((ys ++ xs).reverse.pwFilter (differs p threshold text)).reverse := by
  induction xs generalizing ys i with
  | nil => simp [keptFrom]
  | cons a xs ih =>
    have hrest := ih (ys ++ [a]) (i + 1)
    rw [List.append_assoc, List.singleton_append, List.reverse_append, List.reverse_singleton,
      List.singleton_append] at hrest
    rw [← hrest, List.map_cons]
    generalize hkept : ys.reverse.pwFilter (differs p threshold text) = kept at *
    have hany : ((kept.reverse.map text).any fun k => threshold ≤ jaccard p (text a) k) = true ↔
        ¬ ∀ k ∈ kept, differs p threshold text a k := by
      simp [differs]
    by_cases hnew : ∀ k ∈ kept, differs p threshold text a k
    · rw [List.pwFilter_cons_of_pos (hkept ▸ hnew), hkept]
      have hfar : ((kept.reverse.map text).any fun k => threshold ≤ jaccard p (text a) k) = false :=
        Bool.eq_false_iff.mpr fun h => hany.mp h hnew
      rw [diversifyFrom, hfar, if_neg Bool.false_ne_true, keptFrom_cons,
        if_pos List.mem_cons_self, keptFrom_skip (Nat.lt_succ_self i)]
      simp
    · rw [List.pwFilter_cons_of_neg (hkept ▸ hnew), hkept, diversifyFrom,
        if_pos (hany.mpr hnew), keptFrom_cons, if_neg]
      intro hi
      have hlater := (diversifyFrom_sublist p threshold _ _ _).subset hi
      exact absurd (List.mem_range'_1.mp hlater).1 (by omega)

theorem keepIndices_diversify (xs : List α) :
    keepIndices (diversify p (xs.map text) threshold) xs =
      (xs.reverse.pwFilter (differs p threshold text)).reverse := by
  have hpass := keptFrom_diversifyFrom p threshold text xs [] 0
  rw [List.nil_append] at hpass
  exact hpass

end Greedy

def surfaces (db : Db) (r : MemoryRecord) : Bool :=
  routedByKind r || (r.status.isActive && !isSupersededByActive db r.id)

theorem route_isSome (db : Db) (item : MemoryRecord × Merged) :
    (route db item).isSome = surfaces db item.1 := by
  unfold route surfaces routedByKind
  by_cases hreflection : item.1.recordType = .reflection
  · simp [hreflection]
  by_cases hkind : item.1.recordType = .guardrail ∨ item.1.tier = .l4
  · rcases hkind with h | h <;> simp [hreflection, h]
  rw [not_or] at hkind
  cases hactive : item.1.status.isActive <;>
    cases hsup : isSupersededByActive db item.1.id <;> simp [hreflection, hkind, hactive, hsup]
  split <;> rfl

def resembles (p : Platform) (threshold : ℚ) (r k : MemoryRecord) : Prop :=
  threshold ≤ jaccard p r.content k.content

/-- The part of the rank that the record alone decides. -/
def standing (r : MemoryRecord) : ℚ ×ₗ ℚ ×ₗ Time :=
  toLex (statusWeight r.status, toLex (r.confidence.getD 0, r.updatedAt))

theorem standing_le {item other : MemoryRecord × Merged} (h : sortKey item ≤ sortKey other) :
    standing item.1 ≤ standing other.1 := by
  unfold sortKey at h
  unfold standing
  simp only [Prod.Lex.toLex_le_toLex] at h ⊢
  rcases h with h | ⟨hweight, h | ⟨hconfidence, h | ⟨htime, _⟩⟩⟩
  · exact .inl h
  · exact .inr ⟨hweight, .inl h⟩
  · exact .inr ⟨hweight, .inr ⟨hconfidence, le_of_lt h⟩⟩
  · exact .inr ⟨hweight, .inr ⟨hconfidence, le_of_eq htime⟩⟩

theorem sortKey_lt {item other : MemoryRecord × Merged} (h : standing item.1 ≤ standing other.1)
    (hscore : item.2.bestScore < other.2.bestScore) : sortKey item < sortKey other := by
  unfold standing at h
  unfold sortKey
  simp only [Prod.Lex.toLex_le_toLex, Prod.Lex.toLex_lt_toLex] at h ⊢
  rcases h with h | ⟨hweight, h | ⟨hconfidence, htime⟩⟩
  · exact .inl h
  · exact .inr ⟨hweight, .inl h⟩
  · rcases htime.lt_or_eq with htime | htime
    · exact .inr ⟨hweight, .inr ⟨hconfidence, .inl htime⟩⟩
    · exact .inr ⟨hweight, .inr ⟨hconfidence, .inr ⟨htime, .inl hscore⟩⟩⟩

section Shown
variable {p : Platform} {survivors : List (MemoryRecord × Merged)} {threshold : ℚ}

theorem shown_diverse : shown p survivors true threshold =
    ((rank survivors).reverse.pwFilter
      (differs p threshold fun item : MemoryRecord × Merged => item.1.content)).reverse :=
  keepIndices_diversify p threshold _ (rank survivors)

theorem rank_before {item other : MemoryRecord × Merged} (h : item ∈ survivors)
    (h' : other ∈ survivors) (hkey : sortKey other < sortKey item) :
    [item, other].Sublist (rank survivors) := by
  have hne : item ≠ other := by
    rintro rfl
    exact lt_irrefl _ hkey
  have hpair := pair_sublist_or hne ((mem_sortByDesc sortKey _ _).mpr h)
    ((mem_sortByDesc sortKey _ _).mpr h')
  refine hpair.resolve_right fun hsub => absurd hkey (not_lt.mpr ?_)
  exact List.pairwise_iff_forall_sublist.mp (sortByDesc_pairwise sortKey _) hsub

/-- A survivor that is dropped resembles a better one that is not. -/
theorem shown_covers {item : MemoryRecord × Merged} (h : item ∈ survivors) :
    item ∈ shown p survivors true threshold ∨ ∃ k ∈ shown p survivors true threshold,
      resembles p threshold item.1 k.1 ∧ [k, item].Sublist (rank survivors) := by
  have hmem : item ∈ (rank survivors).reverse :=
    List.mem_reverse.mpr ((mem_sortByDesc _ _ _).mpr h)
  rw [shown_diverse]
  simp only [List.mem_reverse]
  rcases pwFilter_covers (R := differs p threshold fun item : MemoryRecord × Merged =>
    item.1.content) hmem with hkept | ⟨k, hk, hrel, hsub⟩
  · exact .inl hkept
  · exact .inr ⟨k, hk, not_not.mp hrel, by simpa using hsub.reverse⟩

theorem rank_nodup (hnodup : (survivors.map fun item => item.1.id).Nodup) :
    (rank survivors).Nodup :=
  (sortByDesc_perm sortKey survivors).nodup_iff.mpr (hnodup.of_map _)

theorem shown_differ (hnodup : (survivors.map fun item => item.1.id).Nodup)
    {item k : MemoryRecord × Merged} (hitem : item ∈ shown p survivors true threshold)
    (hk : k ∈ shown p survivors true threshold) (hsub : [k, item].Sublist (rank survivors)) :
    ¬ resembles p threshold item.1 k.1 := by
  have hshown := shown_sublist p survivors true threshold
  have hne : k ≠ item := by
    rintro rfl
    exact pair_sublist_asymm (rank_nodup hnodup) hsub hsub
  have hpair : [k, item].Sublist (shown p survivors true threshold) := by
    rcases pair_sublist_or hne hk hitem with h | h
    · exact h
    · exact absurd (h.trans hshown) (pair_sublist_asymm (rank_nodup hnodup) hsub)
  rw [shown_diverse] at hpair
  have hapart := List.pairwise_reverse.mpr (List.pairwise_pwFilter
    (R := differs p threshold fun item : MemoryRecord × Merged => item.1.content)
    (rank survivors).reverse)
  exact List.pairwise_iff_forall_sublist.mp hapart hpair

end Shown

section Bundles
variable {p : Platform} {db : Db} {candidates : List Candidate} {now : Time}
  {permit : Option (MemoryRecord → Bool)} {budgets : Budgets} {threshold : ℚ}

theorem mem_untrimmed {diversity : Bool} {e : BundleEntry} :
    e ∈ (resolve p db candidates now permit [] diversity threshold).allEntries ↔
      ∃ item ∈ shown p (hydrateAndFilter db (merge candidates) now permit) diversity threshold,
        route db item = some e := by
  have hentries : ∀ c, (resolve p db candidates now permit [] diversity threshold).entries c = _ :=
    entries_buildBundle p db _ diversity threshold []
  rw [mem_allEntries, ← List.mem_filterMap]
  constructor
  · rintro ⟨c, hc⟩
    rw [hentries] at hc
    exact (List.mem_filter.mp hc).1
  · intro h
    refine ⟨e.category, ?_⟩
    rw [hentries]
    exact List.mem_filter.mpr ⟨h, decide_eq_true rfl⟩

variable (p db candidates now permit budgets threshold) in
def Untrimmed : Prop :=
  ∀ c least most, budgets.lookup c = some (least, most) →
    ((resolve p db candidates now permit [] false threshold).entries c).length ≤ most

theorem untrimmed_nil : Untrimmed p db candidates now permit [] threshold := by
  intro c least most hbudget
  cases hbudget

theorem Untrimmed.resolve_eq (h : Untrimmed p db candidates now permit budgets threshold)
    (diversity : Bool) : resolve p db candidates now permit budgets diversity threshold =
      resolve p db candidates now permit [] diversity threshold := by
  refine BeliefBundle.ext_entries fun c => ?_
  have hroom := h c
  unfold resolve at hroom ⊢
  simp only [entries_buildBundle] at hroom ⊢
  have hshown : (shown p (hydrateAndFilter db (merge candidates) now permit) diversity
      threshold).Sublist (shown p (hydrateAndFilter db (merge candidates) now permit) false
        threshold) := shown_sublist _ _ _ _
  have hlength := (((hshown.filterMap (route db)).filter fun e => e.category = c)).length_le
  unfold trim at hroom ⊢
  cases hbudget : budgets.lookup c with
  | none => rfl
  | some range =>
    obtain ⟨least, most⟩ := range
    have hmost := hroom least most hbudget
    exact if_neg (not_lt.mpr (hlength.trans hmost))

variable (p db candidates now permit budgets threshold) in
/-- What is shown without diversity is shown with it, or something that resembles it is. -/
def KeepsBeliefs : Prop :=
  ∀ e ∈ (resolve p db candidates now permit budgets false threshold).allEntries,
    ∃ k ∈ (resolve p db candidates now permit budgets true threshold).allEntries,
      k.id = e.id ∨ threshold ≤ jaccard p e.claim k.claim

variable (p db candidates now permit threshold) in
/-- A survivor that would be shown, but resembles a better one that diversity keeps and routing
drops, also resembles a kept one that is shown. -/
def HidesNone : Prop :=
  let survivors := hydrateAndFilter db (merge candidates) now permit
  let kept := shown p survivors true threshold
  ∀ item ∈ survivors, surfaces db item.1 = true →
    (∃ d ∈ kept, surfaces db d.1 = false ∧ [d, item].Sublist (rank survivors) ∧
      resembles p threshold item.1 d.1) →
    ∃ k ∈ kept, surfaces db k.1 = true ∧ resembles p threshold item.1 k.1

theorem keepsBeliefs_iff (h : Untrimmed p db candidates now permit budgets threshold) :
    KeepsBeliefs p db candidates now permit budgets threshold ↔
      HidesNone p db candidates now permit threshold := by
  unfold KeepsBeliefs HidesNone
  rw [h.resolve_eq, h.resolve_eq]
  simp only [mem_untrimmed]
  have hids : ((hydrateAndFilter db (merge candidates) now permit).map fun item =>
      item.1.id).Nodup := survivors_nodup
  generalize hydrateAndFilter db (merge candidates) now permit = survivors at *
  have hmem : ∀ item ∈ shown p survivors true threshold, item ∈ survivors := fun item hitem =>
    (mem_sortByDesc _ _ _).mp ((shown_sublist p survivors true threshold).subset hitem)
  have hroute : ∀ item : MemoryRecord × Merged, surfaces db item.1 = true →
      ∃ e, route db item = some e := fun item hitem =>
    Option.isSome_iff_exists.mp ((route_isSome db item).trans hitem)
  have hsurfaces : ∀ (item : MemoryRecord × Merged) e, route db item = some e →
      surfaces db item.1 = true := fun item e he => by
    rw [← route_isSome, he]
    rfl
  constructor
  · rintro hkeeps item hitem hshown ⟨d, hd, _, hsub, hlike⟩
    obtain ⟨e, he⟩ := hroute item hshown
    obtain ⟨k, ⟨other, hother, hk⟩, hsame⟩ :=
      hkeeps e ⟨item, (mem_sortByDesc _ _ _).mpr hitem, he⟩
    rcases hsame with hid | hclaim
    · rw [route_id hk, route_id he] at hid
      cases List.inj_on_of_nodup_map hids (hmem other hother) hitem hid
      exact absurd hlike (shown_differ hids hother hd hsub)
    · rw [route_claim he, route_claim hk] at hclaim
      exact ⟨other, hother, hsurfaces other k hk, hclaim⟩
  · rintro hhides e ⟨item, hitem, he⟩
    have hitem : item ∈ survivors := (mem_sortByDesc _ _ _).mp hitem
    have hcovered : item ∈ shown p survivors true threshold ∨
        ∃ k ∈ shown p survivors true threshold,
          resembles p threshold item.1 k.1 ∧ [k, item].Sublist (rank survivors) := shown_covers hitem
    rcases hcovered with hkept | ⟨d, hd, hlike, hsub⟩
    · exact ⟨e, ⟨item, hkept, he⟩, .inl rfl⟩
    · obtain ⟨k, hk, hshown, hlike⟩ : ∃ k ∈ shown p survivors true threshold,
          surfaces db k.1 = true ∧ resembles p threshold item.1 k.1 := by
        cases hdead : surfaces db d.1 with
        | true => exact ⟨d, hd, hdead, hlike⟩
        | false => exact hhides item hitem (hsurfaces item e he) ⟨d, hd, hdead, hsub, hlike⟩
      obtain ⟨e', he'⟩ := hroute k hshown
      refine ⟨e', ⟨k, hk, he'⟩, .inr ?_⟩
      rw [route_claim he, route_claim he']
      exact hlike

variable (db now permit) in
structure Offerable (r : MemoryRecord) : Prop where
  row : db.readOne r.id = some r
  live : db.isTombstoned r.id = false
  window : timeValid r now = true
  permitted : ∀ allowed, permit = some allowed → allowed r = true

theorem offerable_of_survivor {item : MemoryRecord × Merged}
    (h : item ∈ hydrateAndFilter db (merge candidates) now permit) :
    Offerable db now permit item.1 := by
  obtain ⟨hrow, _, hlive, _, hwindow, hpermitted⟩ := surfaceable_of_survivor h
  exact ⟨hrow, hlive, hwindow, hpermitted⟩

theorem Offerable.survivor {r : MemoryRecord} (h : Offerable db now permit r) {m : Merged}
    (hget : (merge candidates).get? r.id = some m) (hhashes : m.contentHashes = []) :
    (r, m) ∈ hydrateAndFilter db (merge candidates) now permit := by
  have hpermit : (permit.any fun allowed => !allowed r) = false := by
    cases hp : permit with
    | none => rfl
    | some allowed => simp [h.permitted allowed hp]
  refine List.mem_filterMap.mpr ⟨(r.id, m), Table.mem_entries.mpr hget, ?_⟩
  unfold hydrate
  simp only [h.row, h.live, hhashes, h.window, hpermit]
  rfl

theorem merge_twins {a b : RecordId} (hne : a ≠ b) :
    (merge [{ recordId := a, score := 1 }, { recordId := b }]).get? a =
        some ⟨a, 1, ["structured"], [], 1⟩ ∧
      (merge [{ recordId := a, score := 1 }, { recordId := b }]).get? b =
        some ⟨b, 0, ["structured"], [], 1⟩ := by
  have hmerge : merge [{ recordId := a, score := 1 }, { recordId := b }] =
      ((∅ : Table RecordId Merged).set a ⟨a, 1, ["structured"], [], 1⟩).set b
        ⟨b, 0, ["structured"], [], 1⟩ := by
    change mergeOne (mergeOne ∅ _) _ = _
    unfold mergeOne
    rw [Table.get?_set_of_ne _ _ hne]
    rfl
  rw [hmerge]
  exact ⟨(Table.get?_set_of_ne _ _ hne.symm).trans (Table.get?_set_self _ _ _),
    Table.get?_set_self _ _ _⟩

/-- A dead record hides a live one that it resembles, if it may rank as high. -/
theorem hides_twin {d r : MemoryRecord} (hd : Offerable db now permit d)
    (hr : Offerable db now permit r) (hshown : surfaces db r = true)
    (hdead : surfaces db d = false) (hrank : standing r ≤ standing d)
    (hlike : resembles p threshold r d) :
    ¬ HidesNone p db [{ recordId := d.id, score := 1 }, { recordId := r.id }] now permit
      threshold := by
  have hne : d.id ≠ r.id := by
    intro hid
    have hsame : d = r := Option.some.inj (hd.row.symm.trans (hid ▸ hr.row))
    rw [hsame, hshown] at hdead
    cases hdead
  let twins : List Candidate := [{ recordId := d.id, score := 1 }, { recordId := r.id }]
  let md : Merged := ⟨d.id, 1, ["structured"], [], 1⟩
  let mr : Merged := ⟨r.id, 0, ["structured"], [], 1⟩
  obtain ⟨hgetd, hgetr⟩ : (merge twins).get? d.id = some md ∧ (merge twins).get? r.id = some mr :=
    merge_twins hne
  have hids : ((hydrateAndFilter db (merge twins) now permit).map fun item =>
      item.1.id).Nodup := survivors_nodup
  have hsd := hd.survivor hgetd rfl
  have hsr := hr.survivor hgetr rfl
  have honly : ∀ item ∈ hydrateAndFilter db (merge twins) now permit,
      item = (d, md) ∨ item = (r, mr) := by
    intro item hitem
    obtain ⟨c, hc, hcid⟩ := (surfaceable_of_survivor hitem).candidate
    rcases List.mem_cons.mp hc with rfl | hc
    · exact .inl (List.inj_on_of_nodup_map hids hitem hsd hcid.symm)
    · cases List.mem_singleton.mp hc
      exact .inr (List.inj_on_of_nodup_map hids hitem hsr hcid.symm)
  have hkey : sortKey (r, mr) < sortKey (d, md) := sortKey_lt hrank (by norm_num [md, mr])
  have hbefore := rank_before hsd hsr hkey
  have hmem : ∀ item ∈ shown p (hydrateAndFilter db (merge twins) now permit) true threshold,
      item ∈ hydrateAndFilter db (merge twins) now permit := fun item hitem =>
    (mem_sortByDesc _ _ _).mp ((shown_sublist _ _ _ _).subset hitem)
  -- The dead record is first in rank, so nothing can drop it.
  have hkept : (d, md) ∈ shown p (hydrateAndFilter db (merge twins) now permit) true threshold := by
    refine (shown_covers hsd).resolve_right ?_
    rintro ⟨k, hk, _, hsub⟩
    rcases honly k (hmem k hk) with rfl | rfl
    · exact pair_sublist_asymm (rank_nodup hids) hsub hsub
    · exact pair_sublist_asymm (rank_nodup hids) hbefore hsub
  intro hhides
  obtain ⟨k, hk, hkshown, _⟩ := hhides (r, mr) hsr hshown ⟨(d, md), hkept, hdead, hbefore, hlike⟩
  rcases honly k (hmem k hk) with rfl | rfl
  · rw [hdead] at hkshown
    cases hkshown
  · exact shown_differ hids hk hkept hbefore hlike

variable (p db now permit threshold) in
/-- For given candidates, diversity loses no belief just when no record that it keeps but
routing drops hides one. For every list of candidates, it loses none just when no record that
routing drops resembles one that it shows and may rank as high. -/
theorem diversity_keeps_beliefs_iff :
    (∀ candidates budgets, Untrimmed p db candidates now permit budgets threshold →
      (KeepsBeliefs p db candidates now permit budgets threshold ↔
        HidesNone p db candidates now permit threshold)) ∧
    ((∀ candidates budgets, Untrimmed p db candidates now permit budgets threshold →
      KeepsBeliefs p db candidates now permit budgets threshold) ↔
      ∀ d r, Offerable db now permit d → Offerable db now permit r → surfaces db r = true →
        surfaces db d = false → standing r ≤ standing d → ¬ resembles p threshold r d) := by
  refine ⟨fun candidates budgets h => keepsBeliefs_iff h, fun hkeeps d r hd hr hshown hdead hrank
    hlike => ?_, fun htwins candidates budgets h => (keepsBeliefs_iff h).mpr ?_⟩
  · have hfree : ∀ cs, Untrimmed p db cs now permit [] threshold := fun cs c least most hbudget => by
      cases hbudget
    have hall := hkeeps _ _ (hfree [{ recordId := d.id, score := 1 }, { recordId := r.id }])
    exact hides_twin hd hr hshown hdead hrank hlike ((keepsBeliefs_iff (hfree _)).mp hall)
  · rintro item hitem hshown ⟨d, hd, hdead, hsub, hlike⟩
    have hmem := (mem_sortByDesc _ _ _).mp ((shown_sublist _ _ _ _).subset hd)
    have hkey := List.pairwise_iff_forall_sublist.mp (sortByDesc_pairwise sortKey _) hsub
    exact absurd hlike (htwins d.1 item.1 (offerable_of_survivor hmem)
      (offerable_of_survivor hitem) hshown hdead (standing_le hkey))

/-- A reinforced memory that has a live correction is not shown, yet hides the memory of the
same text that would be. -/
theorem corrected_memory_hides_twin :
    let w := runCalls plainStrata plainWorld
      [.writeMemory "tea" {}, .supersedeMemory 1 "milk" {}, .updateMemory 1 none (some .reinforced),
        .writeMemory "tea" {}]
    Untrimmed plainPlatform w.db [{ recordId := 1 }, { recordId := 3 }] 0 none [] (17 / 20) ∧
    ¬ KeepsBeliefs plainPlatform w.db [{ recordId := 1 }, { recordId := 3 }] 0 none []
      (17 / 20) := by
  intro w
  refine ⟨untrimmed_nil, fun hkeeps => ?_⟩
  have hentry : (resolve plainPlatform w.db [{ recordId := 1 }, { recordId := 3 }] 0 none []
      false).allEntries ≠ [] := by decide +kernel
  have hnone : (resolve plainPlatform w.db [{ recordId := 1 }, { recordId := 3 }] 0 none []
      true).allEntries = [] := by decide +kernel
  obtain ⟨e, he⟩ := List.exists_mem_of_ne_nil _ hentry
  obtain ⟨k, hk, _⟩ := hkeeps e he
  rw [hnone] at hk
  cases hk

end Bundles

end StrataMemory.Resolver
