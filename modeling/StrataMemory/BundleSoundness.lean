import StrataMemory.ResolverEntries

set_option autoImplicit false

namespace StrataMemory.Resolver
open KeyedTables Records Tables CanonicalStore

theorem mergeOne_contains (out : Table RecordId Merged) (c : Candidate) (id : RecordId) :
    (mergeOne out c).contains id = (decide (c.recordId = id) || out.contains id) :=
  Table.contains_set _ _ _ _

theorem merge_contains (candidates : List Candidate) (id : RecordId) :
    (merge candidates).contains id = true ↔ ∃ c ∈ candidates, c.recordId = id := by
  have hfold : ∀ (cs : List Candidate) (out : Table RecordId Merged),
      (cs.foldl mergeOne out).contains id = true ↔
        out.contains id = true ∨ ∃ c ∈ cs, c.recordId = id := by
    intro cs
    induction cs with
    | nil => simp
    | cons c cs ih =>
      intro out
      rw [List.foldl_cons, ih, mergeOne_contains, Bool.or_eq_true, decide_eq_true_eq]
      simp only [List.mem_cons, exists_eq_or_imp]
      tauto
  refine (hfold candidates ∅).trans ?_
  simp

theorem merge_hashes {candidates : List Candidate} {id : RecordId} {m : Merged}
    (h : (merge candidates).get? id = some m) :
    m.contentHashes = (candidates.filter fun c => c.recordId = id).flatMap Candidate.hashes := by
  let hashesIn (out : Table RecordId Merged) : List String :=
    (out.get? id).elim [] Merged.contentHashes
  have hfold : ∀ (cs : List Candidate) (out : Table RecordId Merged),
      hashesIn (cs.foldl mergeOne out) =
        hashesIn out ++ (cs.filter fun c => c.recordId = id).flatMap Candidate.hashes := by
    intro cs
    induction cs with
    | nil => exact fun out => (List.append_nil _).symm
    | cons c cs ih =>
      intro out
      rw [List.foldl_cons, ih]
      by_cases hc : c.recordId = id
      · have hone : hashesIn (mergeOne out c) = hashesIn out ++ c.hashes := by
          subst hc
          simp only [hashesIn, mergeOne, Table.get?_set_self]
          cases out.get? c.recordId <;> rfl
        rw [hone, List.filter_cons_of_pos (by simpa using hc), List.flatMap_cons,
          List.append_assoc]
      · have hsame : (mergeOne out c).get? id = out.get? id := Table.get?_set_of_ne _ _ hc
        have hone : hashesIn (mergeOne out c) = hashesIn out := by simp only [hashesIn, hsame]
        rw [hone, List.filter_cons_of_neg (by simpa using hc)]
  have hm : hashesIn (merge candidates) = m.contentHashes := by simp only [hashesIn, h, Option.elim]
  rw [← hm]
  exact hfold candidates ∅

theorem mem_merge_hashes {candidates : List Candidate} {id : RecordId} {m : Merged}
    (h : (merge candidates).get? id = some m) {text : String} :
    text ∈ m.contentHashes ↔ ∃ c ∈ candidates, c.recordId = id ∧ text ∈ c.hashes := by
  rw [merge_hashes h, List.mem_flatMap]
  simp [and_assoc]

theorem mem_hashes {c : Candidate} {text : String} :
    text ∈ c.hashes ↔ text ≠ "" ∧ c.contentHash = some text := by
  unfold Candidate.hashes
  cases c.contentHash with
  | none => simp
  | some hash =>
    by_cases hempty : hash = ""
    · simp only [hempty, if_pos, List.not_mem_nil, Option.some.injEq, false_iff, not_and]
      exact fun h h' => h h'.symm
    · simp only [hempty, if_false, List.mem_singleton, Option.some.injEq]
      constructor
      · rintro rfl
        exact ⟨hempty, rfl⟩
      · exact fun h => h.2.symm

section Survivors
variable {db : Db} {merged : Table RecordId Merged} {now : Time}
  {permit : Option (MemoryRecord → Bool)}

theorem hydrate_id {m : RecordId × Merged} {item : MemoryRecord × Merged}
    (h : hydrate db now permit m = some item) : item.1.id = m.1 :=
  Db.readOne_id (hydrate_some h).1

theorem survivors_nodup :
    ((hydrateAndFilter db merged now permit).map fun item => item.1.id).Nodup := by
  have hsub : ((hydrateAndFilter db merged now permit).map fun item => item.1.id).Sublist
      (merged.entries.map Prod.fst) := by
    unfold hydrateAndFilter
    induction merged.entries with
    | nil => exact List.Sublist.refl _
    | cons m ms ih =>
      cases hm : hydrate db now permit m with
      | none =>
        rw [List.filterMap_cons_none hm]
        exact ih.cons _
      | some item =>
        rw [List.filterMap_cons_some hm, List.map_cons, List.map_cons, hydrate_id hm]
        exact ih.cons_cons _
  exact merged.nodup_keys.sublist hsub

end Survivors

section Bundle
variable (p : Platform) (db : Db) (survivors : List (MemoryRecord × Merged)) (diversity : Bool)
  (threshold : ℚ)

/-- The survivors that are routed, in the order of their rank. -/
def shown : List (MemoryRecord × Merged) :=
  if diversity then
    keepIndices (diversify p ((rank survivors).map fun item => item.1.content) threshold)
      (rank survivors)
  else rank survivors

theorem shown_sublist : (shown p survivors diversity threshold).Sublist (rank survivors) := by
  unfold shown
  split
  · exact keepIndices_sublist _ _
  · exact List.Sublist.refl _

theorem entries_buildBundle (budgets : Budgets) (c : Category) :
    (buildBundle p db survivors budgets diversity threshold).entries c = trim budgets c
      (((shown p survivors diversity threshold).filterMap (route db)).filter
        fun e => e.category = c) :=
  (entries_applyBudgets _ _ _).trans (congrArg _ (entries_routeAll db _ c))

variable {p db survivors diversity threshold}

theorem item_unique (hnodup : (survivors.map fun item => item.1.id).Nodup)
    {item other : MemoryRecord × Merged} (hitem : item ∈ survivors) (hother : other ∈ survivors)
    {e : BundleEntry} (hroute : route db item = some e) (hroute' : route db other = some e) :
    item = other :=
  List.inj_on_of_nodup_map hnodup hitem hother ((route_id hroute).symm.trans (route_id hroute'))

theorem routed_nodup (hnodup : (survivors.map fun item => item.1.id).Nodup) :
    (((shown p survivors diversity threshold).filterMap (route db)).map BundleEntry.id).Nodup := by
  have hshown : ((shown p survivors diversity threshold).map fun item => item.1.id).Nodup :=
    ((sortByDesc_perm sortKey survivors).map _).nodup_iff.mpr hnodup |>.sublist
      ((shown_sublist p survivors diversity threshold).map _)
  refine hshown.sublist ?_
  clear hshown
  induction shown p survivors diversity threshold with
  | nil => exact List.Sublist.refl _
  | cons item items ih =>
    cases hroute : route db item with
    | none =>
      rw [List.filterMap_cons_none hroute]
      exact ih.cons _
    | some e =>
      rw [List.filterMap_cons_some hroute, List.map_cons, List.map_cons, route_id hroute]
      exact ih.cons_cons _

def RankedAbove (db : Db) (survivors : List (MemoryRecord × Merged)) (e e' : BundleEntry) : Prop :=
  ∀ item ∈ survivors, route db item = some e → ∀ item' ∈ survivors, route db item' = some e' →
    sortKey item' ≤ sortKey item

theorem routed_ranked (hnodup : (survivors.map fun item => item.1.id).Nodup) :
    ((shown p survivors diversity threshold).filterMap (route db)).Pairwise
      (RankedAbove db survivors) := by
  have hsorted : (shown p survivors diversity threshold).Pairwise
      fun a b => sortKey b ≤ sortKey a :=
    (sortByDesc_pairwise sortKey survivors).sublist (shown_sublist _ _ _ _)
  have hmem : ∀ item ∈ shown p survivors diversity threshold, item ∈ survivors := fun item h =>
    (mem_sortByDesc _ _ _).mp ((shown_sublist p survivors diversity threshold).subset h)
  refine List.pairwise_filterMap.mpr (hsorted.imp_of_mem fun ha hb hle e he e' he' => ?_)
  intro item hitem hroute item' hitem' hroute'
  rw [item_unique hnodup hitem (hmem _ ha) hroute he,
    item_unique hnodup hitem' (hmem _ hb) hroute' he']
  exact hle

def categories : List Category :=
  [.currentBelief, .recentContext, .interactionGuidance, .openConflict, .hypothesis, .policyFlag]

theorem allEntries_eq (b : BeliefBundle) : b.allEntries = categories.flatMap b.entries := by
  simp [BeliefBundle.allEntries, categories, BeliefBundle.entries]

theorem BeliefBundle.ext_entries {b b' : BeliefBundle} (h : ∀ c, b.entries c = b'.entries c) :
    b = b' := by
  obtain ⟨_, _, _, _, _, _⟩ := b
  obtain ⟨_, _, _, _, _, _⟩ := b'
  have h₁ := h .currentBelief
  have h₂ := h .recentContext
  have h₃ := h .interactionGuidance
  have h₄ := h .openConflict
  have h₅ := h .hypothesis
  have h₆ := h .policyFlag
  simp only [BeliefBundle.entries] at h₁ h₂ h₃ h₄ h₅ h₆
  subst h₁ h₂ h₃ h₄ h₅ h₆
  rfl

theorem allEntries_nodup {b : BeliefBundle} {routed : List BundleEntry}
    (hnodup : (routed.map BundleEntry.id).Nodup)
    (hentries : ∀ c, (b.entries c).Sublist (routed.filter fun e => e.category = c)) :
    (b.allEntries.map BundleEntry.id).Nodup := by
  have hrouted : ∀ c, ∀ e ∈ b.entries c, e ∈ routed ∧ e.category = c := fun c e he => by
    simpa using (hentries c).subset he
  rw [allEntries_eq, List.map_flatMap, List.nodup_flatMap]
  refine ⟨fun c _ => ?_, ?_⟩
  · exact hnodup.sublist (((hentries c).trans List.filter_sublist).map _)
  · have hne : categories.Nodup := by decide
    refine hne.imp fun hc => ?_
    rintro id h h'
    obtain ⟨e, he, rfl⟩ := List.mem_map.mp h
    obtain ⟨e', he', hid⟩ := List.mem_map.mp h'
    obtain ⟨hmem, hcat⟩ := hrouted _ e he
    obtain ⟨hmem', hcat'⟩ := hrouted _ e' he'
    have hsame := List.inj_on_of_nodup_map hnodup hmem' hmem hid
    exact hc (hcat.symm.trans (hsame ▸ hcat'))

end Bundle

theorem trim_eq_take {budgets : Budgets} {c : Category} {least most : ℕ}
    (h : budgets.lookup c = some (least, most)) (es : List BundleEntry) :
    trim budgets c es = es.take most := by
  unfold trim
  rw [h]
  dsimp only
  split
  · rfl
  · rw [List.take_of_length_le (by omega)]

/-- Each entry is of a candidate, and of a row that has passed every filter. -/
theorem entry_sound {p : Platform} {db : Db} {candidates : List Candidate} {now : Time}
    {permit : Option (MemoryRecord → Bool)} {budgets : Budgets} {diversity : Bool} {threshold : ℚ}
    {e : BundleEntry}
    (h : e ∈ (resolve p db candidates now permit budgets diversity threshold).allEntries) :
    (∃ c ∈ candidates, c.recordId = e.id) ∧ db.isTombstoned e.id = false ∧
      ∃ r, db.readOne e.id = some r ∧ e.claim = r.content ∧
        (∀ t, r.validFrom = some t → t ≤ now) ∧ (∀ t, r.validUntil = some t → now < t) ∧
        (∀ allowed, permit = some allowed → allowed r = true) ∧
        ((∃ c ∈ candidates, c.recordId = e.id ∧ ∃ text, text ≠ "" ∧ c.contentHash = some text) →
          ∃ c ∈ candidates, c.recordId = e.id ∧ c.contentHash = some r.contentHash) := by
  obtain ⟨⟨id, m⟩, hm, item, hh, hroute⟩ := mem_resolve h
  obtain ⟨hread, _, hlive, hhash, hvalid, hpermit⟩ := hydrate_some hh
  have hid : e.id = id := (route_id hroute).trans (hydrate_id hh)
  have hget := Table.mem_entries.mp hm
  have hcandidate := (merge_contains candidates id).mp (Table.contains_of_get? hget)
  unfold timeValid at hvalid
  rw [Bool.and_eq_true, Bool.not_eq_true', Bool.not_eq_true'] at hvalid
  rw [hid]
  refine ⟨hcandidate, hlive, item.1, hread, route_claim hroute, fun t ht => ?_, fun t ht => ?_,
    hpermit, fun ⟨c, hc, hcid, text, htext, hcarried⟩ => ?_⟩
  · simpa [ht] using hvalid.1
  · simpa [ht] using hvalid.2
  · have hmem : text ∈ m.contentHashes :=
      (mem_merge_hashes hget).mpr ⟨c, hc, hcid, mem_hashes.mpr ⟨htext, hcarried⟩⟩
    have hcarries : item.1.contentHash ∈ m.contentHashes :=
      hhash.resolve_left fun hnone => by rw [hnone] at hmem; cases hmem
    obtain ⟨d, hd, hdid, hdhash⟩ := (mem_merge_hashes hget).mp hcarries
    exact ⟨d, hd, hdid, (mem_hashes.mp hdhash).2⟩

/-- Every entry is backed by its row, no id occurs twice, and a budgeted category holds the
first of its entries, which are in the order of their rank. -/
theorem bundle_sound (p : Platform) (db : Db) (candidates : List Candidate) (now : Time)
    (permit : Option (MemoryRecord → Bool)) (budgets : Budgets) (diversity : Bool) (threshold : ℚ) :
    let b := resolve p db candidates now permit budgets diversity threshold
    let untrimmed := resolve p db candidates now permit [] diversity threshold
    (∀ e ∈ b.allEntries, (∃ c ∈ candidates, c.recordId = e.id) ∧ db.isTombstoned e.id = false ∧
      ∃ r, db.readOne e.id = some r ∧ e.claim = r.content ∧
        (∀ t, r.validFrom = some t → t ≤ now) ∧ (∀ t, r.validUntil = some t → now < t) ∧
        (∀ allowed, permit = some allowed → allowed r = true) ∧
        ((∃ c ∈ candidates, c.recordId = e.id ∧ ∃ text, text ≠ "" ∧ c.contentHash = some text) →
          ∃ c ∈ candidates, c.recordId = e.id ∧ c.contentHash = some r.contentHash)) ∧
    (b.allEntries.map BundleEntry.id).Nodup ∧
    ∀ c least most, budgets.lookup c = some (least, most) → (b.entries c).length ≤ most ∧
      b.entries c = (untrimmed.entries c).take most ∧ (untrimmed.entries c).Pairwise
        (RankedAbove db (hydrateAndFilter db (merge candidates) now permit)) := by
  intro b untrimmed
  have hnodup : ((hydrateAndFilter db (merge candidates) now permit).map fun item =>
      item.1.id).Nodup := survivors_nodup
  have hentries : ∀ c, b.entries c = trim budgets c _ :=
    entries_buildBundle p db _ diversity threshold budgets
  have huntrimmed : ∀ c, untrimmed.entries c = _ :=
    entries_buildBundle p db _ diversity threshold []
  refine ⟨fun e he => entry_sound he, ?_, fun c least most hc => ?_⟩
  · exact allEntries_nodup (routed_nodup hnodup) fun c => hentries c ▸ trim_sublist _ _ _
  · have htake : b.entries c = (untrimmed.entries c).take most := by
      rw [hentries, trim_eq_take hc, huntrimmed]
      rfl
    refine ⟨?_, htake, ?_⟩
    · rw [htake]
      exact List.length_take_le _ _
    · rw [huntrimmed]
      exact (routed_ranked hnodup).filter _

end StrataMemory.Resolver
