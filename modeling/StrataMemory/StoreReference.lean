import StrataMemory.ArchiveHistories
import StrataMemory.InsertionOrders

set_option autoImplicit false

namespace StrataMemory.StoreReference
open KeyedTables Records Tables ListOrders VectorStore StoreRefinement Histories StoreHistories
open InsertionOrders TurboVecAdapter ArchiveHistories NodeRuns

section Answers
variable {p : Platform} {h h' : List StoreCall} {s t : InMemoryVectorStore}

structure SameAnswers (p : Platform) (s t : InMemoryVectorStore) : Prop where
  contains : ∀ id, t.contains id = s.contains id
  search : ∀ vector topK generation filters,
    t.search p vector topK generation filters = s.search p vector topK generation filters

/-- A pair is found iff it was upserted since its id was last removed, with the hash of the
last such upsert, and purges change no answer. -/
structure Reference (p : Platform) (h : List StoreCall) : Prop where
  searchable : ∀ id g, Searchable p (runStore h) id g ↔ Live (id, g) h
  contains : ∀ id, (runStore h).contains id = true ↔ ∃ g, Live (id, g) h
  carries : ∀ vector topK generation filters,
    ∀ hit ∈ (runStore h).search p vector topK generation filters,
      ∃ rec, lastUpsert (hit.id, hit.embeddingGeneration) h = some rec ∧
        hit.contentHash = rec.contentHash
  purges : ∀ h', PurgesInserted h h' → SameAnswers p (runStore h) (runStore h')

/-- Some query scores alike what the two pairs were last upserted with. -/
def Tied (p : Platform) (h : List StoreCall) (x y : RecordId × ℤ) : Prop :=
  ∃ vector a b, lastUpsert x h = some a ∧ lastUpsert y h = some b ∧
    a.vector.length = vector.length ∧ b.vector.length = vector.length ∧
    p.cosine vector a.vector = p.cosine vector b.vector

/-- Two live pairs that may tie change places if one purge is inserted. -/
def Swapped (p : Platform) (x y : RecordId × ℤ) (h : List StoreCall) : Prop :=
  Live x h ∧ Live y h ∧ Tied p h x y ∧ Ahead x y h ∧ ∃ h', PurgedOnce h h' ∧ Ahead y x h'

theorem hits_order {vector : List ℚ} {generation : Option ℤ} {filters : List (String × String)}
    {a b : VectorHit} (hne : a ≠ b) (ha : a ∈ s.hits p vector generation filters)
    (hb : b ∈ s.hits p vector generation filters) :
    [a, b].Sublist (s.hits p vector generation filters) ↔
      [(a.id, a.embeddingGeneration), (b.id, b.embeddingGeneration)].Sublist s.byKey.keys := by
  have hkeys := InMemoryVectorStore.hits_keys_sublist p s vector generation filters
  have hforward : ∀ c d : VectorHit, [c, d].Sublist (s.hits p vector generation filters) →
      [(c.id, c.embeddingGeneration), (d.id, d.embeddingGeneration)].Sublist s.byKey.keys :=
    fun c d hcd => (hcd.map _).trans hkeys
  refine ⟨hforward a b, fun hab => ?_⟩
  rcases pair_sublist_or hne ha hb with h | h
  · exact h
  · exact absurd (hforward b a h) (pair_sublist_asymm s.byKey.nodup_keys hab)

theorem search_eq (hvisible : t.visible = s.visible) {vector : List ℚ} {generation : Option ℤ}
    {filters : List (String × String)}
    (hties : ∀ a ∈ s.hits p vector generation filters, ∀ b ∈ s.hits p vector generation filters,
      a.score = b.score →
      [(a.id, a.embeddingGeneration), (b.id, b.embeddingGeneration)].Sublist s.byKey.keys →
      [(a.id, a.embeddingGeneration), (b.id, b.embeddingGeneration)].Sublist t.byKey.keys)
    (topK : ℤ) :
    t.search p vector topK generation filters = s.search p vector topK generation filters := by
  have hperm := InMemoryVectorStore.hits_perm hvisible p vector generation filters
  have hnodup := InMemoryVectorStore.nodup_hits p s vector generation filters
  unfold InMemoryVectorStore.search
  rw [sortByDesc_stable hperm hnodup fun a b hscore hab => ?_]
  have ha : a ∈ s.hits p vector generation filters := hab.subset (by simp)
  have hb : b ∈ s.hits p vector generation filters := hab.subset (by simp)
  have hne : a ≠ b := by
    rintro rfl
    exact pair_sublist_asymm hnodup hab hab
  rw [hits_order hne ha hb] at hab
  rw [hits_order hne (hperm.mem_iff.mpr ha) (hperm.mem_iff.mpr hb)]
  exact hties a ha b hb hscore hab

theorem contains_of_visible (hvisible : t.visible = s.visible) (id : RecordId) :
    t.contains id = s.contains id := by
  rw [Bool.eq_iff_iff, InMemoryVectorStore.contains_iff_visible,
    InMemoryVectorStore.contains_iff_visible, hvisible]

theorem sameAnswers_of_not_swapped (hins : PurgesInserted h h') (hrevived : ∀ k, ¬ Revived k h)
    (hswapped : ∀ x y, ¬ Swapped p x y h) : SameAnswers p (runStore h) (runStore h') := by
  have hvisible := hins.visible hrevived
  refine ⟨contains_of_visible hvisible, fun vector topK generation filters => ?_⟩
  refine search_eq hvisible (fun a ha b hb hscore hab => ?_) topK
  obtain ⟨rec, hrec, _, _, hlength, hascore, _⟩ := InMemoryVectorStore.mem_hits.mp ha
  obtain ⟨rec', hrec', _, _, hlength', hbscore, _⟩ := InMemoryVectorStore.mem_hits.mp hb
  have hlive := (visible_iff_live hrevived _).mp (Option.isSome_iff_exists.mpr ⟨rec, hrec⟩)
  have hlive' := (visible_iff_live hrevived _).mp (Option.isSome_iff_exists.mpr ⟨rec', hrec'⟩)
  rw [keys_order] at hab ⊢
  -- Both pairs are still there, so only their order could have changed.
  have hkept : ∀ k, Live k h → Kept k h' := fun k hk => ((hins.statements k).1.mpr hk).kept.1
  rcases ahead_or hab.ne (hkept _ hlive) (hkept _ hlive') with hsame | hother
  · exact hsame
  · refine absurd ?_ (hswapped (a.id, a.embeddingGeneration) (b.id, b.embeddingGeneration))
    refine ⟨hlive, hlive', ?_, hab, (ahead_once hins hother).resolve_left hab.asymm⟩
    refine ⟨vector, rec, rec', visible_last hrec, visible_last hrec', hlength, hlength', ?_⟩
    rw [← hascore, ← hbscore, hscore]

/-- A swap shows in the search that takes all hits. -/
theorem search_of_swapped {x y : RecordId × ℤ} (hrevived : ∀ k, ¬ Revived k h)
    (hswapped : Swapped p x y h) : ∃ h', PurgesInserted h h' ∧
      ¬ SameAnswers p (runStore h) (runStore h') := by
  obtain ⟨hx, hy, ⟨vector, a, b, ha, hb, halength, hblength, hscore⟩, hahead, h', honce, hother⟩ :=
    hswapped
  refine ⟨h', honce.inserted, fun hsame => ?_⟩
  have hvisible := honce.inserted.visible hrevived
  have hshown : ∀ k rec, Live k h → lastUpsert k h = some rec →
      (runStore h).visible k = some rec := by
    intro k rec hlive hlast
    obtain ⟨rec', hrec⟩ := Option.isSome_iff_exists.mp ((visible_iff_live hrevived k).mpr hlive)
    rw [hrec, ← visible_last hrec, hlast]
  let hitOf (k : RecordId × ℤ) (rec : VectorRecord) : VectorHit :=
    ⟨k.1, p.cosine vector rec.vector, rec.contentHash, k.2⟩
  have hxhit : hitOf x a ∈ (runStore h).hits p vector none [] :=
    InMemoryVectorStore.mem_hits.mpr ⟨a, hshown x a hx ha, nofun, rfl, halength, rfl, rfl⟩
  have hyhit : hitOf y b ∈ (runStore h).hits p vector none [] :=
    InMemoryVectorStore.mem_hits.mpr ⟨b, hshown y b hy hb, nofun, rfl, hblength, rfl, rfl⟩
  have hne : hitOf x a ≠ hitOf y b := fun heq => hahead.ne
    (Prod.ext (congrArg VectorHit.id heq) (congrArg VectorHit.embeddingGeneration heq))
  have hperm := InMemoryVectorStore.hits_perm hvisible p vector none []
  have hbefore : [hitOf x a, hitOf y b].Sublist ((runStore h).hits p vector none []) :=
    (hits_order hne hxhit hyhit).mpr ((keys_order h x y).mpr hahead)
  have hafter : [hitOf y b, hitOf x a].Sublist ((runStore h').hits p vector none []) :=
    (hits_order hne.symm (hperm.mem_iff.mpr hyhit) (hperm.mem_iff.mpr hxhit)).mpr
      ((keys_order h' y x).mpr hother)
  have hsearch : sortByDesc VectorHit.score ((runStore h').hits p vector none []) =
      sortByDesc VectorHit.score ((runStore h).hits p vector none []) := by
    have hall := hsame.search vector ((runStore h).hits p vector none []).length none []
    unfold InMemoryVectorStore.search at hall
    rw [← (sortByDesc_perm VectorHit.score _).length_eq, slice_length] at hall
    rwa [(sortByDesc_perm VectorHit.score _).length_eq, ← hperm.length_eq,
      ← (sortByDesc_perm VectorHit.score _).length_eq, slice_length] at hall
  have hsorted := sortByDesc_pair (f := VectorHit.score) hscore.symm hafter
  rw [hsearch] at hsorted
  refine pair_sublist_asymm ?_ hsorted (sortByDesc_pair hscore hbefore)
  exact (sortByDesc_perm _ _).nodup_iff.mpr (InMemoryVectorStore.nodup_hits ..)

theorem reference_iff (p : Platform) (h : List StoreCall) :
    Reference p h ↔ (∀ k, ¬ Revived k h) ∧ ∀ x y, ¬ Swapped p x y h := by
  constructor
  · intro hreference
    have hrevived : ∀ k, ¬ Revived k h := by
      rintro ⟨id, g⟩ ⟨hkept, hremoved, hlive⟩
      have hsome := (visible_isSome h (id, g)).mpr ⟨hkept, hremoved⟩
      exact hlive ((hreference.searchable id g).mp (searchable_iff_visible.mpr hsome))
    refine ⟨hrevived, fun x y hswapped => ?_⟩
    obtain ⟨h', hins, hdiffer⟩ := search_of_swapped hrevived hswapped
    exact hdiffer (hreference.purges h' hins)
  · rintro ⟨hrevived, hswapped⟩
    refine ⟨fun id g => ?_, fun id => ?_, fun vector topK generation filters hit hhit => ?_,
      fun h' hins => sameAnswers_of_not_swapped hins hrevived hswapped⟩
    · exact searchable_iff_visible.trans (visible_iff_live hrevived (id, g))
    · rw [InMemoryVectorStore.contains_iff_visible]
      exact exists_congr fun g =>
        Option.isSome_iff_exists.symm.trans (visible_iff_live hrevived (id, g))
    · obtain ⟨rec, hrec, _, _, _, _, hhash⟩ :=
        InMemoryVectorStore.mem_hits.mp (InMemoryVectorStore.hits_of_search hhit)
      exact ⟨rec, visible_last hrec, hhash⟩

def ArchiveCall (dim : ℕ) : StoreCall → Prop
  | .upsert records => Wellformed dim records
  | .remove _ => True
  | .purgeDeleted => False

variable {ι φ : Type} {n : Native ι φ} {dim : ℕ}

def archiveStep (n : Native ι φ) (a : TurboVecArchiveAdapter ι φ) :
    StoreCall → TurboVecArchiveAdapter ι φ
  | .upsert records => (a.upsert n records).2
  | .remove ids => (a.remove n ids).2
  | .purgeDeleted => a

def runArchive (n : Native ι φ) (dim : ℕ) (h : List StoreCall) : TurboVecArchiveAdapter ι φ :=
  h.foldl (archiveStep n) (TurboVecArchiveAdapter.create n dim ∅)

/-- A pair is found iff it was upserted since its id was last removed; a hit has no hash. -/
structure ArchiveReference (n : Native ι φ) (dim : ℕ) (h : List StoreCall) : Prop where
  searchable : ∀ id g, (∃ vector topK, vector.length = dim ∧
    ∃ hit ∈ (runArchive n dim h).search n vector topK (some g), hit.id = id) ↔ Live (id, g) h
  contains : ∀ id, (runArchive n dim h).contains n id = true ↔ ∃ g, Live (id, g) h
  hashless : ∀ vector topK g, vector.length = dim →
    ∀ hit ∈ (runArchive n dim h).search n vector topK (some g), hit.contentHash = ""

theorem upserts_iff (id : RecordId) (g : ℤ) (records : List VectorRecord) :
    Upserts (id, g) (.upsert records) ↔
      id ∈ idsOf (records.filter fun r => r.embeddingGeneration = g) := by
  unfold Upserts idsOf StoreCall.records
  rw [List.mem_toFinset, List.mem_map]
  constructor
  · rintro ⟨rec, hrec, hkey⟩
    cases hkey
    exact ⟨rec, List.mem_filter.mpr ⟨hrec, decide_eq_true rfl⟩, rfl⟩
  · rintro ⟨rec, hrec, rfl⟩
    obtain ⟨hmem, hgen⟩ := List.mem_filter.mp hrec
    exact ⟨rec, hmem, Prod.ext rfl (of_decide_eq_true hgen)⟩

/-- The archive holds in each generation what is live in it. -/
theorem held_iff_live (m : IsMap n dim) (hcalls : ∀ c ∈ h, ArchiveCall dim c) :
    Sound m (runArchive n dim h) ∧
      ∀ id g, id ∈ m.heldIn (runArchive n dim h) g ↔ Live (id, g) h := by
  induction h using List.reverseRecOn with
  | nil =>
    refine ⟨sound_create m, fun id g => iff_of_false ?_ ?_⟩
    · have hbook := (sound_create m).book g
      rw [runArchive, List.foldl_nil, ← hbook, listed_create m]
      exact Finset.notMem_empty id
    · exact not_sinceAt_nil (fun _ => Upserts (id, g)) fun _ => Removes id
  | append_singleton h c ih =>
    obtain ⟨hsound, hheld⟩ := ih fun x hx => hcalls x (List.mem_append_left _ hx)
    have hc := hcalls c (List.mem_append_right _ (List.mem_singleton_self c))
    have hrun : runArchive n dim (h ++ [c]) = archiveStep n (runArchive n dim h) c := by
      simp [runArchive]
    rw [hrun]
    cases c with
    | upsert records =>
      have hgrown := upsert_grown m hsound.dim hc
      refine ⟨hsound.upsert m fun g => (hc g).nodup, fun id g => ?_⟩
      rw [archiveStep, hgrown.held, Finset.mem_union, hheld, live_upsert, upserts_iff, or_comm]
    | remove ids =>
      have hshrunk := remove_shrunk m hsound.book ids
      refine ⟨hsound.remove m ids, fun id g => ?_⟩
      rw [archiveStep, hshrunk.lost g trivial, Finset.mem_sdiff, hheld, live_remove,
        List.mem_toFinset]
    | purgeDeleted => exact hc.elim

theorem archive_reference (m : IsMap n dim) (hcalls : ∀ c ∈ h, ArchiveCall dim c) :
    ArchiveReference n dim h := by
  obtain ⟨hsound, hheld⟩ := held_iff_live m hcalls
  refine ⟨fun id g => ?_, fun id => ?_, fun vector topK g hvector hit hhit => ?_⟩
  · rw [← hheld]
    constructor
    · rintro ⟨vector, topK, hvector, hit, hhit, rfl⟩
      exact (hitsIn_held m hvector (mem_search hhit)).1
    · intro hid
      have hvector : (List.replicate dim (0 : ℚ)).length = dim := List.length_replicate
      exact ⟨_, _, hvector, held_searchable m hsound.book hsound.dim hvector hid⟩
  · rw [contains_iff_held m]
    exact exists_congr fun g => hheld id g
  · exact (hitsIn_held m hvector (mem_search hhit)).2.1

end Answers

/-- The store answers by its history if and only if no pair has been revived and no purge
would swap two that may tie; and an archive whose index is a map always answers so, without
hashes. -/
theorem store_reference (p : Platform) (h : List StoreCall) :
    (Reference p h ↔ (∀ k, ¬ Revived k h) ∧ ∀ x y, ¬ Swapped p x y h) ∧
    ∀ (ι φ : Type) (n : Native ι φ) (dim : ℕ), IsMap n dim → (∀ c ∈ h, ArchiveCall dim c) →
      ArchiveReference n dim h :=
  ⟨reference_iff p h, fun _ _ _ _ m hcalls => archive_reference m hcalls⟩

def hotRecord (id : RecordId) (generation : ℤ) : VectorRecord :=
  ⟨id, [1], "tea", "length", generation, []⟩

theorem wellformed_singleton {dim : ℕ} {rec : VectorRecord} (hrec : rec.vector.length = dim) :
    Wellformed dim [rec] := by
  intro g
  have hsub : ([rec].filter fun r => r.embeddingGeneration = g).Sublist [rec] := List.filter_sublist
  refine ⟨(hsub.map _).nodup (List.nodup_singleton _), fun r hr => ?_⟩
  rw [List.mem_singleton.mp (hsub.subset hr)]
  exact hrec

/-- An id moves to another generation; the archive, in a table, answers by the history. -/
theorem store_reference_moved :
    let h := [StoreCall.upsert [hotRecord 1 1], .remove [1], .upsert [hotRecord 1 2]]
    ArchiveReference tableIndex 1 h ∧
      ((runArchive tableIndex 1 h).search tableIndex [1] 5 (some 1)).map VectorHit.id = [] ∧
      ((runArchive tableIndex 1 h).search tableIndex [1] 5 (some 2)).map VectorHit.id = [1] := by
  intro h
  have hcalls : ∀ c ∈ h, ArchiveCall 1 c := by
    intro c hc
    simp only [h, List.mem_cons, List.not_mem_nil, or_false] at hc
    rcases hc with rfl | rfl | rfl
    · exact wellformed_singleton rfl
    · trivial
    · exact wellformed_singleton rfl
  refine ⟨?_, by decide, by decide⟩
  exact (store_reference plainPlatform h).2 _ _ tableIndex 1 (tableIndex_isMap 1) hcalls

/-- An id that moves to another generation is revived in the old one, unless it was purged. -/
theorem removed_pair_revived :
    let h := [StoreCall.upsert [hotRecord 1 1], .remove [1], .upsert [hotRecord 1 2]]
    let purged := [StoreCall.upsert [hotRecord 1 1], .remove [1], .purgeDeleted,
      .upsert [hotRecord 1 2]]
    ((runStore h).search plainPlatform [1] 5 (some 1)).map VectorHit.id = [1] ∧
      (runStore purged).search plainPlatform [1] 5 (some 1) = [] ∧ ¬ Live (1, 1) h ∧
      ¬ Reference plainPlatform h := by
  intro h purged
  have hsearch : ((runStore h).search plainPlatform [1] 5 (some 1)).map VectorHit.id = [1] := by
    decide
  have hdead : ¬ Live (1, 1) h := by
    have hother : ¬ Upserts (1, 1) (.upsert [hotRecord 1 2]) := by
      rintro ⟨rec, hrec, hkey⟩
      cases List.mem_singleton.mp hrec
      exact absurd hkey (by decide)
    intro hlive
    have hlast : Live (1, 1) ([StoreCall.upsert [hotRecord 1 1], .remove [1]] ++
        [.upsert [hotRecord 1 2]]) := hlive
    have hbefore : Live (1, 1) ([StoreCall.upsert [hotRecord 1 1]] ++ [.remove [1]]) :=
      ((live_upsert _).mp hlast).resolve_left hother
    exact ((live_remove [1]).mp hbefore).2 (List.mem_singleton_self 1)
  refine ⟨hsearch, by decide, hdead, fun hreference => hdead ?_⟩
  obtain ⟨hit, hhit, hid⟩ := List.mem_map.mp (hsearch ▸ List.mem_singleton_self 1 : (1 : ℤ) ∈ _)
  exact (hreference.searchable 1 1).mp ⟨_, _, hit, hhit, hid⟩

/-- A purge puts an id that was added again behind the others with its score. -/
example :
    let before := [StoreCall.upsert [hotRecord 1 1], .upsert [hotRecord 2 1], .remove [1]]
    let after := [StoreCall.upsert [hotRecord 1 1]]
    ((runStore (before ++ after)).search plainPlatform [1] 1 none).map VectorHit.id = [1] ∧
      ((runStore (before ++ [.purgeDeleted] ++ after)).search plainPlatform [1] 1 none).map
        VectorHit.id = [2] := by
  decide

end StrataMemory.StoreReference
