import StrataMemory.Coordinator

set_option autoImplicit false

namespace StrataMemory.VectorStore
open KeyedTables Records Tables

structure VectorHit where
  id : RecordId
  score : ℚ
  contentHash : String
  embeddingGeneration : ℤ
  deriving DecidableEq

structure InMemoryVectorStore where
  byKey : Table (RecordId × ℤ) VectorRecord
  deleted : List RecordId

namespace InMemoryVectorStore

def empty : InMemoryVectorStore := ⟨∅, []⟩

instance : Inhabited InMemoryVectorStore := ⟨empty⟩

/-- Re-adding an id clears its soft delete. -/
def upsertOne (s : InMemoryVectorStore) (rec : VectorRecord) : InMemoryVectorStore :=
  ⟨s.byKey.set (rec.id, rec.embeddingGeneration) rec, s.deleted.filter (· ≠ rec.id)⟩

def upsert (s : InMemoryVectorStore) (records : List VectorRecord) : Acks × InMemoryVectorStore :=
  (records.map fun r => (r.id, true), records.foldl upsertOne s)

def remove (s : InMemoryVectorStore) (ids : List RecordId) : Acks × InMemoryVectorStore :=
  (ids.map fun i => (i, true), ⟨s.byKey, ids ++ s.deleted⟩)

def contains (s : InMemoryVectorStore) (id : RecordId) : Bool :=
  id ∉ s.deleted && s.byKey.keys.any fun k => k.1 = id

def purgeDeleted (s : InMemoryVectorStore) : ℕ × InMemoryVectorStore :=
  let keys := s.byKey.keys.filter fun k => k.1 ∈ s.deleted
  (keys.length, ⟨s.byKey.eraseAll keys, s.deleted.filter fun i => i ∉ keys.map Prod.fst⟩)

def matchesFilters (rec : VectorRecord) (filters : List (String × String)) : Bool :=
  filters.all fun f => rec.metadata.lookup f.1 = some f.2

def hits (p : Platform) (s : InMemoryVectorStore) (vector : List ℚ) (generation : Option ℤ)
    (filters : List (String × String)) : List VectorHit :=
  s.byKey.entries.filterMap fun e =>
    if e.1.1 ∈ s.deleted then none
    else if generation.any (· ≠ e.1.2) then none
    else if !matchesFilters e.2 filters then none
    else if e.2.vector.length ≠ vector.length then none
    else some ⟨e.1.1, p.cosine vector e.2.vector, e.2.contentHash, e.1.2⟩

def search (p : Platform) (s : InMemoryVectorStore) (vector : List ℚ) (topK : ℤ)
    (generation : Option ℤ) (filters : List (String × String) := []) : List VectorHit :=
  slice (sortByDesc VectorHit.score (hits p s vector generation filters)) topK

@[simp] theorem contains_remove (s : InMemoryVectorStore) (ids : List RecordId) (id : RecordId) :
    (s.remove ids).2.contains id = (id ∉ ids && s.contains id) := by
  unfold remove contains
  by_cases h : id ∈ ids <;> simp [h]

theorem contains_upsertOne (s : InMemoryVectorStore) (rec : VectorRecord) (id : RecordId) :
    (s.upsertOne rec).contains id = (decide (rec.id = id) || s.contains id) := by
  have hkeys : ((s.upsertOne rec).byKey.keys.any fun k => k.1 = id) =
      (decide (rec.id = id) || s.byKey.keys.any fun k => k.1 = id) := by
    rw [Bool.eq_iff_iff]
    simp only [upsertOne, List.any_eq_true, decide_eq_true_eq, Bool.or_eq_true,
      Table.keys, Table.set, Table.mem_keys_assignIn]
    constructor
    · rintro ⟨k, rfl | hk, rfl⟩
      · exact .inl rfl
      · exact .inr ⟨k, hk, rfl⟩
    · rintro (rfl | ⟨k, hk, rfl⟩)
      · exact ⟨_, .inl rfl, rfl⟩
      · exact ⟨k, .inr hk, rfl⟩
  unfold contains
  rw [hkeys]
  by_cases h : rec.id = id
  · subst h
    simp [upsertOne]
  · have h' : ¬ id = rec.id := fun e => h e.symm
    simp [upsertOne, h, h']

theorem contains_upsert (s : InMemoryVectorStore) (records : List VectorRecord) (id : RecordId) :
    (s.upsert records).2.contains id = (records.any (·.id = id) || s.contains id) := by
  change (records.foldl upsertOne s).contains id = _
  induction records generalizing s with
  | nil => rfl
  | cons r rs ih =>
    rw [List.foldl_cons, ih, contains_upsertOne, List.any_cons]
    cases decide (r.id = id) <;> simp

def visible (s : InMemoryVectorStore) (k : RecordId × ℤ) : Option VectorRecord :=
  if k.1 ∈ s.deleted then none else s.byKey.get? k

theorem visible_eq_some {s : InMemoryVectorStore} {k : RecordId × ℤ} {rec : VectorRecord} :
    s.visible k = some rec ↔ k.1 ∉ s.deleted ∧ s.byKey.get? k = some rec := by
  unfold visible
  by_cases h : k.1 ∈ s.deleted <;> simp [h]

theorem mem_hits {p : Platform} {s : InMemoryVectorStore} {vector : List ℚ}
    {generation : Option ℤ} {filters : List (String × String)} {hit : VectorHit} :
    hit ∈ hits p s vector generation filters ↔
      ∃ rec, s.visible (hit.id, hit.embeddingGeneration) = some rec ∧
        (∀ g ∈ generation, hit.embeddingGeneration = g) ∧ matchesFilters rec filters = true ∧
        rec.vector.length = vector.length ∧ hit.score = p.cosine vector rec.vector ∧
        hit.contentHash = rec.contentHash := by
  obtain ⟨id, score, contentHash, gen⟩ := hit
  unfold hits
  rw [List.mem_filterMap]
  constructor
  · rintro ⟨⟨⟨id', gen'⟩, rec⟩, hentry, hfound⟩
    dsimp only at hfound
    split_ifs at hfound with hdeleted hgeneration hmatches hlength
    cases hfound
    refine ⟨rec, visible_eq_some.mpr ⟨hdeleted, Table.mem_entries.mp hentry⟩, ?_, ?_, ?_, rfl, rfl⟩
    · intro g hg
      cases hg
      have hsame : g = gen := by simpa using hgeneration
      exact hsame.symm
    · simpa using hmatches
    · simpa using hlength
  · rintro ⟨rec, hvisible, hgeneration, hmatches, hlength, rfl, rfl⟩
    obtain ⟨hdeleted, hget⟩ := visible_eq_some.mp hvisible
    refine ⟨((id, gen), rec), Table.mem_entries.mpr hget, ?_⟩
    have hany : ¬ generation.any (fun g => decide (g ≠ gen)) = true := by
      cases generation with
      | none => exact Bool.false_ne_true
      | some g => simp [← hgeneration g rfl]
    dsimp only
    rw [if_neg hdeleted, if_neg hany, if_neg (by simp [hmatches]), if_neg (not_not.mpr hlength)]

theorem hits_of_search {p : Platform} {s : InMemoryVectorStore} {vector : List ℚ} {topK : ℤ}
    {generation : Option ℤ} {filters : List (String × String)} {hit : VectorHit}
    (h : hit ∈ s.search p vector topK generation filters) :
    hit ∈ hits p s vector generation filters :=
  (mem_sortByDesc _ _ _).mp (mem_of_mem_slice h)

theorem search_of_hits {p : Platform} {s : InMemoryVectorStore} {vector : List ℚ}
    {generation : Option ℤ} {filters : List (String × String)} {hit : VectorHit}
    (h : hit ∈ hits p s vector generation filters) :
    hit ∈ s.search p vector (hits p s vector generation filters).length generation filters := by
  have hlength : (hits p s vector generation filters).length =
      (sortByDesc VectorHit.score (hits p s vector generation filters)).length :=
    (sortByDesc_perm _ _).length_eq.symm
  unfold search
  rw [hlength, slice_length]
  exact (mem_sortByDesc _ _ _).mpr h

theorem hits_keys_sublist (p : Platform) (s : InMemoryVectorStore) (vector : List ℚ)
    (generation : Option ℤ) (filters : List (String × String)) :
    ((hits p s vector generation filters).map fun hit => (hit.id, hit.embeddingGeneration)).Sublist
      s.byKey.keys := by
  unfold hits Table.keys
  induction s.byKey.entries with
  | nil => exact List.Sublist.slnil
  | cons e es ih =>
    rw [List.filterMap_cons, List.map_cons]
    split
    · exact ih.cons _
    · next hit hfound =>
      split_ifs at hfound
      cases hfound
      exact ih.cons_cons _

theorem nodup_hits (p : Platform) (s : InMemoryVectorStore) (vector : List ℚ)
    (generation : Option ℤ) (filters : List (String × String)) :
    (hits p s vector generation filters).Nodup :=
  List.Nodup.of_map _ ((hits_keys_sublist p s vector generation filters).nodup s.byKey.nodup_keys)

def entriesOf (s : InMemoryVectorStore) (generation : ℤ) : List ((RecordId × ℤ) × VectorRecord) :=
  s.byKey.entries.filter fun e => e.1.2 = generation

theorem hits_of_entriesOf {s t : InMemoryVectorStore} {generation : ℤ}
    (hentries : t.entriesOf generation = s.entriesOf generation)
    (hdeleted : ∀ e ∈ s.entriesOf generation, e.1.1 ∈ t.deleted ↔ e.1.1 ∈ s.deleted) (p : Platform)
    (vector : List ℚ) (filters : List (String × String)) :
    hits p t vector (some generation) filters = hits p s vector (some generation) filters := by
  have hfilter : ∀ u : InMemoryVectorStore, hits p u vector (some generation) filters =
      (u.entriesOf generation).filterMap fun e =>
        if e.1.1 ∈ u.deleted then none
        else if !matchesFilters e.2 filters then none
        else if e.2.vector.length ≠ vector.length then none
        else some ⟨e.1.1, p.cosine vector e.2.vector, e.2.contentHash, e.1.2⟩ := by
    intro u
    unfold hits entriesOf
    rw [List.filterMap_filter]
    refine List.filterMap_congr fun e _ => ?_
    by_cases hgen : e.1.2 = generation
    · simp [hgen]
    · have hgen' : ¬ generation = e.1.2 := Ne.symm hgen
      simp [hgen, hgen']
  rw [hfilter, hfilter, hentries]
  refine List.filterMap_congr fun e he => ?_
  simp only [hdeleted e he]

/-- Stores that show the same records give the same hits, up to their order. -/
theorem hits_perm {s t : InMemoryVectorStore} (h : t.visible = s.visible) (p : Platform)
    (vector : List ℚ) (generation : Option ℤ) (filters : List (String × String)) :
    (hits p t vector generation filters).Perm (hits p s vector generation filters) := by
  refine (List.perm_ext_iff_of_nodup (nodup_hits ..) (nodup_hits ..)).mpr fun hit => ?_
  rw [mem_hits, mem_hits, h]

theorem contains_iff_visible {s : InMemoryVectorStore} {id : RecordId} :
    s.contains id = true ↔ ∃ g rec, s.visible (id, g) = some rec := by
  unfold contains
  rw [Bool.and_eq_true, decide_eq_true_iff, List.any_eq_true]
  constructor
  · rintro ⟨hdeleted, ⟨id', g⟩, hkey, hid⟩
    cases of_decide_eq_true hid
    obtain ⟨rec, hrec⟩ := Option.isSome_iff_exists.mp ((Table.lookupIn_isSome _ _).mpr hkey)
    exact ⟨g, rec, visible_eq_some.mpr ⟨hdeleted, hrec⟩⟩
  · rintro ⟨g, rec, hvisible⟩
    obtain ⟨hdeleted, hrec⟩ := visible_eq_some.mp hvisible
    have hkey : (id, g) ∈ s.byKey.keys :=
      (Table.lookupIn_isSome _ _).mp (Option.isSome_iff_exists.mpr ⟨rec, hrec⟩)
    exact ⟨hdeleted, (id, g), hkey, decide_eq_true rfl⟩

end InMemoryVectorStore
end StrataMemory.VectorStore
