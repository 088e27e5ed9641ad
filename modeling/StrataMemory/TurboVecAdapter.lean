import Mathlib.Data.Finset.Card
import Mathlib.Data.Finset.Lattice.Basic
import StrataMemory.StoreRefinement

set_option autoImplicit false

/-!
# The TurboVec archive adapter

One native index for each generation, and beside it a set of the ids that it holds,
which sizes the searches. The native package is a parameter.
-/
namespace StrataMemory.TurboVecAdapter
open KeyedTables Records Tables VectorStore StoreRefinement

variable {ι φ : Type}

/-- What the adapter calls: `turbovec.IdMapIndex`, with indices of type `ι` of one dimension
and files of type `φ`, and the listing of the archive's directory. -/
structure Native (ι φ : Type) where
  create : ℕ → ι
  contains : ι → RecordId → Bool
  remove : ι → RecordId → ι
  addWithIds : ι → List (RecordId × List ℚ) → Except String Unit × ι
  prepare : ι → ι
  search : ι → List ℚ → ℕ → List (ℚ × RecordId)
  write : ι → φ
  load : φ → ι
  listdir : Table ℤ φ → List (ℤ × φ)

/-- `files` are the `.tvim` files under the adapter's path, by their generation. -/
structure TurboVecArchiveAdapter (ι φ : Type) where
  dim : ℕ
  indices : Table ℤ ι
  ids : Table ℤ (Finset RecordId)
  files : Table ℤ φ

namespace TurboVecArchiveAdapter

/-- A new adapter on a directory, with `_load_existing`. -/
def create (n : Native ι φ) (dim : ℕ) (files : Table ℤ φ) : TurboVecArchiveAdapter ι φ where
  dim := dim
  indices := (n.listdir files).foldl (fun t file => t.set file.1 (n.load file.2)) ∅
  ids := (n.listdir files).foldl (fun t file => t.set file.1 ∅) ∅
  files := files

def indexFor (n : Native ι φ) (a : TurboVecArchiveAdapter ι φ) (generation : ℤ) : ι :=
  (a.indices.get? generation).getD (n.create a.dim)

def listed (a : TurboVecArchiveAdapter ι φ) (generation : ℤ) : Finset RecordId :=
  (a.ids.get? generation).getD ∅

def byGen (records : List VectorRecord) : Table ℤ (List VectorRecord) :=
  records.foldl (fun t r =>
    t.set r.embeddingGeneration ((t.get? r.embeddingGeneration).getD [] ++ [r])) ∅

def removeHeld (n : Native ι φ) (idx : ι) (id : RecordId) : ι :=
  if n.contains idx id then n.remove idx id else idx

/-- The records of one generation: those present are removed, and all are added. -/
def upsertGroup (n : Native ι φ) (a : TurboVecArchiveAdapter ι φ) (generation : ℤ)
    (records : List VectorRecord) : Except String Unit × TurboVecArchiveAdapter ι φ :=
  let cleared := (records.map VectorRecord.id).foldl (removeHeld n) (a.indexFor n generation)
  match n.addWithIds cleared (records.map fun r => (r.id, r.vector)) with
  | (.error e, added) =>
    (.error e, { a with
      indices := a.indices.set generation added
      ids := a.ids.set generation (a.listed generation) })
  | (.ok (), added) =>
    (.ok (), { a with
      indices := a.indices.set generation (n.prepare added)
      ids := a.ids.set generation
        (a.listed generation ∪ (records.map VectorRecord.id).toFinset) })

def upsertGroups (n : Native ι φ) : List (ℤ × List VectorRecord) →
    TurboVecArchiveAdapter ι φ → Except String Unit × TurboVecArchiveAdapter ι φ
  | [], a => (.ok (), a)
  | (generation, records) :: rest, a =>
    match a.upsertGroup n generation records with
    | (.error e, a') => (.error e, a')
    | (.ok (), a') => upsertGroups n rest a'

/-- A vector of another dimension raises before anything is written. -/
def upsert (n : Native ι φ) (a : TurboVecArchiveAdapter ι φ) (records : List VectorRecord) :
    Except String Acks × TurboVecArchiveAdapter ι φ :=
  match records.find? fun r => r.vector.length ≠ a.dim with
  | some r =>
    (.error ("vector dim " ++ toString r.vector.length ++ " != index dim " ++ toString a.dim ++
      " (a different embedding dimension is a separate generation index)"), a)
  | none =>
    match upsertGroups n (byGen records).entries a with
    | (.error e, a') => (.error e, a')
    | (.ok (), a') => (.ok (records.map fun r => (r.id, true)), a')

/-- One id out of an index and its side set; whether anything was removed so far. -/
def discardHeld (n : Native ι φ) (state : Bool × ι × Finset RecordId) (id : RecordId) :
    Bool × ι × Finset RecordId :=
  if n.contains state.2.1 id then (true, n.remove state.2.1 id, state.2.2.erase id) else state

def removeFrom (n : Native ι φ) (ids : List RecordId) (a : TurboVecArchiveAdapter ι φ)
    (generation : ℤ) : TurboVecArchiveAdapter ι φ :=
  match a.indices.get? generation with
  | none => a
  | some idx =>
    let (removed, idx', live) := ids.foldl (discardHeld n) (false, idx, a.listed generation)
    { a with
      indices := a.indices.set generation (if removed then n.prepare idx' else idx')
      ids := a.ids.modify generation fun _ => live }

def contains (n : Native ι φ) (a : TurboVecArchiveAdapter ι φ) (id : RecordId) : Bool :=
  a.indices.values.any fun idx => n.contains idx id

def remove (n : Native ι φ) (a : TurboVecArchiveAdapter ι φ) (ids : List RecordId) :
    Acks × TurboVecArchiveAdapter ι φ :=
  let a' := a.indices.keys.foldl (removeFrom n ids) a
  (ids.map fun id => (id, !a'.contains n id), a')

/-- The archive keeps no content hash. -/
def hitsIn (n : Native ι φ) (a : TurboVecArchiveAdapter ι φ) (vector : List ℚ) (topK : ℕ)
    (generation : ℤ) : List VectorHit :=
  match a.indices.get? generation with
  | none => []
  | some idx =>
    let live := (a.listed generation).card
    if live = 0 then []
    else (n.search idx vector (min topK live)).map fun found => ⟨found.2, found.1, "", generation⟩

def search (n : Native ι φ) (a : TurboVecArchiveAdapter ι φ) (vector : List ℚ) (topK : ℕ)
    (generation : Option ℤ) : List VectorHit :=
  if vector.length ≠ a.dim then []
  else
    let gens := match generation with
      | some g => [g]
      | none => a.indices.keys
    (sortByDesc VectorHit.score (gens.flatMap (a.hitsIn n vector topK))).take topK

def persist (n : Native ι φ) (a : TurboVecArchiveAdapter ι φ) : TurboVecArchiveAdapter ι φ :=
  { a with files := a.indices.entries.foldl (fun t e => t.set e.1 (n.write e.2)) a.files }

def purgeGeneration (a : TurboVecArchiveAdapter ι φ) (generation : ℤ) :
    TurboVecArchiveAdapter ι φ :=
  { a with
    indices := a.indices.erase generation
    ids := a.ids.erase generation
    files := a.files.erase generation }

/-- A new adapter on what the old one has written. -/
def persistReopen (n : Native ι φ) (a : TurboVecArchiveAdapter ι φ) :
    TurboVecArchiveAdapter ι φ :=
  create n a.dim (a.persist n).files

end TurboVecArchiveAdapter

/-- `found` are the `k` best of the entries, by their scores. -/
structure Best (score : List ℚ → ℚ) (entries : RecordId → Option (List ℚ))
    (held : Finset RecordId) (k : ℕ) (found : List (ℚ × RecordId)) : Prop where
  length : found.length = min k held.card
  nodup : (found.map Prod.snd).Nodup
  scored : ∀ x ∈ found, ∃ v, entries x.2 = some v ∧ x.1 = score v
  best : ∀ id v, entries id = some v → id ∉ found.map Prod.snd → ∀ x ∈ found, score v ≤ x.1

/-- The index is a map from ids to vectors of one dimension: what each call does to the map,
that a search returns its best entries, and that a file read back holds the map written. -/
structure IsMap (n : Native ι φ) (dim : ℕ) where
  entries : ι → RecordId → Option (List ℚ)
  held : ι → Finset RecordId
  quantize : List ℚ → List ℚ
  score : List ℚ → List ℚ → ℚ
  mem_held : ∀ idx id, id ∈ held idx ↔ (entries idx id).isSome = true
  contains : ∀ idx id, n.contains idx id = (entries idx id).isSome
  create : ∀ id, entries (n.create dim) id = none
  remove : ∀ idx id other,
    entries (n.remove idx id) other = if other = id then none else entries idx other
  /-- Ids that are new and different are added; a duplicate would raise. -/
  add : ∀ idx new, (∀ e ∈ new, entries idx e.1 = none) → (new.map Prod.fst).Nodup →
    (∀ e ∈ new, e.2.length = dim) → (n.addWithIds idx new).1 = .ok () ∧
      ∀ id, entries (n.addWithIds idx new).2 id =
        ((new.find? fun e => e.1 = id).map fun e => quantize e.2).or (entries idx id)
  prepare : ∀ idx id, entries (n.prepare idx) id = entries idx id
  search : ∀ idx q k, q.length = dim → Best (score q) (entries idx) (held idx) k (n.search idx q k)
  load_write : ∀ idx id, entries (n.load (n.write idx)) id = entries idx id
  listdir : ∀ files, (n.listdir files).Perm files.entries

section Held
variable {n : Native ι φ} {dim : ℕ} (m : IsMap n dim) {a a' : TurboVecArchiveAdapter ι φ}

/-- The ids in the index of a generation. -/
def IsMap.heldIn (a : TurboVecArchiveAdapter ι φ) (generation : ℤ) : Finset RecordId :=
  match a.indices.get? generation with
  | none => ∅
  | some idx => m.held idx

theorem IsMap.heldIn_some {generation : ℤ} {idx : ι} (h : a.indices.get? generation = some idx) :
    m.heldIn a generation = m.held idx := by
  unfold heldIn
  rw [h]

theorem IsMap.heldIn_none {generation : ℤ} (h : a.indices.get? generation = none) :
    m.heldIn a generation = ∅ := by
  unfold heldIn
  rw [h]

def Bookkeeping (a : TurboVecArchiveAdapter ι φ) : Prop := ∀ g, a.listed g = m.heldIn a g

theorem held_congr {idx other : ι} (h : ∀ id, m.entries idx id = m.entries other id) :
    m.held idx = m.held other := by
  ext id
  rw [m.mem_held, m.mem_held, h]

theorem entries_removeHeld (idx : ι) (id other : RecordId) :
    m.entries (TurboVecArchiveAdapter.removeHeld n idx id) other =
      if other = id then none else m.entries idx other := by
  unfold TurboVecArchiveAdapter.removeHeld
  rw [m.contains]
  by_cases hid : (m.entries idx id).isSome = true
  · rw [if_pos hid, m.remove]
  · rw [if_neg hid]
    by_cases hother : other = id
    · rw [if_pos hother, hother]
      simpa using hid
    · rw [if_neg hother]

theorem entries_clear (ids : List RecordId) (idx : ι) (other : RecordId) :
    m.entries (ids.foldl (TurboVecArchiveAdapter.removeHeld n) idx) other =
      if other ∈ ids then none else m.entries idx other := by
  induction ids generalizing idx with
  | nil => rfl
  | cons id ids ih =>
    rw [List.foldl_cons, ih, entries_removeHeld]
    by_cases hmem : other ∈ ids <;> by_cases hid : other = id <;> simp [hmem, hid]

theorem IsMap.heldIn_set {generation : ℤ} {idx : ι}
    (h : a'.indices = a.indices.set generation idx) (g : ℤ) :
    m.heldIn a' g = if generation = g then m.held idx else m.heldIn a g := by
  unfold heldIn
  rw [h, Table.get?_set]
  split_ifs <;> rfl

theorem listed_set {generation : ℤ} {live : Finset RecordId}
    (h : a'.ids = a.ids.set generation live) (g : ℤ) :
    a'.listed g = if generation = g then live else a.listed g := by
  unfold TurboVecArchiveAdapter.listed
  rw [h, Table.get?_set]
  split_ifs <;> rfl

structure Grown (a a' : TurboVecArchiveAdapter ι φ) (added : ℤ → Finset RecordId) : Prop where
  dim : a'.dim = a.dim
  files : a'.files = a.files
  indices : ∀ g, a.indices.contains g = true → a'.indices.contains g = true
  held : ∀ g, m.heldIn a' g = m.heldIn a g ∪ added g
  listed : ∀ g, a'.listed g = a.listed g ∪ added g

def idsOf (records : List VectorRecord) : Finset RecordId :=
  (records.map VectorRecord.id).toFinset

structure Batch (dim : ℕ) (records : List VectorRecord) : Prop where
  nodup : (records.map VectorRecord.id).Nodup
  vectors : ∀ r ∈ records, r.vector.length = dim

theorem mem_indexFor (hdim : a.dim = dim) (generation : ℤ) (id : RecordId) :
    id ∈ m.heldIn a generation ↔ (m.entries (a.indexFor n generation) id).isSome = true := by
  unfold TurboVecArchiveAdapter.indexFor
  cases hget : a.indices.get? generation with
  | none => simp [m.heldIn_none hget, hdim, m.create]
  | some idx => rw [m.heldIn_some hget, m.mem_held, Option.getD_some]

theorem held_added (hdim : a.dim = dim) (generation : ℤ) {records : List VectorRecord}
    (hbatch : Batch dim records) :
    let cleared := (records.map VectorRecord.id).foldl (TurboVecArchiveAdapter.removeHeld n)
      (a.indexFor n generation)
    ∃ added, n.addWithIds cleared (records.map fun r => (r.id, r.vector)) = (.ok (), added) ∧
      m.held (n.prepare added) = m.heldIn a generation ∪ idsOf records := by
  intro cleared
  let new := records.map fun r => (r.id, r.vector)
  have hids : new.map Prod.fst = records.map VectorRecord.id := by simp [new, Function.comp_def]
  have hempty : ∀ e ∈ new, m.entries cleared e.1 = none := by
    intro e he
    have hmem : e.1 ∈ records.map VectorRecord.id := hids ▸ List.mem_map_of_mem he
    rw [entries_clear, if_pos hmem]
  have hlengths : ∀ e ∈ new, e.2.length = dim := by
    intro e he
    obtain ⟨r, hr, rfl⟩ := List.mem_map.mp he
    exact hbatch.vectors r hr
  obtain ⟨hok, hentries⟩ := m.add cleared new hempty (hids ▸ hbatch.nodup) hlengths
  refine ⟨_, Prod.ext hok rfl, ?_⟩
  ext id
  have hfound : (new.find? fun e => e.1 = id).isSome = true ↔
      id ∈ records.map VectorRecord.id := by
    simp [List.find?_isSome, new]
  rw [m.mem_held, m.prepare, hentries, Option.isSome_or, Bool.or_eq_true, Option.isSome_map,
    hfound, entries_clear, Finset.mem_union, mem_indexFor m hdim, idsOf, List.mem_toFinset]
  by_cases hmem : id ∈ records.map VectorRecord.id <;> simp [hmem]

theorem upsertGroup_grown (hdim : a.dim = dim) (generation : ℤ) {records : List VectorRecord}
    (hbatch : Batch dim records) :
    (a.upsertGroup n generation records).1 = .ok () ∧
      Grown m a (a.upsertGroup n generation records).2
        fun g => if generation = g then idsOf records else ∅ := by
  obtain ⟨added, hadded, hheld⟩ := held_added m hdim generation hbatch
  have hrun : a.upsertGroup n generation records = (.ok (),
      { a with
        indices := a.indices.set generation (n.prepare added)
        ids := a.ids.set generation (a.listed generation ∪ idsOf records) }) := by
    unfold TurboVecArchiveAdapter.upsertGroup
    dsimp only
    rw [hadded]
    rfl
  rw [hrun]
  refine ⟨rfl, rfl, rfl, fun g hg => ?_, fun g => ?_, fun g => ?_⟩
  · rw [Table.contains_set, hg, Bool.or_true]
  · rw [m.heldIn_set rfl g, hheld]
    by_cases hg : generation = g
    · rw [if_pos hg, if_pos hg, hg]
    · rw [if_neg hg, if_neg hg, Finset.union_empty]
  · rw [listed_set rfl g]
    by_cases hg : generation = g
    · rw [if_pos hg, if_pos hg, hg]
    · rw [if_neg hg, if_neg hg, Finset.union_empty]

theorem upsertGroups_grown {groups : List (ℤ × List VectorRecord)}
    (hgroups : ∀ group ∈ groups, Batch dim group.2) (hnodup : (groups.map Prod.fst).Nodup)
    (hdim : a.dim = dim) :
    (TurboVecArchiveAdapter.upsertGroups n groups a).1 = .ok () ∧
      Grown m a (TurboVecArchiveAdapter.upsertGroups n groups a).2
        fun g => idsOf ((Table.lookupIn g groups).getD []) := by
  induction groups generalizing a with
  | nil =>
    have hnone : ∀ g, idsOf ((Table.lookupIn g ([] : List (ℤ × List VectorRecord))).getD []) = ∅ :=
      fun _ => rfl
    exact ⟨rfl, rfl, rfl, fun _ hg => hg, fun g => by rw [hnone, Finset.union_empty]; rfl,
      fun g => by rw [hnone, Finset.union_empty]; rfl⟩
  | cons group groups ih =>
    obtain ⟨generation, records⟩ := group
    rw [List.map_cons, List.nodup_cons] at hnodup
    obtain ⟨hok, hfirst⟩ := upsertGroup_grown m hdim generation (hgroups _ List.mem_cons_self)
    obtain ⟨a₁, hrun⟩ : ∃ a₁, a.upsertGroup n generation records = (.ok (), a₁) :=
      ⟨_, Prod.ext hok rfl⟩
    rw [hrun] at hfirst
    obtain ⟨hok', hrest⟩ := ih (a := a₁) (fun g hg => hgroups g (List.mem_cons_of_mem _ hg))
      hnodup.2 (hfirst.dim.trans hdim)
    have hstep : TurboVecArchiveAdapter.upsertGroups n ((generation, records) :: groups) a =
        TurboVecArchiveAdapter.upsertGroups n groups a₁ := by
      rw [TurboVecArchiveAdapter.upsertGroups, hrun]
    -- A generation has one group.
    have hadded : ∀ g, (if generation = g then idsOf records else ∅) ∪
        idsOf ((Table.lookupIn g groups).getD []) =
          idsOf ((Table.lookupIn g ((generation, records) :: groups)).getD []) := by
      intro g
      by_cases hg : generation = g
      · have hnone : Table.lookupIn g groups = none := by
          refine Option.not_isSome_iff_eq_none.mp fun hsome => hnodup.1 ?_
          exact hg ▸ (Table.lookupIn_isSome g groups).mp hsome
        simp [Table.lookupIn, hg, hnone, idsOf]
      · simp [Table.lookupIn, hg]
    rw [hstep]
    refine ⟨hok', hrest.dim.trans hfirst.dim, hrest.files.trans hfirst.files,
      fun g hg => hrest.indices g (hfirst.indices g hg), fun g => ?_, fun g => ?_⟩
    · rw [hrest.held, hfirst.held, Finset.union_assoc, hadded]
    · rw [hrest.listed, hfirst.listed, Finset.union_assoc, hadded]

theorem get?_byGen (records : List VectorRecord) (g : ℤ) :
    ((TurboVecArchiveAdapter.byGen records).get? g).getD [] =
      records.filter fun r => r.embeddingGeneration = g := by
  induction records using List.reverseRecOn with
  | nil => rfl
  | append_singleton records r ih =>
    have hstep : TurboVecArchiveAdapter.byGen (records ++ [r]) =
        (TurboVecArchiveAdapter.byGen records).set r.embeddingGeneration
          (((TurboVecArchiveAdapter.byGen records).get? r.embeddingGeneration).getD [] ++ [r]) := by
      simp [TurboVecArchiveAdapter.byGen]
    rw [hstep, Table.get?_set, List.filter_append]
    by_cases hg : r.embeddingGeneration = g
    · subst hg
      simp [ih]
    · simp [hg, ih]

/-- A batch: in each generation the ids are different, and all vectors are of the dimension. -/
def Wellformed (dim : ℕ) (records : List VectorRecord) : Prop :=
  ∀ g, Batch dim (records.filter fun r => r.embeddingGeneration = g)

theorem upsert_grown (hdim : a.dim = dim) {records : List VectorRecord}
    (hrecords : Wellformed dim records) :
    Grown m a (a.upsert n records).2
      fun g => idsOf (records.filter fun r => r.embeddingGeneration = g) := by
  have hvectors : ∀ r ∈ records, r.vector.length = a.dim := fun r hr =>
    ((hrecords r.embeddingGeneration).vectors r
      (List.mem_filter.mpr ⟨hr, decide_eq_true rfl⟩)).trans hdim.symm
  have hfind : (records.find? fun r => r.vector.length ≠ a.dim) = none := by
    refine List.find?_eq_none.mpr fun r hr => ?_
    simpa using hvectors r hr
  have hgroups : ∀ group ∈ (TurboVecArchiveAdapter.byGen records).entries, Batch dim group.2 := by
    rintro ⟨g, recs⟩ hgroup
    have hrecs := get?_byGen records g
    rw [Table.mem_entries.mp hgroup, Option.getD_some] at hrecs
    exact hrecs ▸ hrecords g
  obtain ⟨hok, hgrown⟩ := upsertGroups_grown m hgroups
    (TurboVecArchiveAdapter.byGen records).nodup_keys hdim
  have hrun : (a.upsert n records).2 = (TurboVecArchiveAdapter.upsertGroups n
      (TurboVecArchiveAdapter.byGen records).entries a).2 := by
    unfold TurboVecArchiveAdapter.upsert
    rw [hfind]
    dsimp only
    split <;> rename_i heq <;> rw [heq]
  have hadded : ∀ g, idsOf ((Table.lookupIn g
      (TurboVecArchiveAdapter.byGen records).entries).getD []) =
        idsOf (records.filter fun r => r.embeddingGeneration = g) := fun g =>
    congrArg idsOf (get?_byGen records g)
  rw [hrun]
  refine ⟨hgrown.dim, hgrown.files, hgrown.indices, fun g => ?_, fun g => ?_⟩
  · rw [hgrown.held, hadded]
  · rw [hgrown.listed, hadded]

theorem upsert_refused {records : List VectorRecord} (h : ∃ r ∈ records, r.vector.length ≠ a.dim) :
    (a.upsert n records).2 = a := by
  obtain ⟨r, hr, hlength⟩ := h
  unfold TurboVecArchiveAdapter.upsert
  cases hfind : records.find? fun r => r.vector.length ≠ a.dim with
  | none => exact absurd (List.find?_eq_none.mp hfind r hr) (by simpa using hlength)
  | some _ => rfl

theorem discard_ids (ids : List RecordId) (state : Bool × ι × Finset RecordId)
    (hlive : state.2.2 = m.held state.2.1) :
    let out := ids.foldl (TurboVecArchiveAdapter.discardHeld n) state
    out.2.2 = m.held out.2.1 ∧ m.held out.2.1 = m.held state.2.1 \ ids.toFinset := by
  induction ids generalizing state with
  | nil => exact ⟨hlive, by simp⟩
  | cons id ids ih =>
    have hheld : (TurboVecArchiveAdapter.discardHeld n state id).2.2 =
        m.held (TurboVecArchiveAdapter.discardHeld n state id).2.1 ∧
          m.held (TurboVecArchiveAdapter.discardHeld n state id).2.1 =
            (m.held state.2.1).erase id := by
      unfold TurboVecArchiveAdapter.discardHeld
      rw [m.contains]
      by_cases hid : (m.entries state.2.1 id).isSome = true
      · have herase : m.held (n.remove state.2.1 id) = (m.held state.2.1).erase id := by
          ext other
          rw [m.mem_held, m.remove, Finset.mem_erase, m.mem_held]
          by_cases hother : other = id <;> simp [hother]
        rw [if_pos hid]
        exact ⟨by rw [hlive, herase], herase⟩
      · have habsent : id ∉ m.held state.2.1 := fun h => hid ((m.mem_held _ _).mp h)
        rw [if_neg hid]
        exact ⟨hlive, (Finset.erase_eq_of_notMem habsent).symm⟩
    obtain ⟨hout, hrest⟩ := ih _ hheld.1
    refine ⟨hout, hrest.trans ?_⟩
    ext other
    simp only [hheld.2, List.toFinset_cons, Finset.mem_sdiff, Finset.mem_erase, Finset.mem_insert,
      not_or, List.mem_toFinset]
    tauto

structure Shrunk (a a' : TurboVecArchiveAdapter ι φ) (p : ℤ → Prop) (ids : List RecordId) :
    Prop where
  dim : a'.dim = a.dim
  files : a'.files = a.files
  indices : ∀ g, a'.indices.contains g = a.indices.contains g
  bookkeeping : Bookkeeping m a'
  lost : ∀ g, p g → m.heldIn a' g = m.heldIn a g \ ids.toFinset
  kept : ∀ g, ¬ p g → m.heldIn a' g = m.heldIn a g

theorem removeFrom_shrunk (hbook : Bookkeeping m a) (ids : List RecordId) (generation : ℤ) :
    Shrunk m a (TurboVecArchiveAdapter.removeFrom n ids a generation) (· = generation) ids := by
  cases hget : a.indices.get? generation with
  | none =>
    have hrun : TurboVecArchiveAdapter.removeFrom n ids a generation = a := by
      unfold TurboVecArchiveAdapter.removeFrom
      rw [hget]
    rw [hrun]
    refine ⟨rfl, rfl, fun _ => rfl, hbook, fun g hg => ?_, fun _ _ => rfl⟩
    rw [hg, m.heldIn_none hget, Finset.empty_sdiff]
  | some idx =>
    have hlive : a.listed generation = m.held idx := (hbook generation).trans (m.heldIn_some hget)
    obtain ⟨hout, hheld⟩ := discard_ids m ids (false, idx, a.listed generation) hlive
    obtain ⟨⟨removed, idx', live⟩, hfold⟩ : ∃ out, ids.foldl
        (TurboVecArchiveAdapter.discardHeld n) (false, idx, a.listed generation) = out := ⟨_, rfl⟩
    rw [hfold] at hout hheld
    have hrun : TurboVecArchiveAdapter.removeFrom n ids a generation = { a with
        indices := a.indices.set generation (if removed then n.prepare idx' else idx')
        ids := a.ids.modify generation fun _ => live } := by
      unfold TurboVecArchiveAdapter.removeFrom
      rw [hget]
      dsimp only
      rw [hfold]
    rw [hrun]
    have hprepared : m.held (if removed then n.prepare idx' else idx') = m.held idx' := by
      cases removed
      · rfl
      · exact held_congr m fun id => m.prepare idx' id
    have hlost : ∀ g, m.heldIn { a with
        indices := a.indices.set generation (if removed then n.prepare idx' else idx')
        ids := a.ids.modify generation fun _ => live } g =
          if generation = g then m.heldIn a generation \ ids.toFinset else m.heldIn a g := by
      intro g
      rw [m.heldIn_set rfl g, hprepared, m.heldIn_some hget]
      exact if_congr Iff.rfl hheld rfl
    refine ⟨rfl, rfl, fun g => ?_, fun g => ?_, fun g hg => ?_, fun g hg => ?_⟩
    · rw [Table.contains_set]
      by_cases hg : generation = g
      · rw [← hg, Table.contains_of_get? hget, Bool.or_true]
      · simp [hg]
    · rw [hlost, TurboVecArchiveAdapter.listed, Table.get?_modify]
      by_cases hg : generation = g
      · subst hg
        rw [if_pos rfl, if_pos rfl]
        cases hids : a.ids.get? generation with
        | none =>
          have hempty : m.heldIn a generation = ∅ := by
            rw [← hbook, TurboVecArchiveAdapter.listed, hids]
            rfl
          rw [hempty, Finset.empty_sdiff]
          rfl
        | some _ =>
          rw [Option.map_some, Option.getD_some, m.heldIn_some hget]
          exact hout.trans hheld
      · rw [if_neg hg, if_neg hg]
        exact hbook g
    · rw [hlost, if_pos hg.symm, hg]
    · rw [hlost, if_neg fun h => hg h.symm]

theorem removeAll_shrunk (hbook : Bookkeeping m a) (ids : List RecordId) (gens : List ℤ) :
    Shrunk m a (gens.foldl (TurboVecArchiveAdapter.removeFrom n ids) a) (· ∈ gens) ids := by
  induction gens generalizing a with
  | nil => exact ⟨rfl, rfl, fun _ => rfl, hbook, fun _ hg => absurd hg List.not_mem_nil, fun _ _ => rfl⟩
  | cons g gens ih =>
    have hfirst := removeFrom_shrunk m hbook ids g
    have hrest := ih hfirst.bookkeeping
    have hone : ∀ g', m.heldIn (TurboVecArchiveAdapter.removeFrom n ids a g) g' \ ids.toFinset =
        m.heldIn a g' \ ids.toFinset := by
      intro g'
      by_cases hg : g' = g
      · rw [hfirst.lost g' hg, sdiff_idem]
      · rw [hfirst.kept g' hg]
    rw [List.foldl_cons]
    refine ⟨hrest.dim.trans hfirst.dim, hrest.files.trans hfirst.files,
      fun g' => (hrest.indices g').trans (hfirst.indices g'), hrest.bookkeeping,
      fun g' hg => ?_, fun g' hg => ?_⟩
    · by_cases hmem : g' ∈ gens
      · rw [hrest.lost g' hmem, hone]
      · have hhead : g' = g := (List.mem_cons.mp hg).resolve_right hmem
        rw [hrest.kept g' hmem, hfirst.lost g' hhead]
    · rw [List.mem_cons, not_or] at hg
      rw [hrest.kept g' hg.2, hfirst.kept g' hg.1]

theorem remove_shrunk (hbook : Bookkeeping m a) (ids : List RecordId) :
    Shrunk m a (a.remove n ids).2 (fun _ => True) ids := by
  have hall := removeAll_shrunk m hbook ids a.indices.keys
  refine ⟨hall.dim, hall.files, hall.indices, hall.bookkeeping, fun g _ => ?_,
    fun _ hg => absurd trivial hg⟩
  by_cases hg : g ∈ a.indices.keys
  · exact hall.lost g hg
  · have hnone : a.indices.get? g = none :=
      Option.not_isSome_iff_eq_none.mp fun hsome => hg ((Table.lookupIn_isSome _ _).mp hsome)
    have hempty := m.heldIn_none hnone
    exact (hall.kept g hg).trans (by rw [hempty, Finset.empty_sdiff])

theorem heldIn_purge (generation g : ℤ) :
    m.heldIn (a.purgeGeneration generation) g = if g = generation then ∅ else m.heldIn a g := by
  unfold IsMap.heldIn TurboVecArchiveAdapter.purgeGeneration
  rw [Table.get?_erase]
  split_ifs <;> rfl

theorem listed_purge (generation g : ℤ) :
    (a.purgeGeneration generation).listed g = if g = generation then ∅ else a.listed g := by
  unfold TurboVecArchiveAdapter.listed TurboVecArchiveAdapter.purgeGeneration
  rw [Table.get?_erase]
  split_ifs <;> rfl

theorem search_length (hbook : Bookkeeping m a) (hdim : a.dim = dim) {vector : List ℚ}
    (hvector : vector.length = dim) (topK : ℕ) (g : ℤ) :
    (a.search n vector topK (some g)).length = min topK (m.heldIn a g).card := by
  have hsearch : a.search n vector topK (some g) =
      (sortByDesc VectorHit.score (a.hitsIn n vector topK g)).take topK := by
    unfold TurboVecArchiveAdapter.search
    rw [if_neg (by simp [hvector, hdim])]
    simp
  have hlength : (a.hitsIn n vector topK g).length = min topK (m.heldIn a g).card := by
    unfold TurboVecArchiveAdapter.hitsIn
    cases hget : a.indices.get? g with
    | none => simp [m.heldIn_none hget]
    | some idx =>
      rw [hbook g, m.heldIn_some hget]
      dsimp only
      split_ifs with hempty
      · simp [hempty]
      · rw [List.length_map, (m.search idx vector _ hvector).length]
        omega
  rw [hsearch, List.length_take, sortByDesc, List.length_insertionSort, hlength]
  omega

theorem mem_search {vector : List ℚ} {topK : ℕ} {g : ℤ} {hit : VectorHit}
    (h : hit ∈ a.search n vector topK (some g)) : hit ∈ a.hitsIn n vector topK g := by
  unfold TurboVecArchiveAdapter.search at h
  split_ifs at h
  · cases h
  · simpa [mem_sortByDesc] using List.mem_of_mem_take h

theorem hitsIn_held {vector : List ℚ} {topK : ℕ} {g : ℤ} {hit : VectorHit}
    (hvector : vector.length = dim) (h : hit ∈ a.hitsIn n vector topK g) :
    hit.id ∈ m.heldIn a g ∧ hit.contentHash = "" ∧ hit.embeddingGeneration = g := by
  unfold TurboVecArchiveAdapter.hitsIn at h
  cases hget : a.indices.get? g with
  | none =>
    rw [hget] at h
    cases h
  | some idx =>
    rw [hget] at h
    dsimp only at h
    split_ifs at h
    · cases h
    · obtain ⟨found, hfound, rfl⟩ := List.mem_map.mp h
      obtain ⟨v, hv, _⟩ := (m.search idx vector _ hvector).scored found hfound
      refine ⟨?_, rfl, rfl⟩
      rw [m.heldIn_some hget, m.mem_held, hv]
      rfl

/-- A search for as many as there are returns every id held. -/
theorem held_searchable (hbook : Bookkeeping m a) (hdim : a.dim = dim) {vector : List ℚ}
    (hvector : vector.length = dim) {g : ℤ} {id : RecordId} (hid : id ∈ m.heldIn a g) :
    ∃ hit ∈ a.search n vector (m.heldIn a g).card (some g), hit.id = id := by
  cases hget : a.indices.get? g with
  | none =>
    rw [m.heldIn_none hget] at hid
    exact absurd hid (Finset.notMem_empty id)
  | some idx =>
    rw [m.heldIn_some hget] at hid ⊢
    have hcard : (m.held idx).card ≠ 0 := Finset.card_ne_zero_of_mem hid
    have hbest := m.search idx vector (m.held idx).card hvector
    -- As many different ids as are held, and all of them held.
    have hids : ((n.search idx vector (m.held idx).card).map Prod.snd).toFinset = m.held idx := by
      refine Finset.eq_of_subset_of_card_le (fun other hother => ?_) ?_
      · obtain ⟨found, hfound, rfl⟩ := List.mem_map.mp (List.mem_toFinset.mp hother)
        obtain ⟨v, hv, _⟩ := hbest.scored found hfound
        rw [m.mem_held, hv]
        rfl
      · rw [List.toFinset_card_of_nodup hbest.nodup, List.length_map, hbest.length, min_self]
    obtain ⟨found, hfound, hsame⟩ :=
      List.mem_map.mp (List.mem_toFinset.mp (hids.symm ▸ hid : id ∈ _))
    have hhits : a.hitsIn n vector (m.held idx).card g =
        (n.search idx vector (m.held idx).card).map fun x => ⟨x.2, x.1, "", g⟩ := by
      unfold TurboVecArchiveAdapter.hitsIn
      rw [hget, hbook g, m.heldIn_some hget]
      simp [hcard]
    have hlength : (sortByDesc VectorHit.score (a.hitsIn n vector (m.held idx).card g)).length ≤
        (m.held idx).card := by
      rw [sortByDesc, List.length_insertionSort, hhits, List.length_map, hbest.length, min_self]
    refine ⟨⟨found.2, found.1, "", g⟩, ?_, hsame⟩
    unfold TurboVecArchiveAdapter.search
    rw [if_neg (by simp [hvector, hdim])]
    simp only [List.flatMap_singleton]
    rw [List.take_of_length_le hlength, mem_sortByDesc, hhits]
    exact List.mem_map_of_mem hfound

theorem contains_iff_held {id : RecordId} :
    a.contains n id = true ↔ ∃ g, id ∈ m.heldIn a g := by
  unfold TurboVecArchiveAdapter.contains
  rw [List.any_eq_true]
  constructor
  · rintro ⟨idx, hidx, hid⟩
    obtain ⟨⟨g, _⟩, hentry, rfl⟩ := List.mem_map.mp hidx
    refine ⟨g, ?_⟩
    rw [m.heldIn_some (Table.mem_entries.mp hentry), m.mem_held, ← m.contains]
    exact hid
  · rintro ⟨g, hid⟩
    cases hget : a.indices.get? g with
    | none =>
      rw [m.heldIn_none hget] at hid
      exact absurd hid (Finset.notMem_empty id)
    | some idx =>
      rw [m.heldIn_some hget, m.mem_held, ← m.contains] at hid
      exact ⟨idx, List.mem_map.mpr ⟨(g, idx), Table.mem_entries.mpr hget, rfl⟩, hid⟩

end Held
end StrataMemory.TurboVecAdapter
