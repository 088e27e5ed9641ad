import StrataMemory.Histories
import StrataMemory.TurboVecAdapter

set_option autoImplicit false

namespace StrataMemory.ArchiveHistories
open KeyedTables Records Tables VectorStore StoreRefinement Histories TurboVecAdapter

variable {ι φ : Type}

inductive ArchiveStep where
  | upsert (records : List VectorRecord)
  | remove (ids : List RecordId)
  | purgeGeneration (generation : ℤ)
  | persistReopen

def afterStep (n : Native ι φ) (a : TurboVecArchiveAdapter ι φ) :
    ArchiveStep → TurboVecArchiveAdapter ι φ
  | .upsert records => (a.upsert n records).2
  | .remove ids => (a.remove n ids).2
  | .purgeGeneration generation => a.purgeGeneration generation
  | .persistReopen => a.persistReopen n

/-- In each generation the batch names an id at most once. -/
def DistinctIds (records : List VectorRecord) : Prop :=
  ∀ g, ((records.filter fun r => r.embeddingGeneration = g).map VectorRecord.id).Nodup

section Runs
variable {n : Native ι φ} {dim : ℕ} (m : IsMap n dim) {a : TurboVecArchiveAdapter ι φ}

/-- A search of a generation returns as many hits as are asked for and there are. -/
def FullSearch (a : TurboVecArchiveAdapter ι φ) : Prop :=
  ∀ vector topK g, vector.length = dim →
    (a.search n vector topK (some g)).length = min topK (m.heldIn a g).card

/-- After the step the side sets are right and searches are full; and a reopened archive
finds what it found before. -/
def SearchKept (a : TurboVecArchiveAdapter ι φ) (c : ArchiveStep) : Prop :=
  Bookkeeping m (afterStep n a c) ∧ FullSearch m (afterStep n a c) ∧
    (c = .persistReopen → ∀ vector topK g, vector.length = dim →
      (afterStep n a c).search n vector topK (some g) = a.search n vector topK (some g))

def ReopensEmpty (a : TurboVecArchiveAdapter ι φ) : ArchiveStep → Prop
  | .persistReopen => ∀ g, m.heldIn a g = ∅
  | _ => True

structure Sound (a : TurboVecArchiveAdapter ι φ) : Prop where
  dim : a.dim = dim
  book : Bookkeeping m a
  files : ∀ g, a.files.contains g = true → a.indices.contains g = true

theorem Sound.fullSearch (h : Sound m a) : FullSearch m a := fun _ topK g hvector =>
  search_length m h.book h.dim hvector topK g

theorem Sound.upsert (h : Sound m a) {records : List VectorRecord} (hids : DistinctIds records) :
    Sound m (a.upsert n records).2 := by
  by_cases hvectors : ∃ r ∈ records, r.vector.length ≠ a.dim
  · rw [upsert_refused hvectors]
    exact h
  · have hlength : ∀ r ∈ records, r.vector.length = dim := fun r hr =>
      (not_not.mp fun hne => hvectors ⟨r, hr, hne⟩).trans h.dim
    have hgrown := upsert_grown m h.dim fun g =>
      ⟨hids g, fun r hr => hlength r (List.mem_filter.mp hr).1⟩
    refine ⟨hgrown.dim.trans h.dim, fun g => ?_, fun g hg => ?_⟩
    · rw [hgrown.held, hgrown.listed, h.book]
    · exact hgrown.indices g (h.files g (hgrown.files ▸ hg))

theorem Sound.remove (h : Sound m a) (ids : List RecordId) : Sound m (a.remove n ids).2 := by
  have hshrunk := remove_shrunk m h.book ids
  refine ⟨hshrunk.dim.trans h.dim, hshrunk.bookkeeping, fun g hg => ?_⟩
  rw [hshrunk.indices]
  exact h.files g (hshrunk.files ▸ hg)

theorem Sound.purgeGeneration (h : Sound m a) (generation : ℤ) :
    Sound m (a.purgeGeneration generation) := by
  refine ⟨h.dim, fun g => ?_, fun g hg => ?_⟩
  · rw [heldIn_purge, listed_purge, h.book]
  · change (a.files.erase generation).contains g = true at hg
    change (a.indices.erase generation).contains g = true
    rw [Table.contains_erase, Bool.and_eq_true] at hg ⊢
    exact ⟨hg.1, h.files g hg.2⟩

theorem get?_create (m : IsMap n dim) (files : Table ℤ φ) (g : ℤ) :
    (TurboVecArchiveAdapter.create n dim files).indices.get? g = (files.get? g).map n.load := by
  have hlisted := m.listdir files
  have hnodup : ((n.listdir files).map Prod.fst).Nodup :=
    (hlisted.map Prod.fst).nodup_iff.mpr files.nodup_keys
  refine (Table.get?_foldl_set n.load hnodup ∅ g).trans ?_
  rw [Table.lookupIn_perm files hlisted, Table.get?_empty, Option.or_none]

theorem listed_create (m : IsMap n dim) (files : Table ℤ φ) (g : ℤ) :
    (TurboVecArchiveAdapter.create n dim files).listed g = ∅ := by
  have hlisted := m.listdir files
  have hnodup : ((n.listdir files).map Prod.fst).Nodup :=
    (hlisted.map Prod.fst).nodup_iff.mpr files.nodup_keys
  have hget : (TurboVecArchiveAdapter.create n dim files).ids.get? g = _ :=
    Table.get?_foldl_set (fun _ : φ => (∅ : Finset RecordId)) hnodup ∅ g
  rw [TurboVecArchiveAdapter.listed, hget, Table.get?_empty, Option.or_none]
  cases Table.lookupIn g (n.listdir files) <;> rfl

theorem get?_persist (hfiles : ∀ g, a.files.contains g = true → a.indices.contains g = true)
    (g : ℤ) : (a.persist n).files.get? g = (a.indices.get? g).map n.write := by
  have hpersist : (a.persist n).files.get? g =
      ((a.indices.get? g).map n.write).or (a.files.get? g) :=
    Table.get?_foldl_set n.write a.indices.nodup_keys a.files g
  rw [hpersist]
  cases hget : a.indices.get? g with
  | some _ => rfl
  | none =>
    have hnone : a.files.contains g = false := Bool.eq_false_iff.mpr fun hg => by
      have hindex := hfiles g hg
      rw [Table.get?_eq_none.mp hget] at hindex
      exact absurd hindex Bool.false_ne_true
    exact Table.get?_eq_none.mpr hnone

theorem heldIn_persistReopen (h : Sound m a) (g : ℤ) :
    m.heldIn (a.persistReopen n) g = m.heldIn a g := by
  have hget : (a.persistReopen n).indices.get? g =
      ((a.indices.get? g).map n.write).map n.load := by
    unfold TurboVecArchiveAdapter.persistReopen
    rw [h.dim, get?_create m, get?_persist h.files]
  cases hindex : a.indices.get? g with
  | none =>
    rw [hindex] at hget
    rw [m.heldIn_none hindex, m.heldIn_none hget]
  | some idx =>
    rw [hindex] at hget
    rw [m.heldIn_some hindex, m.heldIn_some hget]
    exact held_congr m fun id => m.load_write idx id

theorem listed_persistReopen (h : Sound m a) (g : ℤ) : (a.persistReopen n).listed g = ∅ := by
  unfold TurboVecArchiveAdapter.persistReopen
  rw [h.dim]
  exact listed_create m _ g

theorem Sound.persistReopen (h : Sound m a) (hempty : ∀ g, m.heldIn a g = ∅) :
    Sound m (a.persistReopen n) := by
  refine ⟨h.dim, fun g => ?_, fun g hg => ?_⟩
  · rw [listed_persistReopen m h, heldIn_persistReopen m h, hempty]
  · unfold Table.contains at hg ⊢
    unfold TurboVecArchiveAdapter.persistReopen at hg ⊢
    rw [h.dim, get?_create m, Option.isSome_map]
    exact hg

theorem Sound.step (h : Sound m a) {c : ArchiveStep}
    (hids : ∀ records, c = .upsert records → DistinctIds records) (hc : ReopensEmpty m a c) :
    Sound m (afterStep n a c) := by
  cases c with
  | upsert records => exact h.upsert m (hids records rfl)
  | remove ids => exact h.remove m ids
  | purgeGeneration generation => exact h.purgeGeneration m generation
  | persistReopen => exact h.persistReopen m hc

/-- A step keeps the searches unless it reopens an archive that holds something. -/
theorem searchKept_iff (h : Sound m a) {c : ArchiveStep}
    (hids : ∀ records, c = .upsert records → DistinctIds records) :
    SearchKept m a c ↔ ReopensEmpty m a c := by
  constructor
  · intro hkept
    cases c with
    | persistReopen =>
      intro g
      have hbook := hkept.1 g
      change (a.persistReopen n).listed g = m.heldIn (a.persistReopen n) g at hbook
      rw [listed_persistReopen m h, heldIn_persistReopen m h] at hbook
      exact hbook.symm
    | _ => trivial
  · intro hc
    have hafter := h.step m hids hc
    refine ⟨hafter.book, hafter.fullSearch, ?_⟩
    rintro rfl vector topK g hvector
    -- Nothing is held, before or after.
    have hbefore := h.fullSearch m vector topK g hvector
    have hsearch := hafter.fullSearch m vector topK g hvector
    have hheld : m.heldIn (afterStep n a .persistReopen) g = ∅ :=
      (heldIn_persistReopen m h g).trans (hc g)
    rw [hc g, Finset.card_empty, Nat.min_zero] at hbefore
    rw [hheld, Finset.card_empty, Nat.min_zero] at hsearch
    rw [List.length_eq_zero_iff.mp hbefore, List.length_eq_zero_iff.mp hsearch]

theorem sound_create : Sound m (TurboVecArchiveAdapter.create n dim ∅) where
  dim := rfl
  book g := by
    have hnone : (TurboVecArchiveAdapter.create n dim ∅).indices.get? g = none :=
      get?_create m ∅ g
    rw [listed_create m, m.heldIn_none hnone]
  files _ hg := absurd hg Bool.false_ne_true

end Runs

def dot (q v : List ℚ) : ℚ := (List.zipWith (· * ·) q v).sum

/-- The table's vectors by id, written as it is; ids that are present or repeated raise. -/
def tableIndex : Native (Table RecordId (List ℚ)) (Table RecordId (List ℚ)) where
  create _ := ∅
  contains := Table.contains
  remove := Table.erase
  addWithIds idx new :=
    if (new.map Prod.fst).Nodup ∧ ∀ e ∈ new, idx.contains e.1 = false then
      (.ok (), new.foldl (fun t e => t.set e.1 e.2) idx)
    else (.error "id already present", idx)
  prepare idx := idx
  search idx q k := (sortByDesc Prod.fst (idx.entries.map fun e => (dot q e.2, e.1))).take k
  write idx := idx
  load idx := idx
  listdir := Table.entries

theorem lookupIn_eq_find? {α : Type} (id : RecordId) (es : List (RecordId × α)) :
    Table.lookupIn id es = (es.find? fun e => e.1 = id).map Prod.snd := by
  induction es with
  | nil => rfl
  | cons e es ih => by_cases he : e.1 = id <;> simp [Table.lookupIn, he, ih]

theorem best_search (idx : Table RecordId (List ℚ)) (q : List ℚ) (k : ℕ) :
    Best (dot q) idx.get? idx.keys.toFinset k (tableIndex.search idx q k) := by
  let scored := idx.entries.map fun e => (dot q e.2, e.1)
  let sorted := sortByDesc Prod.fst scored
  have hperm : sorted.Perm scored := sortByDesc_perm _ _
  have hids : scored.map Prod.snd = idx.keys := by simp [scored, Table.keys, Function.comp_def]
  have hnodup : (sorted.map Prod.snd).Nodup :=
    (hperm.map Prod.snd).nodup_iff.mpr (hids ▸ idx.nodup_keys)
  have hentry : ∀ x ∈ scored, ∃ v, idx.get? x.2 = some v ∧ x.1 = dot q v := by
    intro x hx
    obtain ⟨⟨id, v⟩, he, rfl⟩ := List.mem_map.mp hx
    exact ⟨v, Table.mem_entries.mp he, rfl⟩
  refine ⟨?_, ?_, fun x hx => ?_, fun id v hv hid x hx => ?_⟩
  · change (sorted.take k).length = _
    have hcard : idx.keys.toFinset.card = scored.length := by
      have hkeys : idx.keys.Nodup := idx.nodup_keys
      rw [List.toFinset_card_of_nodup hkeys, ← hids, List.length_map]
    rw [List.length_take, hperm.length_eq, hcard]
  · exact hnodup.sublist ((List.take_sublist k sorted).map _)
  · exact hentry x (hperm.mem_iff.mp (List.mem_of_mem_take hx))
  · -- What is not taken stands after all that is.
    have hpair : (dot q v, id) ∈ sorted :=
      hperm.mem_iff.mpr (List.mem_map.mpr ⟨(id, v), Table.mem_entries.mpr hv, rfl⟩)
    have hdropped : (dot q v, id) ∈ sorted.drop k := by
      rw [← List.take_append_drop k sorted] at hpair
      exact (List.mem_append.mp hpair).resolve_left fun h => hid (List.mem_map_of_mem h)
    have hsorted : sorted.Pairwise fun a b => b.1 ≤ a.1 := by
      exact sortByDesc_pairwise _ _
    rw [← List.take_append_drop k sorted, List.pairwise_append] at hsorted
    exact hsorted.2.2 x hx _ hdropped

def tableIndex_isMap (dim : ℕ) : IsMap tableIndex dim where
  entries := Table.get?
  held idx := idx.keys.toFinset
  quantize v := v
  score := dot
  mem_held idx id := by
    rw [List.mem_toFinset]
    exact (Table.lookupIn_isSome id idx.entries).symm
  contains _ _ := rfl
  create _ := rfl
  remove idx id other := Table.get?_erase idx id other
  add idx new hnew hnodup _ := by
    have habsent : ∀ e ∈ new, idx.contains e.1 = false := fun e he =>
      Table.get?_eq_none.mp (hnew e he)
    have hrun : tableIndex.addWithIds idx new =
        (.ok (), new.foldl (fun t e => t.set e.1 e.2) idx) := if_pos ⟨hnodup, habsent⟩
    refine ⟨by rw [hrun], fun id => ?_⟩
    rw [hrun]
    have hget := Table.get?_foldl_set (fun v : List ℚ => v) hnodup idx id
    rw [lookupIn_eq_find?, Option.map_map] at hget
    exact hget
  prepare _ _ := rfl
  search idx q k _ := best_search idx q k
  load_write _ _ := rfl
  listdir _ := List.Perm.refl _

/-- After every step of a run the side sets are right, searches are full and reopening has
changed no search, if and only if the archive is never reopened while it holds something. -/
theorem archive_search_kept_iff {n : Native ι φ} {dim : ℕ} (m : IsMap n dim)
    {steps : List ArchiveStep}
    (hids : ∀ records, .upsert records ∈ steps → DistinctIds records) :
    Along (afterStep n) (SearchKept m) (TurboVecArchiveAdapter.create n dim ∅) steps ↔
      Along (afterStep n) (ReopensEmpty m) (TurboVecArchiveAdapter.create n dim ∅) steps :=
  along_iff
    (fun _ _ hc ha => searchKept_iff m ha fun records hr => hids records (hr ▸ hc))
    (fun _ _ hc ha hreopens => Sound.step m ha (fun records hr => hids records (hr ▸ hc)) hreopens)
    (sound_create m)

def archived (id : RecordId) : VectorRecord := ⟨id, [1], "tea", "length", 1, []⟩

theorem distinctIds_singleton (rec : VectorRecord) : DistinctIds [rec] := by
  intro g
  by_cases hg : rec.embeddingGeneration = g <;> simp [hg]

theorem archive_search_kept_emptied :
    Along (afterStep tableIndex) (SearchKept (tableIndex_isMap 1))
      (TurboVecArchiveAdapter.create tableIndex 1 ∅)
      [.upsert [archived 7], .remove [7], .persistReopen, .upsert [archived 8]] := by
  refine (archive_search_kept_iff (tableIndex_isMap 1) fun records hrecords => ?_).mpr
    ⟨trivial, trivial, fun g => ?_, trivial, trivial⟩
  · have hone : records = [archived 7] ∨ records = [archived 8] := by simpa using hrecords
    rcases hone with rfl | rfl <;> exact distinctIds_singleton _
  · by_cases hg : g = 1
    · subst hg
      decide
    · have hnone : Table.lookupIn g [((1 : ℤ), (∅ : Table RecordId (List ℚ)))] = none := by
        simp [Table.lookupIn, Ne.symm hg]
      exact IsMap.heldIn_none _ hnone

/-- After reopening, the archive contains the id and does not find it. -/
theorem reopened_archive_finds_nothing :
    let a := afterStep tableIndex (TurboVecArchiveAdapter.create tableIndex 1 ∅)
      (.upsert [archived 7])
    let reopened := afterStep tableIndex a .persistReopen
    (a.search tableIndex [1] 5 (some 1)).map VectorHit.id = [7] ∧
      reopened.contains tableIndex 7 = true ∧ reopened.search tableIndex [1] 5 (some 1) = [] ∧
      ¬ Along (afterStep tableIndex) (SearchKept (tableIndex_isMap 1))
        (TurboVecArchiveAdapter.create tableIndex 1 ∅) [.upsert [archived 7], .persistReopen] := by
  refine ⟨by decide, by decide, by decide, fun h => ?_⟩
  have hsame := congrArg List.length (h.2.1.2.2 rfl [1] 5 1 rfl)
  exact absurd hsame (by decide)

end StrataMemory.ArchiveHistories
