import StrataMemory.CommitEffects
import Mathlib.Data.List.Dedup

set_option autoImplicit false

namespace StrataMemory.CanonicalStore
open KeyedTables Records Tables Procedures Worlds CommitEffects

variable {V : Type}

/-- `MemoryRecord.create`: the times default to the clock and a missing id is allocated. -/
def create (p : Platform) (content : String) (fields : Fields) : Prog V MemoryRecord := do
  let createdAt ← match fields.createdAt with
    | some t => pure t
    | none => nowMs
  let updatedAt ← match fields.updatedAt with
    | some t => pure t
    | none => nowMs
  let id ← match fields.id with
    | some id => pure id
    | none => newRecordId
  return {
    id := id
    content := content
    recordType := fields.recordType
    tier := fields.tier
    status := fields.status
    recordSubtype := fields.recordSubtype
    confidence := fields.confidence
    confidenceReason := fields.confidenceReason
    salience := fields.salience
    sensitivity := fields.sensitivity
    contentHash := p.contentHash content
    embeddingModelId := fields.embeddingModelId
    embeddingGeneration := fields.embeddingGeneration
    validFrom := fields.validFrom
    validUntil := fields.validUntil
    createdAt := createdAt
    updatedAt := updatedAt
    currentVersionId := fields.currentVersionId
    modelSide := fields.modelSide }

def withContent (p : Platform) (record : MemoryRecord) (content : String) :
    Prog V MemoryRecord := do
  let now ← nowMs
  return { record with
    content := content, contentHash := p.contentHash content, updatedAt := now }

def readOne (id : RecordId) : Prog V (Option MemoryRecord) := query fun db => db.readOne id

def isTombstoned (id : RecordId) : Prog V Bool := query fun db => db.isTombstoned id

def write (record : MemoryRecord) : Prog V MemoryRecord := do
  commit (.write record)
  let row ← readOne record.id
  return row.getD record

theorem write_run (r : MemoryRecord) (w : World V) :
    ∃ written, (write r : Prog V MemoryRecord).run w = (.ok written, apply (.write r) w) ∧
      (apply (.write r) w).db.readOne written.id = some written ∧ written.id = r.id := by
  obtain ⟨row, hrow, _⟩ := readOne_write_self w r
  have hid : row.id = r.id := Db.readOne_id hrow
  refine ⟨row, ?_, hid ▸ hrow, hid⟩
  change (Except.ok (((apply (.write r) w).db.readOne r.id).getD r), apply (.write r) w) = _
  rw [hrow]
  rfl

/-- A missing endpoint violates a foreign key, which `OR IGNORE` does not ignore. -/
def addDependency (parentId childId : RecordId) (rel : Relation) : Prog V Unit :=
  .step (.addDependency parentId childId rel) fun w =>
    if w.db.canonical.edgeAllowed parentId childId then .done () else raise .integrityError

theorem addDependency_run (parentId childId : RecordId) (rel : Relation) (w : World V) :
    (addDependency parentId childId rel).run w =
      (if w.db.canonical.edgeAllowed parentId childId then .ok () else .error .integrityError,
        apply (.addDependency parentId childId rel) w) := by
  change (if w.db.canonical.edgeAllowed parentId childId then (.done () : Prog V Unit)
    else raise .integrityError).run _ = _
  split <;> rfl

theorem preserves_addDependency {I : World V → Prop} {parentId childId : RecordId} {rel : Relation}
    (h : ∀ w, I w → I (apply (.addDependency parentId childId rel) w)) :
    (addDependency parentId childId rel).Preserves I := by
  intro w hw
  rw [Proc.final_of_run (addDependency_run parentId childId rel w)]
  exact h w hw

def setStatus (id : RecordId) (status : Status) : Prog V Unit := commit (.setStatus id status)

def supersede (oldId : RecordId) (record : MemoryRecord) : Prog V MemoryRecord := do
  let written ← write record
  setStatus oldId .superseded
  addDependency written.id oldId .supersedes
  return written

def readIds (db : Db) (ids : List RecordId) : List MemoryRecord := ids.filterMap db.readOne

def scan (db : Db) : List MemoryRecord :=
  sortBy MemoryRecord.id db.canonical.records.values

structure Query where
  status : Option Status := none
  tier : Option Tier := none
  recordType : Option RecordType := none
  sensitivity : Option Sensitivity := none
  excludeTombstoned : Bool := true

def Query.selects (q : Query) (db : Db) (r : MemoryRecord) : Bool :=
  q.status.all (· = r.status) && q.tier.all (· = r.tier) &&
    q.recordType.all (· = r.recordType) && q.sensitivity.all (· = r.sensitivity) &&
    !(q.excludeTombstoned && db.isTombstoned r.id)

/-- `query`, latest update first. -/
def select (db : Db) (q : Query) : List MemoryRecord :=
  sortByDesc MemoryRecord.updatedAt ((scan db).filter (q.selects db))

theorem mem_scan {db : Db} {r : MemoryRecord} : r ∈ scan db ↔ db.readOne r.id = some r := by
  unfold scan
  rw [mem_sortBy]
  constructor
  · intro h
    obtain ⟨⟨id, r⟩, hentry, rfl⟩ := List.mem_map.mp h
    have hrow := Table.mem_entries.mp hentry
    rwa [← db.canonical.record_id id r hrow] at hrow
  · exact fun h => List.mem_map.mpr ⟨(r.id, r), Table.mem_entries.mpr h, rfl⟩

theorem mem_select {db : Db} {q : Query} {r : MemoryRecord} :
    r ∈ select db q ↔ db.readOne r.id = some r ∧ q.selects db r = true := by
  unfold select
  rw [mem_sortByDesc, List.mem_filter, mem_scan]

theorem select_nodup (db : Db) (q : Query) : ((select db q).map MemoryRecord.id).Nodup := by
  have hkeys : db.canonical.records.values.map MemoryRecord.id = db.canonical.records.keys := by
    unfold Table.values Table.keys
    rw [List.map_map]
    refine List.map_congr_left fun e he => ?_
    exact db.canonical.record_id e.1 e.2 (Table.mem_entries.mp he)
  have hscan : ((scan db).map MemoryRecord.id).Nodup := by
    refine (((List.perm_insertionSort _ _).map _).nodup_iff).mpr ?_
    rw [hkeys]
    exact db.canonical.records.nodup_keys
  refine (((sortByDesc_perm _ _).map _).nodup_iff).mpr ?_
  exact hscan.sublist (List.filter_sublist.map _)

def neighbours (deps : List Dependency) (id : RecordId) : List RecordId :=
  ((deps.filter fun d => d.parentId = id).map Dependency.childId ++
    (deps.filter fun d => d.childId = id).map Dependency.parentId).dedup

theorem mem_neighbours {deps : List Dependency} {id other : RecordId} :
    other ∈ neighbours deps id ↔
      ∃ d ∈ deps, d.parentId = id ∧ d.childId = other ∨ d.childId = id ∧ d.parentId = other := by
  unfold neighbours
  rw [List.mem_dedup, List.mem_append]
  simp only [List.mem_map, List.mem_filter, decide_eq_true_eq]
  constructor
  · rintro (⟨d, ⟨hd, hid⟩, hother⟩ | ⟨d, ⟨hd, hid⟩, hother⟩)
    · exact ⟨d, hd, .inl ⟨hid, hother⟩⟩
    · exact ⟨d, hd, .inr ⟨hid, hother⟩⟩
  · rintro ⟨d, hd, ⟨hid, hother⟩ | ⟨hid, hother⟩⟩
    · exact .inl ⟨d, ⟨hd, hid⟩, hother⟩
    · exact .inr ⟨d, ⟨hd, hid⟩, hother⟩

/-- The work list is a stack. One unit of `fuel` pays for one pop. -/
def traverse (deps : List Dependency) :
    ℕ → List RecordId → List RecordId → List RecordId
  | 0, seen, _ => seen
  | _ + 1, seen, [] => seen
  | fuel + 1, seen, current :: frontier =>
    if current ∈ seen then traverse deps fuel seen frontier
    else traverse deps fuel (current :: seen)
      (((neighbours deps current).filter (· ∉ current :: seen)).reverse ++ frontier)

/-- Every edge is pushed at most once from each end. -/
def traversalFuel (deps : List Dependency) : ℕ := 2 * deps.length + 1

def dependencyGraph (db : Db) (id : RecordId) : List RecordId :=
  (traverse db.canonical.dependencies (traversalFuel db.canonical.dependencies) [] [id]).filter
    (· ≠ id)

def derivedFrom (db : Db) (id : RecordId) : List RecordId :=
  (db.canonical.dependencies.filter fun d => d.childId = id && d.rel = .derivedFrom).map
    Dependency.parentId

def supersedersOf (db : Db) (id : RecordId) : List RecordId :=
  (db.canonical.dependencies.filter fun d => d.childId = id && d.rel = .supersedes).map
    Dependency.parentId

/-- Either end of a contradicts edge; `UNION` sorts and drops repetitions. -/
def contradictorsOf (db : Db) (id : RecordId) : List RecordId :=
  sortBy (fun i => i)
    (neighbours (db.canonical.dependencies.filter fun d => d.rel = .contradicts) id)

def index (record : MemoryRecord) : Prog V Unit :=
  commit (.indexPosting record.id record.content)

def removePostings (ids : List RecordId) : Prog V Unit :=
  if ids.isEmpty then return () else commit (.removePostings ids)

def rebuild : Prog V Unit := commit .rebuildPostings

/-- `_safe_match`: the word tokens, quoted. -/
def safeMatch (p : Platform) (text : String) : String :=
  match p.words text with
  | [] => "\"\""
  | tokens => " ".intercalate (tokens.map fun t => "\"" ++ t ++ "\"")

/-- `LIMIT ?`: a negative limit is no limit. -/
def limit {α : Type} (xs : List α) (k : ℤ) : List α := if 0 ≤ k then xs.take k.toNat else xs

/-- Postings that match, joined with their rows; the best (lowest) BM25 rank first. -/
def lexicalSearch (p : Platform) (db : Db) (text : String) (topK : ℤ)
    (statuses : List Status := [.active, .reinforced]) (excludeTombstoned : Bool := true) :
    List (MemoryRecord × ℚ) :=
  let rows := sortBy Prod.fst db.postings.entries
  let found := rows.filterMap fun e => do
    let score ← p.bm25 rows (safeMatch p text) e.1
    let r ← db.readOne e.1
    if excludeTombstoned && db.isTombstoned r.id then none
    else if !statuses.isEmpty && !decide (r.status ∈ statuses) then none
    else some (r, score)
  limit (sortBy Prod.snd found) topK

end StrataMemory.CanonicalStore
