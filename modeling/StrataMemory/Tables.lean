import StrataMemory.KeyedTables
import StrataMemory.Records

set_option autoImplicit false

/-!
# The tables of the SQLite file

The tables linked by foreign keys form one structure, so that no version, edge or
span can name a record without a row. The op log keeps its rows in `seq` order,
and only the progress of a row can change.
-/
namespace StrataMemory.Tables
open KeyedTables Records

structure Version where
  versionId : ℤ
  recordId : RecordId
  content : String
  contentHash : String
  status : Status
  createdAt : Time
  deriving DecidableEq

structure Dependency where
  parentId : RecordId
  childId : RecordId
  rel : Relation
  deriving DecidableEq

structure SourceSpan where
  spanId : ℕ
  recordId : RecordId
  deriving DecidableEq

/-- `records` and the tables that reference it (`ON DELETE CASCADE`). -/
structure Canonical where
  records : Table RecordId MemoryRecord
  versions : List Version
  dependencies : List Dependency
  sourceSpans : List SourceSpan
  record_id : ∀ id r, records.get? id = some r → r.id = id
  version_fk : ∀ v ∈ versions, records.contains v.recordId = true
  dependency_fk : ∀ d ∈ dependencies,
    records.contains d.parentId = true ∧ records.contains d.childId = true
  span_fk : ∀ s ∈ sourceSpans, records.contains s.recordId = true

namespace Canonical

def empty : Canonical where
  records := ∅
  versions := []
  dependencies := []
  sourceSpans := []
  record_id _ _ h := nomatch h
  version_fk _ h := nomatch h
  dependency_fk _ h := nomatch h
  span_fk _ h := nomatch h

instance : Inhabited Canonical := ⟨empty⟩

private theorem contains_set_of_contains {d : Table RecordId MemoryRecord} {k j : RecordId}
    {r : MemoryRecord} (h : d.contains j = true) : (d.set k r).contains j = true := by
  rw [Table.contains_set, h, Bool.or_true]

def putRow (c : Canonical) (r : MemoryRecord) : Canonical where
  records := c.records.set r.id r
  versions := c.versions
  dependencies := c.dependencies
  sourceSpans := c.sourceSpans
  record_id id s h := by
    rw [Table.get?_set] at h
    split at h
    · rename_i he
      cases h
      exact he
    · exact c.record_id id s h
  version_fk v hv := contains_set_of_contains (c.version_fk v hv)
  dependency_fk d hd :=
    ⟨contains_set_of_contains (c.dependency_fk d hd).1,
      contains_set_of_contains (c.dependency_fk d hd).2⟩
  span_fk s hs := contains_set_of_contains (c.span_fk s hs)

/-- `UPDATE records SET ... WHERE id = ?`. -/
def updateRow (c : Canonical) (id : RecordId) (f : MemoryRecord → MemoryRecord)
    (hf : ∀ r, (f r).id = r.id) : Canonical where
  records := c.records.modify id f
  versions := c.versions
  dependencies := c.dependencies
  sourceSpans := c.sourceSpans
  record_id j s h := by
    rw [Table.get?_modify] at h
    split at h
    · obtain ⟨r, hr, rfl⟩ := Option.map_eq_some_iff.mp h
      exact (hf r).trans (c.record_id j r hr)
    · exact c.record_id j s h
  version_fk v hv := by rw [Table.contains_modify]; exact c.version_fk v hv
  dependency_fk d hd := by
    rw [Table.contains_modify, Table.contains_modify]
    exact c.dependency_fk d hd
  span_fk s hs := by rw [Table.contains_modify]; exact c.span_fk s hs

/-- SQLite gives a row the rowid one above the largest. -/
def nextVersionId (c : Canonical) : ℤ := (c.versions.map Version.versionId).foldl max 0 + 1

/-- `trg_sync_current_version`, with its guard. -/
def syncCurrentVersion (versionId : ℤ) (now : Time) (r : MemoryRecord) : MemoryRecord :=
  if r.currentVersionId = some versionId then r
  else { r with currentVersionId := some versionId, updatedAt := now }

theorem syncCurrentVersion_id (versionId : ℤ) (now : Time) (r : MemoryRecord) :
    (syncCurrentVersion versionId now r).id = r.id := by
  unfold syncCurrentVersion
  split <;> rfl

theorem syncCurrentVersion_pointer (versionId : ℤ) (now : Time) (r : MemoryRecord) :
    (syncCurrentVersion versionId now r).currentVersionId = some versionId := by
  unfold syncCurrentVersion
  split
  · assumption
  · rfl

/-- Append a version row and fire the trigger. The foreign key refuses a version
of a record that has no row. -/
def insertVersion (c : Canonical) (now : Time) (r : MemoryRecord) : Canonical :=
  if h : c.records.contains r.id = true then
    let versionId := c.nextVersionId
    let withVersion : Canonical :=
      { c with
        versions := c.versions ++ [⟨versionId, r.id, r.content, r.contentHash, r.status, now⟩]
        version_fk := by
          intro v hv
          rcases List.mem_append.mp hv with hv | hv
          · exact c.version_fk v hv
          · cases List.mem_singleton.mp hv
            exact h }
    withVersion.updateRow r.id (syncCurrentVersion versionId now) (syncCurrentVersion_id _ _)
  else c

/-- The head row that `write` upserts: a conflict keeps `created_at`. -/
def headRow (c : Canonical) (now : Time) (r : MemoryRecord) : MemoryRecord :=
  match c.records.get? r.id with
  | none => { r with createdAt := if r.createdAt = 0 then now else r.createdAt, updatedAt := now }
  | some old => { r with createdAt := old.createdAt, updatedAt := now }

def write (c : Canonical) (now : Time) (r : MemoryRecord) : Canonical :=
  (c.putRow (c.headRow now r)).insertVersion now r

def setStatus (c : Canonical) (now : Time) (id : RecordId) (status : Status) : Canonical :=
  c.updateRow id (fun r => { r with status := status, updatedAt := now }) fun _ => rfl

def edgeAllowed (c : Canonical) (parentId childId : RecordId) : Bool :=
  c.records.contains parentId && c.records.contains childId

/-- `INSERT OR IGNORE INTO dependencies`; the foreign keys are not ignored. -/
def addDependency (c : Canonical) (parentId childId : RecordId) (rel : Relation) : Canonical :=
  if h : c.edgeAllowed parentId childId = true then
    if (⟨parentId, childId, rel⟩ : Dependency) ∈ c.dependencies then c
    else
      { c with
        dependencies := c.dependencies ++ [⟨parentId, childId, rel⟩]
        dependency_fk := by
          intro d hd
          rcases List.mem_append.mp hd with hd | hd
          · exact c.dependency_fk d hd
          · cases List.mem_singleton.mp hd
            exact Bool.and_eq_true_iff.mp h }
  else c

/-- `DELETE FROM records WHERE id = ?` with its cascades. -/
def deleteRow (c : Canonical) (id : RecordId) : Canonical where
  records := c.records.erase id
  versions := c.versions.filter fun v => v.recordId ≠ id
  dependencies := c.dependencies.filter fun d => d.parentId ≠ id && d.childId ≠ id
  sourceSpans := c.sourceSpans.filter fun s => s.recordId ≠ id
  record_id j r h := by
    rw [Table.get?_erase] at h
    split at h
    · cases h
    · exact c.record_id j r h
  version_fk v hv := by
    obtain ⟨hm, hne⟩ := List.mem_filter.mp hv
    rw [Table.contains_erase, c.version_fk v hm]
    simpa using hne
  dependency_fk d hd := by
    obtain ⟨hm, hne⟩ := List.mem_filter.mp hd
    rw [Table.contains_erase, Table.contains_erase, (c.dependency_fk d hm).1,
      (c.dependency_fk d hm).2]
    simpa using hne
  span_fk s hs := by
    obtain ⟨hm, hne⟩ := List.mem_filter.mp hs
    rw [Table.contains_erase, c.span_fk s hm]
    simpa using hne

end Canonical

inductive DeletionMode where
  | logical | hard
  deriving DecidableEq

inductive DeletionState where
  | requested | canonicalTombstoned | indexDeleting | partialFailure | verified | manualAttention
  deriving DecidableEq

structure Tombstone where
  mode : DeletionMode
  state : DeletionState
  jobId : OpId
  requestedAt : Time
  verifiedAt : Option Time
  deriving DecidableEq

inductive OpType where
  | upsertIndex | removeIndex | tombstone | reindexPromote | hardPurge
  deriving DecidableEq

def OpType.name : OpType → String
  | .upsertIndex => "UPSERT_INDEX"
  | .removeIndex => "REMOVE_INDEX"
  | .tombstone => "TOMBSTONE"
  | .reindexPromote => "REINDEX_PROMOTE"
  | .hardPurge => "HARD_PURGE"

inductive OpState where
  | pending | inProgress | partialFailure | done | failed
  deriving DecidableEq

/-- Neither `DONE` nor `FAILED`. -/
def OpState.isLive (s : OpState) : Bool := s ≠ .done && s ≠ .failed

structure VectorRecord where
  id : RecordId
  vector : List ℚ
  contentHash : String
  embeddingModelId : String
  embeddingGeneration : ℤ
  metadata : List (String × String)
  deriving DecidableEq

/-- The payload is the `records` list of the JSON payload, when there is one. -/
structure Operation where
  opType : OpType
  targetIds : List RecordId
  target : Option String
  payload : Option (List VectorRecord)
  expectedGeneration : Option ℤ
  opId : OpId
  deriving DecidableEq

def Operation.isDestructive (op : Operation) : Bool := op.opType ≠ .upsertIndex

def Operation.records (op : Operation) : List VectorRecord := op.payload.getD []

abbrev Acks := List (RecordId × Bool)

/-- `acks.get(rid, False)`. -/
def Acks.get (acks : Acks) (id : RecordId) : Bool := (acks.lookup id).getD false

inductive AckState where
  | acks (acks : Acks)
  | reason (text : String)
  deriving DecidableEq

structure Progress where
  state : OpState
  attempts : ℕ
  nextAttemptAt : Option Time
  ackState : Option AckState
  updatedAt : Time
  deriving DecidableEq

structure OpRow where
  seq : ℕ
  operation : Operation
  createdAt : Time
  progress : Progress
  deriving DecidableEq

abbrev OpRow.isLive (r : OpRow) : Bool := r.progress.state.isLive

structure OpLog where
  rows : List OpRow
  nextSeq : ℕ
  seq_increasing : (rows.map OpRow.seq).Pairwise (· < ·)
  seq_bound : ∀ r ∈ rows, r.seq < nextSeq
  opIds_nodup : (rows.map fun r => r.operation.opId).Nodup

namespace OpLog

def empty : OpLog where
  rows := []
  nextSeq := 1
  seq_increasing := List.Pairwise.nil
  seq_bound _ h := nomatch h
  opIds_nodup := List.nodup_nil

instance : Inhabited OpLog := ⟨empty⟩

/-- `INSERT OR IGNORE`: a repeated op id leaves the log as it is. -/
def append (log : OpLog) (op : Operation) (now : Time) : OpLog :=
  if h : op.opId ∈ log.rows.map (fun r => r.operation.opId) then log
  else
    { rows := log.rows ++ [⟨log.nextSeq, op, now, ⟨.pending, 0, none, none, now⟩⟩]
      nextSeq := log.nextSeq + 1
      seq_increasing := by
        rw [List.map_append, List.pairwise_append]
        refine ⟨log.seq_increasing, List.pairwise_singleton _ _, ?_⟩
        intro a ha b hb
        obtain ⟨r, hr, rfl⟩ := List.mem_map.mp ha
        cases List.mem_singleton.mp hb
        exact log.seq_bound r hr
      seq_bound := by
        intro r hr
        rcases List.mem_append.mp hr with hr | hr
        · exact Nat.lt_succ_of_lt (log.seq_bound r hr)
        · cases List.mem_singleton.mp hr
          exact Nat.lt_succ_self _
      opIds_nodup := by
        rw [List.map_append, List.nodup_append]
        refine ⟨log.opIds_nodup, List.nodup_singleton _, ?_⟩
        intro a ha b hb hab
        have hb' : b = op.opId := List.mem_singleton.mp hb
        exact h (hb' ▸ hab ▸ ha) }

/-- `UPDATE op_log SET ... WHERE p`: only the progress columns change. -/
def advance (log : OpLog) (p : OpRow → Bool) (f : Progress → Progress) : OpLog where
  rows := log.rows.map fun r => if p r then { r with progress := f r.progress } else r
  nextSeq := log.nextSeq
  seq_increasing := by
    rw [List.map_map]
    have h : (OpRow.seq ∘ fun r => if p r then { r with progress := f r.progress } else r) =
        OpRow.seq := by
      funext r
      dsimp only [Function.comp]
      split <;> rfl
    rw [h]
    exact log.seq_increasing
  seq_bound := by
    intro r hr
    obtain ⟨s, hs, rfl⟩ := List.mem_map.mp hr
    have := log.seq_bound s hs
    split <;> exact this
  opIds_nodup := by
    rw [List.map_map]
    have h : ((fun r : OpRow => r.operation.opId) ∘
        fun r => if p r then { r with progress := f r.progress } else r) =
        fun r => r.operation.opId := by
      funext r
      dsimp only [Function.comp]
      split <;> rfl
    rw [h]
    exact log.opIds_nodup

end OpLog

inductive GenerationStatus where
  | active | shadow | retired
  deriving DecidableEq

structure Generation where
  embeddingModelId : String
  status : GenerationStatus
  createdAt : Time
  deriving DecidableEq

structure IndexAck where
  success : Bool
  updatedAt : Time
  deriving DecidableEq

/-- The whole file. `postings` is the FTS5 table. -/
structure Db where
  canonical : Canonical
  tombstones : Table RecordId Tombstone
  generations : Table ℤ Generation
  indexAcks : Table (RecordId × String × OpId) IndexAck
  postings : Table RecordId String
  opLog : OpLog

namespace Db

def empty : Db := ⟨.empty, ∅, ∅, ∅, ∅, .empty⟩

instance : Inhabited Db := ⟨empty⟩

def readOne (db : Db) (id : RecordId) : Option MemoryRecord := db.canonical.records.get? id

def isTombstoned (db : Db) (id : RecordId) : Bool := db.tombstones.contains id

def hasPosting (db : Db) (id : RecordId) : Bool := db.postings.contains id

theorem readOne_id {db : Db} {id : RecordId} {r : MemoryRecord} (h : db.readOne id = some r) :
    r.id = id :=
  db.canonical.record_id id r h

end Db
end StrataMemory.Tables
