import StrataMemory.Procedures
import StrataMemory.Tables

set_option autoImplicit false

/-!
# The state of a process and its commits

A world is the SQLite file, the memory of the process (`V`: adapters, proposals),
and what the host supplies: clock readings, random ids, operation ids. Every SQL
transaction of the program is one commit, and `World.apply` is its effect.
-/
namespace StrataMemory.Worlds
open KeyedTables Records Tables Procedures

structure World (V : Type) where
  db : Db
  memory : V
  clock : ℕ → Time
  tick : ℕ
  /-- `new_operation_id` draws fresh ids. -/
  operationIds : OpId
  /-- `new_record_id` draws random ids, which may repeat. -/
  recordIds : ℕ → RecordId
  allocated : ℕ

inductive PyError where
  | keyError | valueError | integrityError | attributeError
  deriving DecidableEq

inductive Commit (V : Type) where
  | readClock
  | newOperationId
  | newRecordId
  -- canonical store
  | write (record : MemoryRecord)
  | addDependency (parentId childId : RecordId) (rel : Relation)
  | setStatus (id : RecordId) (status : Status)
  | tombstone (id : RecordId) (mode : DeletionMode) (jobId : OpId) (state : DeletionState)
  | setTombstoneState (id : RecordId) (state : DeletionState) (verifiedAt : Option Time)
  | hardDelete (id : RecordId)
  | recordIndexAck (id : RecordId) (adapter : String) (opId : OpId) (success : Bool)
  | registerGeneration (generation : ℤ) (modelId : String) (status : GenerationStatus)
  | promoteGeneration (generation : ℤ)
  -- lexical index
  | indexPosting (id : RecordId) (content : String)
  | removePostings (ids : List RecordId)
  | rebuildPostings
  -- op log
  | enqueue (op : Operation)
  | recover
  | setOpState (seq : ℕ) (state : OpState)
  | finish (seq : ℕ) (acks : Acks) (state : OpState)
  | failOp (seq attempts : ℕ) (reason : String)
  | deferOp (seq attempts : ℕ) (backoff : Time) (reason : String)
  | retryOp (opId : OpId)
  -- the write lock of the coordinator
  | acquire
  | release
  -- process memory; a surface's `remove` is entered
  | memory (f : V → V)
  | surfaceRemove (name : String)

namespace World
variable {V : Type}

def now (w : World V) : Time := w.clock w.tick

def stamp (w : World V) (f : Time → Db → Db) : World V :=
  { w with db := f w.now w.db, tick := w.tick + 1 }

def onCanonical (w : World V) (f : Time → Canonical → Canonical) : World V :=
  w.stamp fun now db => { db with canonical := f now db.canonical }

def onOpLog (w : World V) (f : Time → OpLog → OpLog) : World V :=
  w.stamp fun now db => { db with opLog := f now db.opLog }

def onPostings (w : World V) (f : Db → Table RecordId String) : World V :=
  { w with db := { w.db with postings := f w.db } }

end World

/-- `INSERT ... ON CONFLICT(record_id) DO UPDATE SET mode, state`. -/
def upsertTombstone (now : Time) (mode : DeletionMode) (jobId : OpId) (state : DeletionState) :
    Option Tombstone → Tombstone
  | none => ⟨mode, state, jobId, now, none⟩
  | some t => { t with mode := mode, state := state }

def markTombstone (state : DeletionState) (verifiedAt : Option Time) (t : Tombstone) : Tombstone :=
  { t with state := state, verifiedAt := verifiedAt.or t.verifiedAt }

/-- The two updates of `promote_generation`. -/
def promote (generation : ℤ) (gens : Table ℤ Generation) : Table ℤ Generation :=
  (gens.mapValues fun g => if g.status = .active then { g with status := .retired } else g).modify
    generation fun g => { g with status := .active }

section Apply
variable {V : Type}

def apply : Commit V → World V → World V
  | .readClock, w => { w with tick := w.tick + 1 }
  | .newOperationId, w => { w with operationIds := w.operationIds + 1 }
  | .newRecordId, w => { w with allocated := w.allocated + 1 }
  | .write record, w => w.onCanonical fun now c => c.write now record
  | .addDependency parentId childId rel, w =>
    { w with db := { w.db with canonical := w.db.canonical.addDependency parentId childId rel } }
  | .setStatus id status, w => w.onCanonical fun now c => c.setStatus now id status
  | .tombstone id mode jobId state, w => w.stamp fun now db =>
    { db with
      tombstones := db.tombstones.set id
        (upsertTombstone now mode jobId state (db.tombstones.get? id))
      canonical := db.canonical.setStatus now id .deleted }
  | .setTombstoneState id state verifiedAt, w =>
    { w with db := { w.db with
        tombstones := w.db.tombstones.modify id (markTombstone state verifiedAt) } }
  | .hardDelete id, w =>
    { w with db := { w.db with canonical := w.db.canonical.deleteRow id } }
  | .recordIndexAck id adapter opId success, w => w.stamp fun now db =>
    { db with indexAcks := db.indexAcks.set (id, adapter, opId) ⟨success, now⟩ }
  | .registerGeneration generation modelId status, w => w.stamp fun now db =>
    if db.generations.contains generation then db
    else { db with generations := db.generations.set generation ⟨modelId, status, now⟩ }
  | .promoteGeneration generation, w =>
    { w with db := { w.db with generations := promote generation w.db.generations } }
  | .indexPosting id content, w => w.onPostings fun db => db.postings.set id content
  | .removePostings ids, w => w.onPostings fun db => db.postings.eraseAll ids
  | .rebuildPostings, w => w.onPostings fun db =>
    db.canonical.records.mapValues MemoryRecord.content
  | .enqueue op, w => w.onOpLog fun now log => log.append op now
  | .recover, w => w.onOpLog fun now log =>
    log.advance (fun r => r.progress.state = .inProgress)
      fun p => { p with state := .pending, updatedAt := now }
  | .setOpState seq state, w => w.onOpLog fun now log =>
    log.advance (fun r => r.seq = seq) fun p => { p with state := state, updatedAt := now }
  | .finish seq acks state, w => w.onOpLog fun now log =>
    log.advance (fun r => r.seq = seq)
      fun p => { p with state := state, ackState := some (.acks acks), updatedAt := now }
  | .failOp seq attempts reason, w => w.onOpLog fun now log =>
    log.advance (fun r => r.seq = seq)
      fun p => { p with
        state := .failed, attempts := attempts, ackState := some (.reason reason)
        updatedAt := now }
  | .deferOp seq attempts backoff reason, w =>
    { w with
      db := { w.db with
        opLog := w.db.opLog.advance (fun r => r.seq = seq)
          fun p => { p with
            state := .partialFailure, attempts := attempts
            nextAttemptAt := some (w.now + backoff), ackState := some (.reason reason)
            updatedAt := w.clock (w.tick + 1) } }
      tick := w.tick + 2 }
  | .retryOp opId, w => w.onOpLog fun now log =>
    log.advance
      (fun r => r.operation.opId = opId &&
        (r.progress.state = .partialFailure || r.progress.state = .failed))
      fun p => { p with state := .pending, nextAttemptAt := none, updatedAt := now }
  | .acquire, w => w
  | .release, w => w
  | .memory f, w => { w with memory := f w.memory }
  | .surfaceRemove _, w => w

instance : Commands (World V) (Commit V) := ⟨apply⟩

end Apply

abbrev Prog (V : Type) := Proc (World V) (Commit V) PyError

section Primitives
variable {V : Type}

def commit (c : Commit V) : Prog V Unit := Proc.perform c

def query {α : Type} (f : Db → α) : Prog V α := Proc.read fun w => f w.db

def raise {α : Type} (e : PyError) : Prog V α := .fail e

/-- `_now_ms()` outside a statement. -/
def nowMs : Prog V Time := Proc.performing .readClock World.now

def newOperationId : Prog V OpId := Proc.performing .newOperationId World.operationIds

/-- `IdAllocator.new_id`: a zero draw becomes one. -/
def newRecordId : Prog V RecordId :=
  Proc.performing .newRecordId fun w =>
    if w.recordIds w.allocated = 0 then 1 else w.recordIds w.allocated

@[simp] theorem uses_commit (P : Commit V → Prop) (c : Commit V) : (commit c).Uses P ↔ P c :=
  Proc.uses_perform P c

@[simp] theorem uses_query {α : Type} (P : Commit V → Prop) (f : Db → α) :
    (query f : Prog V α).Uses P :=
  Proc.uses_read P _

@[simp] theorem uses_raise {α : Type} (P : Commit V → Prop) (e : PyError) :
    (raise e : Prog V α).Uses P :=
  trivial

@[simp] theorem uses_nowMs (P : Commit V → Prop) :
    (nowMs : Prog V Time).Uses P ↔ P .readClock :=
  Proc.uses_performing P _ _

@[simp] theorem uses_newOperationId (P : Commit V → Prop) :
    (newOperationId : Prog V OpId).Uses P ↔ P .newOperationId :=
  Proc.uses_performing P _ _

@[simp] theorem uses_newRecordId (P : Commit V → Prop) :
    (newRecordId : Prog V RecordId).Uses P ↔ P .newRecordId :=
  Proc.uses_performing P _ _

theorem returns_commit (c : Commit V) : (commit c).Returns := Proc.Returns.perform c

theorem returns_query {α : Type} (f : Db → α) : (query f : Prog V α).Returns := Proc.Returns.read _

theorem returns_nowMs : (nowMs : Prog V Time).Returns := Proc.Returns.performing _ _

@[simp] theorem run_commit (c : Commit V) (w : World V) :
    (commit c).run w = (.ok (), apply c w) := rfl

@[simp] theorem run_query {α : Type} (f : Db → α) (w : World V) :
    (query f : Prog V α).run w = (.ok (f w.db), w) := rfl

@[simp] theorem run_nowMs (w : World V) :
    (nowMs : Prog V Time).run w = (.ok w.now, apply .readClock w) := rfl

@[simp] theorem run_newOperationId (w : World V) :
    (newOperationId : Prog V OpId).run w = (.ok w.operationIds, apply .newOperationId w) := rfl

end Primitives
end StrataMemory.Worlds
