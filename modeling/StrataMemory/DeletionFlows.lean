import StrataMemory.ManagedSurfaces

set_option autoImplicit false

namespace StrataMemory.DeletionFlows
open KeyedTables Records Tables Procedures Worlds ManagedSurfaces

structure DeletionService (V : Type) where
  registry : Registry V
  /-- Whether a lexical store was given. -/
  lexical : Bool := true
  maxRetries : ℕ := 3

variable {V : Type}

def canonicallyGone (mode : DeletionMode) : List RecordId → Prog V Bool
  | [] => return true
  | rid :: rest => do
    if !(← CanonicalStore.isTombstoned rid) then return false
    if mode = .hard then
      if (← CanonicalStore.readOne rid).isSome then return false
    canonicallyGone mode rest

def verifyNotRetrievable (registry : Registry V) (ids : List RecordId) (mode : DeletionMode) :
    Prog V Bool := do
  let results ← verify registry ids
  if !results.allTrue then return false
  canonicallyGone mode ids

def markAll (ids : List RecordId) (state : DeletionState) (verifiedAt : Option Time := none) :
    Prog V Unit :=
  ids.forM fun rid => commit (.setTombstoneState rid state verifiedAt)

def recordReport (jobId : OpId) (report : Report) : Prog V Unit :=
  report.entries.forM fun e =>
    e.2.forM fun ack => commit (.recordIndexAck ack.1 e.1 jobId ack.2)

def hardErase (svc : DeletionService V) (ids : List RecordId) : Prog V Unit := do
  ids.forM fun rid => commit (.hardDelete rid)
  if svc.lexical then CanonicalStore.rebuild

/-- One round of `_purge_and_verify`: whether it ended `VERIFIED`. -/
def purgeRound (svc : DeletionService V) (jobId : OpId) (ids : List RecordId)
    (mode : DeletionMode) : Prog V Bool := do
  markAll ids .indexDeleting
  let report ← purge svc.registry ids
  recordReport jobId report
  if !report.allTrue then return false
  if mode = .hard then hardErase svc ids
  if !(← verifyNotRetrievable svc.registry ids mode) then return false
  let now ← nowMs
  markAll ids .verified (some now)
  return true

/-- `_purge_and_verify` with `max_retries - attempt` retries left. -/
def purgeAndVerify (svc : DeletionService V) (jobId : OpId) (ids : List RecordId)
    (mode : DeletionMode) : ℕ → Prog V Unit
  | 0 => do
    if ← purgeRound svc jobId ids mode then return ()
    markAll ids .manualAttention
  | retries + 1 => do
    if ← purgeRound svc jobId ids mode then return ()
    markAll ids .partialFailure
    purgeAndVerify svc jobId ids mode retries

def covered (db : Db) (recordId : RecordId) (includeDependents : Bool) : List RecordId :=
  recordId :: if includeDependents then CanonicalStore.dependencyGraph db recordId else []

def tombstoneAll (ids : List RecordId) (mode : DeletionMode) (jobId : OpId) : Prog V Unit :=
  ids.forM fun rid => commit (.tombstone rid mode jobId .canonicalTombstoned)

def requestDeletion (svc : DeletionService V) (recordId : RecordId) (mode : DeletionMode)
    (includeDependents : Bool := true) : Prog V OpId := do
  let jobId ← newOperationId
  let ids ← query fun db => covered db recordId includeDependents
  tombstoneAll ids mode jobId
  purgeAndVerify svc jobId ids mode svc.maxRetries
  return jobId

def jobRows (db : Db) (jobId : OpId) : List (RecordId × Tombstone) :=
  sortBy Prod.fst (db.tombstones.entries.filter fun e => e.2.jobId = jobId)

/-- The ids and the mode that `retry` reads: the mode is that of the first row. -/
def retryTarget (db : Db) (jobId : OpId) : Option (List RecordId × DeletionMode) :=
  match jobRows db jobId with
  | [] => none
  | row :: rows => some ((row :: rows).map Prod.fst, row.2.mode)

def retry (svc : DeletionService V) (jobId : OpId) : Prog V OpId := do
  match ← query fun db => retryTarget db jobId with
  | none => raise .keyError
  | some (ids, mode) =>
    purgeAndVerify svc jobId ids mode svc.maxRetries
    return jobId

structure JobStatus where
  jobId : OpId
  mode : DeletionMode
  state : DeletionState
  recordIds : List RecordId
  deriving DecidableEq

def JobStatus.verified (s : JobStatus) : Bool := s.state = .verified

/-- A job rolls up to the least complete state among its members. -/
def rollUp (states : List DeletionState) : Option DeletionState :=
  [.manualAttention, .partialFailure, .indexDeleting, .canonicalTombstoned, .requested,
    .verified].find? (· ∈ states)

def deletionStatus (db : Db) (jobId : OpId) : Option JobStatus :=
  match jobRows db jobId with
  | [] => none
  | row :: rows =>
    (rollUp ((row :: rows).map fun r => r.2.state)).map fun state =>
      ⟨jobId, row.2.mode, state, (row :: rows).map Prod.fst⟩

def correct (svc : DeletionService V) (oldId : RecordId) (record : MemoryRecord)
    (relation : Relation := .supersedes) (keepHistoryInIndex : Bool := false) :
    Prog V MemoryRecord := do
  let written ← CanonicalStore.write record
  CanonicalStore.setStatus oldId (if relation = .supersedes then .superseded else .contradicted)
  CanonicalStore.addDependency written.id oldId relation
  if svc.lexical then CanonicalStore.index written
  if !keepHistoryInIndex then
    let _ ← purge svc.registry [oldId]
  return written

end StrataMemory.DeletionFlows
