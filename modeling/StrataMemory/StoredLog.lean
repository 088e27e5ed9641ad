import StrataMemory.Coordinator
import StrataMemory.JsonTexts

set_option autoImplicit false

/-!
# The op log as its columns hold it

The table keeps enumerations as their values, and ids, payloads and acknowledgements as JSON
texts. Here the coordinator works on those rows: it writes the texts, and reads them again when
it schedules and when it applies.
-/
namespace StrataMemory.Tables

def OpType.value : OpType → String
  | .upsertIndex => "upsert_index"
  | .removeIndex => "remove_index"
  | .tombstone => "tombstone"
  | .reindexPromote => "reindex_promote"
  | .hardPurge => "hard_purge"

def OpType.all : List OpType := [.upsertIndex, .removeIndex, .tombstone, .reindexPromote, .hardPurge]

/-- `OpType(text)`. -/
def OpType.ofValue (text : String) : Option OpType := OpType.all.find? fun t => t.value = text

def OpState.value : OpState → String
  | .pending => "pending"
  | .inProgress => "in_progress"
  | .partialFailure => "partial_failure"
  | .done => "done"
  | .failed => "failed"

end StrataMemory.Tables

namespace StrataMemory.StoredLog
open KeyedTables Records Tables Procedures Worlds Coordinator JsonTexts

/-- The columns that `enqueue` binds. -/
structure OpColumns where
  opId : OpId
  opType : String
  target : Option String
  targetIds : String
  payload : Option String
  expectedGeneration : Option ℤ
  isDestructive : Bool
  deriving DecidableEq

structure StoredRow extends OpColumns where
  seq : ℕ
  state : String
  attempts : ℕ
  nextAttemptAt : Option Time
  ackState : Option String
  createdAt : Time
  updatedAt : Time
  deriving DecidableEq

structure StoredRows where
  rows : List StoredRow
  nextSeq : ℕ
  deriving DecidableEq

namespace StoredRows

/-- `INSERT OR IGNORE`: `op_id` is unique. -/
def insert (log : StoredRows) (values : OpColumns) (now : Time) : StoredRows :=
  if values.opId ∈ log.rows.map (fun r => r.opId) then log
  else
    { rows := log.rows ++ [{
        toOpColumns := values
        seq := log.nextSeq
        state := OpState.pending.value
        attempts := 0
        nextAttemptAt := none
        ackState := none
        createdAt := now
        updatedAt := now }]
      nextSeq := log.nextSeq + 1 }

/-- `UPDATE op_log SET ... WHERE p`. -/
def update (log : StoredRows) (p : StoredRow → Bool) (f : StoredRow → StoredRow) : StoredRows :=
  { log with rows := log.rows.map fun r => if p r then f r else r }

end StoredRows

section Texts

def targetIdsJson (ids : List RecordId) : Json ℚ := .arr (ids.map .int)

def metadataJson (metadata : List (String × String)) : Json ℚ :=
  .obj (metadata.map fun entry => (entry.1, .str entry.2))

def recordJson (r : VectorRecord) : Json ℚ :=
  .obj [("id", .int r.id), ("vector", .arr (r.vector.map .float)),
    ("content_hash", .str r.contentHash), ("embedding_model_id", .str r.embeddingModelId),
    ("embedding_generation", .int r.embeddingGeneration), ("metadata", metadataJson r.metadata)]

def payloadJson (records : List VectorRecord) : Json ℚ :=
  .obj [("records", .arr (records.map recordJson))]

/-- A dictionary holds an id once, as the first answer for it that `get` finds. -/
def ackDict : Acks → Acks
  | [] => []
  | (id, ok) :: acks => (id, ok) :: (ackDict acks).filter fun ack => ack.1 ≠ id

def ackJson : AckState → Json ℚ
  | .acks acks =>
    .obj ((ackDict acks).map fun ack => (String.ofList (TextReaders.intText ack.1), .bool ack.2))
  | .reason text => .obj [("reason", .str text)]

def asNumber : Json ℚ → Option ℚ
  | .float x => some x
  | .int n => some n
  | _ => none

def readMetadata : Json ℚ → Option (List (String × String))
  | .obj fields => fields.mapM fun field => (asString field.2).map fun s => (field.1, s)
  | _ => none

def recordKeys : List String :=
  ["id", "vector", "content_hash", "embedding_model_id", "embedding_generation", "metadata"]

/-- `VectorRecord(**r)`: a key that is no field is refused, and only `metadata` may be missing. -/
def readRecord : Json ℚ → Option VectorRecord
  | .obj fields => do
    guard (fields.all fun field => field.1 ∈ recordKeys)
    let id ← requiredField asInt fields "id"
    let vector ← requiredField (asList asNumber) fields "vector"
    let contentHash ← requiredField asString fields "content_hash"
    let embeddingModelId ← requiredField asString fields "embedding_model_id"
    let embeddingGeneration ← requiredField asInt fields "embedding_generation"
    let metadata ← optionalField readMetadata fields "metadata"
    return ⟨id, vector, contentHash, embeddingModelId, embeddingGeneration, metadata.getD []⟩
  | _ => none

/-- `payload.get("records", [])`, each as a record. -/
def readPayload : Json ℚ → Option (List VectorRecord)
  | .obj fields => (optionalField (asList readRecord) fields "records").map fun records => records.getD []
  | _ => none

variable (f : FloatText ℚ)

/-- `json.dumps`. -/
def dumpsText (v : Json ℚ) : String := String.ofList (dumps f .spaced v)

/-- `json.loads`, which raises on a text that it cannot read. -/
def loadsText (text : String) : Except PyError (Json ℚ) :=
  match loads f text.toList with
  | some v => .ok v
  | none => .error .valueError

def decode {α : Type} (read : Json ℚ → Option α) (text : String) : Except PyError α :=
  match loadsText f text with
  | .error e => .error e
  | .ok v =>
    match read v with
    | some a => .ok a
    | none => .error .valueError

def columns (op : Operation) : OpColumns where
  opId := op.opId
  opType := op.opType.value
  target := op.target
  targetIds := dumpsText f (targetIdsJson op.targetIds)
  payload := op.payload.map fun records => dumpsText f (payloadJson records)
  expectedGeneration := op.expectedGeneration
  isDestructive := op.isDestructive

def targetIdsOf (row : StoredRow) : Except PyError (List RecordId) :=
  decode f (asList asInt) row.targetIds

/-- `json.loads(op_row["payload"]) if op_row["payload"] else None`. -/
def payloadOf (row : StoredRow) : Except PyError (Option (List VectorRecord)) :=
  match row.payload with
  | none => .ok none
  | some text => if text = "" then .ok none else (decode f readPayload text).map some

/-- The `Operation` that `apply_next` makes of a row. The records of a payload are made here,
where the program leaves it to the handler. -/
def operationOf (row : StoredRow) : Except PyError Operation :=
  match OpType.ofValue row.opType with
  | none => .error .valueError
  | some opType => do
    let targetIds ← targetIdsOf f row
    let payload ← payloadOf f row
    return ⟨opType, targetIds, row.target, payload, row.expectedGeneration, row.opId⟩

end Texts

structure StoredWorld (V : Type) where
  opLog : StoredRows
  indexAcks : Table (RecordId × String × OpId) IndexAck
  memory : V
  clock : ℕ → Time
  tick : ℕ

inductive Statement (V : Type) where
  | readClock
  | insert (values : OpColumns)
  | recover
  | setState (seq : ℕ) (state : OpState)
  | finish (seq : ℕ) (state : OpState) (ackState : String)
  | failOp (seq attempts : ℕ) (ackState : String)
  | deferOp (seq attempts : ℕ) (backoff : Time) (ackState : String)
  | retryOp (opId : OpId)
  | recordIndexAck (id : RecordId) (adapter : String) (opId : OpId) (success : Bool)
  | acquire
  | release
  | memory (f : V → V)

section Apply
variable {V : Type}

def StoredWorld.now (w : StoredWorld V) : Time := w.clock w.tick

def StoredWorld.onOpLog (w : StoredWorld V) (f : Time → StoredRows → StoredRows) : StoredWorld V :=
  { w with opLog := f w.now w.opLog, tick := w.tick + 1 }

def apply : Statement V → StoredWorld V → StoredWorld V
  | .readClock, w => { w with tick := w.tick + 1 }
  | .insert values, w => w.onOpLog fun now log => log.insert values now
  | .recover, w => w.onOpLog fun now log =>
    log.update (fun r => r.state = OpState.inProgress.value)
      fun r => { r with state := OpState.pending.value, updatedAt := now }
  | .setState seq state, w => w.onOpLog fun now log =>
    log.update (fun r => r.seq = seq) fun r => { r with state := state.value, updatedAt := now }
  | .finish seq state ackState, w => w.onOpLog fun now log =>
    log.update (fun r => r.seq = seq)
      fun r => { r with state := state.value, ackState := some ackState, updatedAt := now }
  | .failOp seq attempts ackState, w => w.onOpLog fun now log =>
    log.update (fun r => r.seq = seq)
      fun r => { r with
        state := OpState.failed.value, attempts := attempts, ackState := some ackState
        updatedAt := now }
  | .deferOp seq attempts backoff ackState, w =>
    { w with
      opLog := w.opLog.update (fun r => r.seq = seq)
        fun r => { r with
          state := OpState.partialFailure.value, attempts := attempts
          nextAttemptAt := some (w.now + backoff), ackState := some ackState
          updatedAt := w.clock (w.tick + 1) }
      tick := w.tick + 2 }
  | .retryOp opId, w => w.onOpLog fun now log =>
    log.update
      (fun r => r.opId = opId &&
        (r.state = OpState.partialFailure.value || r.state = OpState.failed.value))
      fun r => { r with state := OpState.pending.value, nextAttemptAt := none, updatedAt := now }
  | .recordIndexAck id adapter opId success, w =>
    { w with
      indexAcks := w.indexAcks.set (id, adapter, opId) ⟨success, w.now⟩
      tick := w.tick + 1 }
  | .acquire, w => w
  | .release, w => w
  | .memory f, w => { w with memory := f w.memory }

instance : Commands (StoredWorld V) (Statement V) := ⟨apply⟩

end Apply

abbrev StoredProg (V : Type) := Proc (StoredWorld V) (Statement V) PyError

section Scheduling
variable (f : FloatText ℚ)

/-- `any(ids & set(json.loads(e["target_ids"])) for e in earlier)`. -/
def sharesTarget (ids : List RecordId) : List StoredRow → Except PyError Bool
  | [] => .ok false
  | e :: earlier => do
    let others ← targetIdsOf f e
    if ids.any (· ∈ others) then return true
    sharesTarget ids earlier

/-- `_blocked`. -/
def blocked (op : StoredRow) (earlier : List StoredRow) : Except PyError Bool :=
  if earlier.isEmpty then .ok false
  else if earlier.any (·.isDestructive) then .ok true
  else if op.isDestructive then .ok true
  else do
    let ids ← targetIdsOf f op
    sharesTarget f ids earlier

def runnable (op : StoredRow) : Bool :=
  op.state = OpState.pending.value || op.state = OpState.partialFailure.value

def ready (now : Time) (op : StoredRow) : Bool :=
  match op.nextAttemptAt with
  | none => true
  | some t => t ≤ now

def selectFrom (now : Time) (earlier : List StoredRow) :
    List StoredRow → Except PyError (Option StoredRow)
  | [] => .ok none
  | op :: rest =>
    if runnable op && ready now op then do
      if ← blocked f op earlier then selectFrom now (earlier ++ [op]) rest
      else return some op
    else selectFrom now (earlier ++ [op]) rest

/-- `WHERE state NOT IN (?, ?) ORDER BY seq`. -/
def notDone (log : StoredRows) : List StoredRow :=
  log.rows.filter fun r => r.state ≠ OpState.done.value && r.state ≠ OpState.failed.value

def selectEligible (log : StoredRows) (now : Time) : Except PyError (Option StoredRow) :=
  selectFrom f now [] (notDone log)

end Scheduling

section Programs
variable {V : Type} (f : FloatText ℚ)

def execute (s : Statement V) : StoredProg V Unit := Proc.perform s

def raising {α : Type} : Except PyError α → StoredProg V α
  | .ok a => .done a
  | .error e => .fail e

def enqueue (op : Operation) : StoredProg V OpId := do
  execute (.insert (columns f op))
  return op.opId

def recover : StoredProg V Unit := execute .recover

def retry (opId : OpId) : StoredProg V Unit := execute (.retryOp opId)

def recordAcks (op : Operation) (acks : Acks) : StoredProg V Unit :=
  op.targetIds.forM fun rid =>
    execute (.recordIndexAck rid (ackTarget op) op.opId (acks.get rid))

def failOrRetry (c : WriteCoordinator V) (row : StoredRow) (reason : String) : StoredProg V Unit :=
  let attempts := row.attempts + 1
  let ackState := dumpsText f (ackJson (.reason reason))
  if c.maxAttempts ≤ attempts then execute (.failOp row.seq attempts ackState)
  else execute (.deferOp row.seq attempts (c.backoffBaseMs * 2 ^ (attempts - 1)) ackState)

def invoke (handler : Handler V) (op : Operation) : StoredProg V (Except String Acks) :=
  Proc.performing (.memory fun v => (handler op v).2) fun w => (handler op w.memory).1

def callHandler (c : WriteCoordinator V) (op : Operation) : StoredProg V (Except String Acks) :=
  match op.target.bind c.handlers with
  | none => return .error (missingHandler c op)
  | some handler => invoke handler op

/-- `_run`. -/
def runOp (c : WriteCoordinator V) (row : StoredRow) (op : Operation) : StoredProg V Unit := do
  match ← callHandler c op with
  | .error reason =>
    recordAcks op (op.targetIds.map fun rid => (rid, false))
    failOrRetry f c row reason
  | .ok acks =>
    recordAcks op acks
    if op.targetIds.all fun rid => acks.get rid then
      execute (.finish row.seq .done (dumpsText f (ackJson (.acks acks))))
    else failOrRetry f c row "partial_ack"

/-- What stands inside the lock. An exception leaves it by the release. -/
def applySelected (c : WriteCoordinator V) :
    Except PyError (Option StoredRow) → StoredProg V (Except PyError (Option OpId))
  | .error e => return .error e
  | .ok none => return .ok none
  | .ok (some row) => do
    execute (.setState row.seq .inProgress)
    match operationOf f row with
    | .error e => return .error e
    | .ok op =>
      runOp f c row op
      return .ok (some op.opId)

def applyNext (c : WriteCoordinator V) : StoredProg V (Option OpId) := do
  execute .acquire
  let now ← Proc.performing .readClock StoredWorld.now
  let selected ← Proc.read fun w => selectEligible f w.opLog now
  let applied ← applySelected f c selected
  execute .release
  raising applied

def drain (c : WriteCoordinator V) : ℕ → StoredProg V ℕ
  | 0 => return 0
  | steps + 1 => do
    match ← applyNext f c with
    | none => return 0
    | some _ =>
      let applied ← drain c steps
      return applied + 1

def runUntilIdle (c : WriteCoordinator V) : StoredProg V ℕ := drain f c maxSteps

end Programs
end StrataMemory.StoredLog
