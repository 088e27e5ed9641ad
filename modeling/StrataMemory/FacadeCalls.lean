import StrataMemory.BundleTexts
import StrataMemory.HttpServer
import StrataMemory.NodeRuns

set_option autoImplicit false

/-!
# The facade behind the wrapper

The methods of the facade take and return what JSON can hold: enumerations are texts that the
method converts, a record comes back as its summary, a job as its id.
-/
namespace StrataMemory.Records

def RecordType.value : RecordType → String
  | .fact => "fact"
  | .episode => "episode"
  | .profile => "profile"
  | .guardrail => "guardrail"
  | .reflection => "reflection"
  | .aggregation => "aggregation"
  | .skill => "skill"
  | .routine => "routine"
  | .system => "system"

def RecordType.all : List RecordType :=
  [.fact, .episode, .profile, .guardrail, .reflection, .aggregation, .skill, .routine, .system]

def Tier.all : List Tier := [.l0, .l1, .l1_5, .l2, .l3, .l4]

def Status.all : List Status :=
  [.candidate, .active, .reinforced, .stale, .superseded, .contradicted, .archived, .deleted]

def Sensitivity.all : List Sensitivity := [.normal, .personal, .sensitive, .secret]

end StrataMemory.Records

namespace StrataMemory.Tables

def DeletionMode.value : DeletionMode → String
  | .logical => "logical"
  | .hard => "hard"

def DeletionMode.all : List DeletionMode := [.logical, .hard]

def DeletionState.value : DeletionState → String
  | .requested => "requested"
  | .canonicalTombstoned => "canonical_tombstoned"
  | .indexDeleting => "index_deleting"
  | .partialFailure => "partial_failure"
  | .verified => "verified"
  | .manualAttention => "manual_attention"

end StrataMemory.Tables

namespace StrataMemory.FacadeCalls
open KeyedTables Records Tables Worlds CanonicalStore DeletionFlows Engine Gateway NodeRuns
open JsonTexts BundleTexts HttpServer
open ReprTexts (quoted)

structure Host where
  operationId : OpId → String
  operationId_injective : Function.Injective operationId

/-- The calls whose arguments have the types of the signatures. -/
inductive FacadeCall where
  | writeEvent (content : String)
  | writeMemory (content tier recordType sensitivity : String) (confidence : Option ℚ)
  | «recall» (query : String) (topK : ℤ) (diversity : Bool)
  | updateMemory (recordId : RecordId) (content status : Option String)
  | supersedeMemory (oldId : RecordId) (content : String)
  | deleteMemory (recordId : RecordId) (mode : DeletionMode)
  | deletionStatus (jobId : String)
  | explainMemory (recordId : RecordId)
  | runReflection (job : String)

def Int64 (n : ℤ) : Prop := -2 ^ 63 ≤ n ∧ n < 2 ^ 63

instance (n : ℤ) : Decidable (Int64 n) := inferInstanceAs (Decidable (_ ∧ _))

def asInt64 (v : Json ℚ) : Option ℤ := (asInt v).filter fun n => Int64 n

def asBool : Json ℚ → Option Bool
  | .bool b => some b
  | _ => none

/-- `Optional[float]`, of an integer that a float holds exactly. -/
def asConfidence : Json ℚ → Option (Option ℚ)
  | .null => some none
  | .int n => if -2 ^ 53 ≤ n ∧ n ≤ 2 ^ 53 then some (some n) else none
  | .float x => some (some x)
  | _ => none

/-- `Optional[str]`. -/
def asContent : Json ℚ → Option (Option String)
  | .null => some none
  | .str s => some (some s)
  | _ => none

/-- A mode is one of the two that the table of tombstones documents. -/
def asMode (v : Json ℚ) : Option DeletionMode :=
  (asString v).bind fun text => DeletionMode.all.find? fun mode => mode.value = text

/-- Positional and keyword arguments, with the defaults of the signatures. `budget_ms` and
`window` are accepted and not used. -/
def ofInvocation (i : Invocation ℚ) : Option FacadeCall :=
  match i.method, i.args with
  | .writeEvent, [content] => (asString content).map .writeEvent
  | .writeMemory, [content] => do
    let content ← asString content
    let tier ← optionalField asString i.kwargs "tier"
    let recordType ← optionalField asString i.kwargs "record_type"
    let sensitivity ← optionalField asString i.kwargs "sensitivity"
    let confidence ← optionalField asConfidence i.kwargs "confidence"
    return .writeMemory content (tier.getD "L1") (recordType.getD "fact")
      (sensitivity.getD "normal") (confidence.getD none)
  | .recall, [query] => do
    let query ← asString query
    let topK ← optionalField asInt64 i.kwargs "top_k"
    let diversity ← optionalField asBool i.kwargs "diversity"
    return .recall query (topK.getD 10) (diversity.getD false)
  | .updateMemory, [recordId] => do
    let recordId ← asInt64 recordId
    let content ← optionalField asContent i.kwargs "content"
    let status ← optionalField asString i.kwargs "status"
    return .updateMemory recordId (content.getD none) status
  | .supersedeMemory, [oldId, content] => do
    let oldId ← asInt64 oldId
    let content ← asString content
    return .supersedeMemory oldId content
  | .deleteMemory, [recordId] => do
    let recordId ← asInt64 recordId
    let mode ← optionalField asMode i.kwargs "mode"
    return .deleteMemory recordId (mode.getD .logical)
  | .deletionStatus, [jobId] => (asString jobId).map .deletionStatus
  | .explainMemory, [recordId] => (asInt64 recordId).map .explainMemory
  | .runReflection, [job] => (asString job).map .runReflection
  | _, _ => none

def parse {α : Type} (p : Platform) (all : List α) (value : α → String) (name text : String) :
    Except Raised α :=
  match all.find? fun a => value a = text with
  | none => .error (.other (quoted p.printable text ++ " is not a valid " ++ name))
  | some a => .ok a

/-- The arguments of `MemoryRecord.create`, in the order in which they are converted. -/
def fieldsOf (p : Platform) (tier recordType sensitivity : String) (confidence : Option ℚ) :
    Except Raised Fields := do
  let tier ← parse p Tier.all Tier.value "Tier" tier
  let recordType ← parse p RecordType.all RecordType.value "RecordType" recordType
  let sensitivity ← parse p Sensitivity.all Sensitivity.value "Sensitivity" sensitivity
  return { tier := tier, recordType := recordType, sensitivity := sensitivity
           confidence := confidence }

/-- `Status(patch["status"])`, which a content keeps from being read. -/
def patchOf (p : Platform) (content status : Option String) : Except Raised (Option Status) :=
  match content, status with
  | none, some text => (parse p Status.all Status.value "Status" text).map some
  | _, _ => .ok none

/-- `_summary`. -/
def summaryJson (r : MemoryRecord) : Json ℚ :=
  .obj [("id", .int r.id), ("content", .str r.content), ("tier", .str r.tier.value),
    ("record_type", .str r.recordType.value), ("status", .str r.status.value),
    ("sensitivity", .str r.sensitivity.value), ("content_hash", .str r.contentHash)]

def floatJson (x : Option ℚ) : Json ℚ := (x.map Json.float).getD .null

def textJson (text : Option String) : Json ℚ := (text.map Json.str).getD .null

def idsJson (ids : List RecordId) : Json ℚ := .arr (ids.map .int)

/-- `explain_memory`. Nothing writes a source span. -/
def explainJson (db : Db) (r : MemoryRecord) : Json ℚ :=
  .obj [("record", summaryJson r), ("confidence", floatJson r.confidence),
    ("confidence_reason", textJson r.confidenceReason),
    ("supersedes", idsJson (supersedersOf db r.id)),
    ("contradicts", idsJson (contradictorsOf db r.id)),
    ("related", idsJson (sortBy (fun id => id) (dependencyGraph db r.id))),
    ("source_spans", .arr []), ("tombstoned", .bool (db.isTombstoned r.id))]

def jobJson (h : Host) (jobId : OpId) : Json ℚ := .obj [("job_id", .str (h.operationId jobId))]

def statusJson (h : Host) (status : JobStatus) : Json ℚ :=
  .obj [("job_id", .str (h.operationId status.jobId)), ("mode", .str status.mode.value),
    ("state", .str status.state.value), ("record_ids", idsJson status.recordIds),
    ("verified", .bool status.verified)]

def reflectionJson (h : Host) (job : String) (ids : List OpId) : Json ℚ :=
  .obj [("job", .str job), ("proposal_ids", .arr (ids.map fun id => .str (h.operationId id))),
    ("count", .int ids.length)]

/-- The exceptions of a method with their texts; a row that is not there is named by its key. -/
def raisedBy (key : String) : PyError → Raised
  | .keyError => .keyError key
  | .valueError => .other "not enough values to unpack (expected at least 1, got 0)"
  | .integrityError => .other "FOREIGN KEY constraint failed"
  | .attributeError => .other "'NoneType' object has no attribute 'id'"

def outcome {α : Type} (key : String) (print : α → Json ℚ) (p : Prog Memory α) (w : World Memory) :
    Outcome ℚ × World Memory :=
  match p.run w with
  | (.ok a, u) => (.ok (print a), u)
  | (.error e, u) => (.error (raisedBy key e), u)

/-- `SELECT ... FROM tombstones WHERE job_id = ?`, for the text of a job id. -/
def jobNamed (h : Host) (db : Db) (text : String) : Option OpId :=
  (db.tombstones.values.find? fun t => h.operationId t.jobId = text).map Tombstone.jobId

/-- The methods of `Strata`. -/
def answer (s : Strata) (h : Host) (w : World Memory) : FacadeCall → Outcome ℚ × World Memory
  | .writeEvent content => outcome "" summaryJson (s.writeEvent content) w
  | .writeMemory content tier recordType sensitivity confidence =>
    match fieldsOf s.engine.platform tier recordType sensitivity confidence with
    | .error e => (.error e, w)
    | .ok fields => outcome "" summaryJson (s.writeMemory content fields) w
  | .recall query topK diversity => (.ok (toDict (s.recall w query topK diversity)), w)
  | .updateMemory recordId content status =>
    match patchOf s.engine.platform content status with
    | .error e =>
      (.error (if (w.db.readOne recordId).isSome then e else .keyError (toString recordId)), w)
    | .ok patch => outcome (toString recordId) summaryJson (s.updateMemory recordId content patch) w
  | .supersedeMemory oldId content => outcome "" summaryJson (s.supersedeMemory oldId content) w
  | .deleteMemory recordId mode => outcome "" (jobJson h) (s.deleteMemory recordId mode) w
  | .deletionStatus jobId =>
    match (jobNamed h w.db jobId).bind (deletionStatus w.db) with
    | none =>
      (.error (.keyError (quoted s.engine.platform.printable ("unknown deletion job " ++ jobId))), w)
    | some status => (.ok (statusJson h status), w)
  | .explainMemory recordId =>
    match w.db.readOne recordId with
    | none => (.error (.keyError (toString recordId)), w)
    | some r => (.ok (explainJson w.db r), w)
  | .runReflection job =>
    if job = "consolidate" then outcome "" (reflectionJson h job) s.reflection.consolidate w
    else if job = "contradiction_audit" then
      outcome "" (reflectionJson h job) ReflectionEngine.contradictionAudit w
    else (.error (.other ("unknown reflection job " ++ quoted s.engine.platform.printable job)), w)

def facade (s : Strata) (h : Host) : Facade (World Memory) ℚ := fun i w =>
  (ofInvocation i).map (answer s h w)

def calls (p : Platform) : FacadeCall → List Call
  | .writeEvent content => [.writeEvent content .system {}]
  | .writeMemory content tier recordType sensitivity confidence =>
    match fieldsOf p tier recordType sensitivity confidence with
    | .error _ => []
    | .ok fields => [.writeMemory content fields]
  | .updateMemory recordId content status =>
    match patchOf p content status with
    | .error _ => []
    | .ok patch => [.updateMemory recordId content patch]
  | .supersedeMemory oldId content => [.supersedeMemory oldId content {}]
  | .deleteMemory recordId mode => [.requestDeletion recordId mode true]
  | .runReflection job =>
    if job = "consolidate" then [.consolidate]
    else if job = "contradiction_audit" then [.contradictionAudit]
    else []
  | .recall _ _ _ => []
  | .deletionStatus _ => []
  | .explainMemory _ => []

end StrataMemory.FacadeCalls
