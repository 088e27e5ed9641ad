import StrataMemory.KeyedTables
import StrataMemory.Records

set_option autoImplicit false

namespace StrataMemory.HttpRoutes
open KeyedTables Records

/-- What `json.loads` gives for a value of the body; `nested` stands for an array or an object. -/
inductive Json where
  | null
  | bool (b : Bool)
  | int (n : ℤ)
  | float (q : ℚ)
  | str (s : String)
  | nested (text : String)
  deriving DecidableEq

inductive Method where
  | writeEvent | writeMemory | recall | updateMemory | supersedeMemory | deleteMemory
  | deletionStatus | explainMemory | runReflection
  deriving DecidableEq

structure Route where
  method : Method
  posKeys : List String
  kwKeys : List String
  deriving DecidableEq

/-- `_ROUTES`. -/
def routes : List (String × Route) :=
  [("/write_event", ⟨.writeEvent, ["content"], []⟩),
    ("/write_memory",
      ⟨.writeMemory, ["content"], ["tier", "record_type", "sensitivity", "confidence"]⟩),
    ("/recall", ⟨.recall, ["query"], ["top_k", "diversity", "budget_ms"]⟩),
    ("/update_memory", ⟨.updateMemory, ["record_id"], ["content", "status"]⟩),
    ("/supersede_memory", ⟨.supersedeMemory, ["old_id", "content"], []⟩),
    ("/delete_memory", ⟨.deleteMemory, ["record_id"], ["mode"]⟩),
    ("/deletion_status", ⟨.deletionStatus, ["job_id"], []⟩),
    ("/explain_memory", ⟨.explainMemory, ["record_id"], []⟩),
    ("/run_reflection", ⟨.runReflection, ["job"], ["window"]⟩)]

abbrev Body := Table String Json

/-- `getattr(strata, method_name)(*args, **kwargs)`. -/
structure Invocation where
  method : Method
  args : List Json
  kwargs : List (String × Json)
  deriving DecidableEq

inductive Refusal where
  | unknownEndpoint
  | missingField (key : String)
  deriving DecidableEq

/-- `[body[k] for k in pos_keys]`: the first missing key raises. -/
def argsOf (body : Body) : List String → Except Refusal (List Json)
  | [] => .ok []
  | k :: rest =>
    match body.get? k with
    | none => .error (.missingField k)
    | some v => (argsOf body rest).map (v :: ·)

/-- `{k: body[k] for k in kw_keys if k in body}`. -/
def kwargsOf (body : Body) (keys : List String) : List (String × Json) :=
  keys.filterMap fun k => (body.get? k).map fun v => (k, v)

/-- `do_POST`, up to the call. -/
def dispatch (path : String) (body : Body) : Except Refusal Invocation :=
  match routes.lookup path with
  | none => .error .unknownEndpoint
  | some route =>
    (argsOf body route.posKeys).map fun args =>
      ⟨route.method, args, kwargsOf body route.kwKeys⟩

theorem dispatch_supersede {body : Body} {i : Invocation} :
    dispatch "/supersede_memory" body = .ok i ↔ ∃ oldId content, body.get? "old_id" = some oldId ∧
      body.get? "content" = some content ∧ i = ⟨.supersedeMemory, [oldId, content], []⟩ := by
  have hroute : routes.lookup "/supersede_memory" =
      some ⟨.supersedeMemory, ["old_id", "content"], []⟩ := by decide
  unfold dispatch
  rw [hroute]
  simp only [argsOf, kwargsOf, List.filterMap_nil]
  cases body.get? "old_id" with
  | none => simp [Except.map]
  | some oldId =>
    cases body.get? "content" with
    | none => simp [Except.map]
    | some content => simp [Except.map, eq_comm]

end StrataMemory.HttpRoutes
