import Mathlib.Algebra.Group.Int.Defs
import StrataMemory.ReprTexts
import StrataMemory.Worlds

set_option autoImplicit false

/-! The single writer: a durable op log, per-record FIFO, destructive operations as
global barriers, bounded retries with exponential backoff. -/
namespace StrataMemory.Coordinator
open KeyedTables Records Tables Procedures Worlds

/-- A handler applies an operation to the adapters: acknowledgements, or an exception. -/
abbrev Handler (V : Type) := Operation → V → Except String Acks × V

structure WriteCoordinator (V : Type) where
  handlers : String → Option (Handler V)
  maxAttempts : ℕ := 5
  backoffBaseMs : ℕ := 50
  printable : Char → Bool := fun _ => true

section Scheduling

/-- `_blocked`: destructive operations are barriers both ways, and operations on a
shared id keep their order. -/
def blocked (op : OpRow) (earlier : List OpRow) : Bool :=
  if earlier.isEmpty then false
  else if earlier.any fun e => e.operation.isDestructive then true
  else if op.operation.isDestructive then true
  else earlier.any fun e => op.operation.targetIds.any (· ∈ e.operation.targetIds)

def runnable (op : OpRow) : Bool :=
  op.progress.state = .pending || op.progress.state = .partialFailure

def ready (now : Time) (op : OpRow) : Bool :=
  match op.progress.nextAttemptAt with
  | none => true
  | some t => t ≤ now

def selectFrom (now : Time) (earlier : List OpRow) : List OpRow → Option OpRow
  | [] => none
  | op :: rest =>
    if runnable op && ready now op && !blocked op earlier then some op
    else selectFrom now (earlier ++ [op]) rest

def notDone (log : OpLog) : List OpRow := log.rows.filter OpRow.isLive

def selectEligible (log : OpLog) (now : Time) : Option OpRow := selectFrom now [] (notDone log)

end Scheduling

section Procedures
variable {V : Type}

def enqueue (op : Operation) : Prog V OpId := do
  commit (.enqueue op)
  return op.opId

@[simp] theorem uses_enqueue (P : Commit V → Prop) (op : Operation) :
    (enqueue op : Prog V OpId).Uses P ↔ P (.enqueue op) :=
  ⟨And.left, fun h => ⟨h, fun _ => trivial⟩⟩

/-- `op.target or "unknown"`. -/
def ackTarget (op : Operation) : String :=
  match op.target with
  | none => "unknown"
  | some target => if target = "" then "unknown" else target

def recordAcks (op : Operation) (acks : Acks) : Prog V Unit :=
  op.targetIds.forM fun rid =>
    commit (.recordIndexAck rid (ackTarget op) op.opId (acks.get rid))

def failOrRetry (c : WriteCoordinator V) (row : OpRow) (reason : String) : Prog V Unit :=
  let attempts := row.progress.attempts + 1
  if c.maxAttempts ≤ attempts then commit (.failOp row.seq attempts reason)
  else commit (.deferOp row.seq attempts (c.backoffBaseMs * 2 ^ (attempts - 1)) reason)

/-- The handler call is one step on the adapters. -/
def invoke (handler : Handler V) (op : Operation) : Prog V (Except String Acks) :=
  Proc.performing (.memory fun v => (handler op v).2) fun w => (handler op w.memory).1

def targetRepr (c : WriteCoordinator V) : Option String → String
  | none => "None"
  | some target => ReprTexts.quoted c.printable target

/-- The text of a `KeyError` is the `repr` of its message. -/
def missingHandler (c : WriteCoordinator V) (op : Operation) : String :=
  ReprTexts.quoted c.printable ("no handler registered for target " ++ targetRepr c op.target)

def callHandler (c : WriteCoordinator V) (op : Operation) : Prog V (Except String Acks) :=
  match op.target.bind c.handlers with
  | none => return .error (missingHandler c op)
  | some handler => invoke handler op

def runOp (c : WriteCoordinator V) (row : OpRow) : Prog V Unit := do
  let op := row.operation
  match ← callHandler c op with
  | .error reason =>
    recordAcks op (op.targetIds.map fun rid => (rid, false))
    failOrRetry c row reason
  | .ok acks =>
    recordAcks op acks
    if op.targetIds.all fun rid => acks.get rid then commit (.finish row.seq acks .done)
    else failOrRetry c row "partial_ack"

/-- What `apply_next` does with its selection. -/
def applySelected (c : WriteCoordinator V) : Option OpRow → Prog V (Option OpId)
  | none => return none
  | some row => do
    commit (.setOpState row.seq .inProgress)
    runOp c row
    return some row.operation.opId

def applyNext (c : WriteCoordinator V) : Prog V (Option OpId) := do
  commit .acquire
  let now ← nowMs
  let selected ← query fun db => selectEligible db.opLog now
  let applied ← applySelected c selected
  commit .release
  return applied

def drain (c : WriteCoordinator V) : ℕ → Prog V ℕ
  | 0 => return 0
  | steps + 1 => do
    match ← applyNext c with
    | none => return 0
    | some _ =>
      let applied ← drain c steps
      return applied + 1

def maxSteps : ℕ := 10000

def runUntilIdle (c : WriteCoordinator V) : Prog V ℕ := drain c maxSteps

def recover : Prog V Unit := commit .recover

def retry (opId : OpId) : Prog V Unit := commit (.retryOp opId)

end Procedures
end StrataMemory.Coordinator
