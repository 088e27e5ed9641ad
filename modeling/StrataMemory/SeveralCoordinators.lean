import Mathlib.Logic.Function.Basic
import Mathlib.Logic.Relation
import StrataMemory.Applications

set_option autoImplicit false

/-!
# Several coordinators over one log

Any number of coordinators is opened on one database, and any number of threads applies
through each. A coordinator has a write lock of its own, so what two coordinators know of
each other is what the log says.
-/
namespace StrataMemory.SeveralCoordinators
open Records Tables Procedures Worlds Coordinator CoordinatorRuns Applications

/-- Where a thread is in `apply_next`, past the lock. -/
inductive Stage where
  | locked
  | timed (now : Time)
  | selected (row : OpRow)
  | marked (row : OpRow)
  | handling (row : OpRow)
  | answered (row : OpRow) (result : Except String Acks) (unacked : List RecordId)
  | leaving

namespace Stage

/-- The row that is applied, from its selection to its outcome. -/
def row : Stage → Option OpRow
  | .selected row | .marked row | .handling row | .answered row _ _ => some row
  | _ => none

def begun : Stage → Option OpRow
  | .marked row | .handling row | .answered row _ _ => some row
  | _ => none

def handled : Stage → Option OpRow
  | .handling row => some row
  | _ => none

/-- The row whose outcome is awaited from its handler or has still to be marked. -/
def unsettled : Stage → Option OpRow
  | .handling row | .answered row _ _ => some row
  | _ => none

theorem row_of_begun {stage : Stage} {row : OpRow} (h : stage.begun = some row) :
    stage.row = some row := by
  cases stage <;> first | exact h | cases h

theorem begun_of_unsettled {stage : Stage} {row : OpRow} (h : stage.unsettled = some row) :
    stage.begun = some row := by
  cases stage <;> first | exact h | cases h

theorem begun_of_handled {stage : Stage} {row : OpRow} (h : stage.handled = some row) :
    stage.begun = some row := by
  cases stage <;> first | exact h | cases h

end Stage

/-- The threads of all processes, and the file that they share. `V` holds the adapters of
every process. -/
structure State (ι τ V : Type) where
  world : World V
  opened : ι → Bool
  writeLock : ι → Option τ
  threads : τ → Option (ι × Stage)

inductive Move (ι τ V : Type) where
  | construct (i : ι)
  | enqueue (i : ι) (op : Operation)
  | retry (i : ι) (opId : OpId)
  | lock (t : τ) (i : ι)
  | turn (t : τ)
  /-- A handler ends, with any answer and any effect on the adapters. -/
  | handlerEnd (t : τ) (result : Except String Acks) (memory : V)

section Moves
variable {ι τ V : Type}

/-- The next step of `apply_next`, until the lock is released. A handler that is called is
not ended by a step of the coordinator. -/
def advance (c : WriteCoordinator V) (w : World V) : Stage → Option Stage × World V
  | .locked => (some (.timed w.now), apply .readClock w)
  | .timed now =>
    match selectEligible w.db.opLog now with
    | none => (some .leaving, w)
    | some row => (some (.selected row), w)
  | .selected row => (some (.marked row), apply (.setOpState row.seq .inProgress) w)
  | .marked row =>
    match row.operation.target.bind c.handlers with
    | none =>
      (some (.answered row (.error (missingHandler c row.operation)) row.operation.targetIds), w)
    | some _ => (some (.handling row), w)
  | .handling row => (some (.handling row), w)
  | .answered row result (rid :: rest) =>
    (some (.answered row result rest),
      apply (.recordIndexAck rid (ackTarget row.operation) row.operation.opId
        ((reported row.operation result).get rid)) w)
  | .answered row result [] => (some .leaving, apply (closing c row result) w)
  | .leaving => (none, w)

theorem advance_timed (c : WriteCoordinator V) (w : World V) {now : Time} {selected : Option OpRow}
    (h : selectEligible w.db.opLog now = selected) :
    advance c w (.timed now) = (some (selected.elim .leaving .selected), w) := by
  cases selected <;> simp only [advance, h, Option.elim]

theorem advance_marked {c : WriteCoordinator V} (w : World V) {row : OpRow}
    {handler : Option (Handler V)} (h : row.operation.target.bind c.handlers = handler) :
    advance c w (.marked row) = (some (handler.elim (.answered row
      (.error (missingHandler c row.operation)) row.operation.targetIds) fun _ =>
        .handling row), w) := by
  cases handler <;> simp only [advance, h, Option.elim]

variable [DecidableEq ι] [DecidableEq τ]

/-- A move that is not possible leaves everything as it is: a coordinator is opened once, and
a thread waits for the lock. -/
def move (cs : ι → WriteCoordinator V) (m : State ι τ V) : Move ι τ V → State ι τ V
  | .construct i =>
    if m.opened i then m
    else { m with world := apply .recover m.world, opened := Function.update m.opened i true }
  | .enqueue i op => if m.opened i then { m with world := apply (.enqueue op) m.world } else m
  | .retry i opId => if m.opened i then { m with world := apply (.retryOp opId) m.world } else m
  | .lock t i =>
    if m.opened i && (m.threads t).isNone && (m.writeLock i).isNone then
      { m with
        writeLock := Function.update m.writeLock i (some t)
        threads := Function.update m.threads t (some (i, .locked)) }
    else m
  | .turn t =>
    match m.threads t with
    | none => m
    | some (i, stage) =>
      match advance (cs i) m.world stage with
      | (some next, w) =>
        { m with world := w, threads := Function.update m.threads t (some (i, next)) }
      | (none, w) =>
        { m with
          world := w
          writeLock := Function.update m.writeLock i none
          threads := Function.update m.threads t none }
  | .handlerEnd t result memory =>
    match m.threads t with
    | some (i, .handling row) =>
      { m with
        world := { m.world with memory := memory }
        threads := Function.update m.threads t
          (some (i, .answered row result row.operation.targetIds)) }
    | _ => m

inductive Moved (cs : ι → WriteCoordinator V) (m : State ι τ V) : Move ι τ V → State ι τ V → Prop where
  | idle (mv : Move ι τ V) : Moved cs m mv m
  | construct {i : ι} (closed : m.opened i = false) : Moved cs m (.construct i)
      { m with world := apply .recover m.world, opened := Function.update m.opened i true }
  | enqueue (i : ι) (op : Operation) :
      Moved cs m (.enqueue i op) { m with world := apply (.enqueue op) m.world }
  | retry (i : ι) (opId : OpId) :
      Moved cs m (.retry i opId) { m with world := apply (.retryOp opId) m.world }
  | lock {t : τ} {i : ι} (free : m.writeLock i = none) : Moved cs m (.lock t i)
      { m with
        writeLock := Function.update m.writeLock i (some t)
        threads := Function.update m.threads t (some (i, .locked)) }
  | turn {t : τ} {i : ι} {stage next : Stage} {w : World V} (at_stage : m.threads t = some (i, stage))
      (advanced : advance (cs i) m.world stage = (some next, w)) : Moved cs m (.turn t)
      { m with world := w, threads := Function.update m.threads t (some (i, next)) }
  | release {t : τ} {i : ι} (at_stage : m.threads t = some (i, .leaving)) : Moved cs m (.turn t)
      { m with
        writeLock := Function.update m.writeLock i none
        threads := Function.update m.threads t none }
  | handlerEnd {t : τ} {i : ι} {row : OpRow} (at_stage : m.threads t = some (i, .handling row))
      (result : Except String Acks) (memory : V) : Moved cs m (.handlerEnd t result memory)
      { m with
        world := { m.world with memory := memory }
        threads := Function.update m.threads t
          (some (i, .answered row result row.operation.targetIds)) }

theorem advance_none {c : WriteCoordinator V} {w u : World V} {stage : Stage}
    (h : advance c w stage = (none, u)) : stage = .leaving ∧ u = w := by
  cases stage with
  | timed now =>
    rw [advance_timed c w rfl] at h
    cases h
  | marked row =>
    rw [advance_marked w rfl] at h
    cases h
  | answered row result unacked => cases unacked <;> cases h
  | leaving =>
    cases h
    exact ⟨rfl, rfl⟩
  | locked | selected row | handling row => cases h

theorem move_moved (cs : ι → WriteCoordinator V) (m : State ι τ V) (mv : Move ι τ V) :
    Moved cs m mv (move cs m mv) := by
  cases mv with
  | construct i =>
    unfold move
    dsimp only
    split
    · exact .idle _
    · rename_i hclosed
      exact .construct (Bool.eq_false_iff.mpr hclosed)
  | enqueue i op =>
    unfold move
    dsimp only
    split
    · exact .enqueue i op
    · exact .idle _
  | retry i opId =>
    unfold move
    dsimp only
    split
    · exact .retry i opId
    · exact .idle _
  | lock t i =>
    unfold move
    dsimp only
    split
    · rename_i hfree
      simp only [Bool.and_eq_true, Option.isNone_iff_eq_none] at hfree
      exact .lock hfree.2
    · exact .idle _
  | turn t =>
    unfold move
    dsimp only
    split
    · exact .idle _
    · rename_i i stage ht
      split
      · rename_i next w hadvanced
        exact .turn ht hadvanced
      · rename_i w hadvanced
        obtain ⟨rfl, rfl⟩ := advance_none hadvanced
        exact .release ht
  | handlerEnd t result memory =>
    unfold move
    dsimp only
    split
    · rename_i i row ht
      exact .handlerEnd ht result memory
    · exact .idle _

end Moves

section Solo
variable {ι τ V : Type} [DecidableEq ι] [DecidableEq τ]

inductive Solo (c : ι → WriteCoordinator V) (t : τ) (m : State ι τ V) : State ι τ V → Prop where
  | lock (i : ι) : Solo c t m (move c m (.lock t i))
  | turn : Solo c t m (move c m (.turn t))
  | handlerEnd {i : ι} {row : OpRow} (called : m.threads t = some (i, .handling row)) :
      Solo c t m (move c m (.handlerEnd t (answer (c i) row.operation m.world.memory).1
        (answer (c i) row.operation m.world.memory).2))

variable {c : ι → WriteCoordinator V} {m : State ι τ V} {t : τ} {i : ι} {w : World V}

def during (m : State ι τ V) (t : τ) (i : ι) (stage : Stage) (w : World V) : State ι τ V :=
  { m with
    world := w
    writeLock := Function.update m.writeLock i (some t)
    threads := Function.update m.threads t (some (i, stage)) }

theorem threads_during {stage : Stage} : (during m t i stage w).threads t = some (i, stage) :=
  Function.update_self t _ _

theorem turn_during {stage next : Stage} {u : World V}
    (h : advance (c i) w stage = (some next, u)) :
    Solo c t (during m t i stage w) (during m t i next u) := by
  have hturn : move c (during m t i stage w) (.turn t) = during m t i next u := by
    unfold move
    simp only [threads_during]
    change (match advance (c i) w stage with | (some next, w) => _ | (none, w) => _) = _
    rw [h]
    simp only [during, Function.update_idem]
  exact hturn ▸ .turn

theorem handlerEnd_during {row : OpRow} :
    Solo c t (during m t i (.handling row) w)
      (during m t i (.answered row (answer (c i) row.operation w.memory).1 row.operation.targetIds)
        { w with memory := (answer (c i) row.operation w.memory).2 }) := by
  have hmove : ∀ result memory, move c (during m t i (.handling row) w) (.handlerEnd t result memory) =
      during m t i (.answered row result row.operation.targetIds) { w with memory := memory } := by
    intro result memory
    unfold move
    simp only [threads_during]
    simp only [during, Function.update_idem]
  have hsolo : Solo c t (during m t i (.handling row) w) _ := .handlerEnd threads_during
  rwa [hmove] at hsolo

theorem leave_during (hout : m.threads t = none) (hfree : m.writeLock i = none) :
    Solo c t (during m t i .leaving w) { m with world := w } := by
  have hturn : move c (during m t i .leaving w) (.turn t) = { m with world := w } := by
    unfold move
    simp only [threads_during]
    simp only [advance, during, Function.update_idem]
    rw [← hout, ← hfree, Function.update_eq_self, Function.update_eq_self]
  exact hturn ▸ .turn

theorem lock_during (hopened : m.opened i = true) (hout : m.threads t = none)
    (hfree : m.writeLock i = none) : Solo c t m (during m t i .locked m.world) := by
  have hlock : move c m (.lock t i) = during m t i .locked m.world := by
    unfold move
    simp [hopened, hout, hfree, during]
  exact hlock ▸ .lock i

theorem acks_during (row : OpRow) (result : Except String Acks) (rids : List RecordId)
    (w : World V) : ∃ u, (rids.forM fun rid => (commit (.recordIndexAck rid
        (ackTarget row.operation) row.operation.opId
        ((reported row.operation result).get rid)) : Prog V PUnit)).run w = (.ok (), u) ∧
      Relation.ReflTransGen (Solo c t) (during m t i (.answered row result rids) w)
        (during m t i (.answered row result []) u) := by
  induction rids generalizing w with
  | nil => exact ⟨w, rfl, .refl⟩
  | cons rid rest ih =>
    obtain ⟨u, hrun, hsolo⟩ := ih (apply (.recordIndexAck rid (ackTarget row.operation)
      row.operation.opId ((reported row.operation result).get rid)) w)
    exact ⟨u, hrun, .head (turn_during rfl) hsolo⟩

theorem runOp_during (row : OpRow) (w : World V) :
    Relation.ReflTransGen (Solo c t) (during m t i (.marked row) w)
      (during m t i .leaving ((runOp (c i) row).final w)) := by
  let result := (answer (c i) row.operation w.memory).1
  let v : World V := { w with memory := (answer (c i) row.operation w.memory).2 }
  obtain ⟨u, hrun, hacks⟩ := acks_during (c := c) (m := m) (t := t) (i := i) row result
    row.operation.targetIds v
  have hfinal : (runOp (c i) row).final w = apply (closing (c i) row result) u := by
    have hcall : (callHandler (c i) row.operation).run w = (.ok result, v) :=
      callHandler_answer (c i) row.operation w
    rw [runOp_eq, Proc.final_bind_ok hcall]
    exact Proc.final_bind_ok hrun
  have hanswered : Relation.ReflTransGen (Solo c t) (during m t i (.marked row) w)
      (during m t i (.answered row result row.operation.targetIds) v) := by
    cases hhandler : row.operation.target.bind (c i).handlers with
    | none =>
      have hanswer : answer (c i) row.operation w.memory =
          (.error (missingHandler (c i) row.operation), w.memory) := by
        unfold answer
        rw [hhandler]
      unfold result v
      rw [hanswer]
      exact .single (turn_during (advance_marked w hhandler))
    | some handler =>
      exact .head (turn_during (advance_marked w hhandler)) (.single handlerEnd_during)
  rw [hfinal]
  exact (hanswered.trans hacks).tail (turn_during rfl)

/-- Alone, a thread does what `apply_next` does. -/
theorem applyNext_solo (hopened : m.opened i = true) (hout : m.threads t = none)
    (hfree : m.writeLock i = none) :
    Relation.ReflTransGen (Solo c t) m { m with world := (applyNext (c i)).final m.world } := by
  have hlock : Solo c t m (during m t i .locked m.world) := lock_during hopened hout hfree
  let v := apply .readClock m.world
  have htimed : Solo c t (during m t i .locked m.world) (during m t i (.timed m.world.now) v) :=
    turn_during rfl
  have hleave : ∀ u, Solo c t (during m t i .leaving u) { m with world := u } := fun u =>
    leave_during hout hfree
  cases hselected : selectEligible m.world.db.opLog m.world.now with
  | none =>
    have hfinal : (applyNext (c i)).final m.world = v := by
      rcases applyNext_run (c i) m.world with ⟨_, hrun⟩ | ⟨row, _, _, hsome, _⟩
      · exact Proc.final_of_run hrun
      · rw [hselected] at hsome
        cases hsome
    have hnone : advance (c i) v (.timed m.world.now) = (some .leaving, v) :=
      advance_timed (c i) v hselected
    rw [hfinal]
    exact .head hlock (.head htimed (.head (turn_during hnone) (.single (hleave v))))
  | some row =>
    let u := apply (.setOpState row.seq .inProgress : Commit V) v
    have hsome : advance (c i) v (.timed m.world.now) = (some (.selected row), v) :=
      advance_timed (c i) v hselected
    have hfinal : (applyNext (c i)).final m.world = (runOp (c i) row).final u := by
      obtain ⟨_, hrun⟩ := (runOp_returns (c i) row).run u
      have happlied : (applySelected (c i) (some row)).run v =
          (.ok (some row.operation.opId), (runOp (c i) row).final u) := by
        rw [Proc.final_of_run hrun]
        exact Proc.run_bind_ok hrun
      have hnext : (applyNext (c i)).run m.world =
          (applySelected (c i) (selectEligible m.world.db.opLog m.world.now) >>=
            fun applied => commit .release >>= fun _ => pure applied).run v := rfl
      rw [hselected, Proc.run_bind_ok happlied] at hnext
      exact Proc.final_of_run hnext
    rw [hfinal]
    refine .head hlock (.head htimed (.head (turn_during hsome) (.head (turn_during rfl) ?_)))
    exact (runOp_during row u).tail (hleave _)

end Solo

end StrataMemory.SeveralCoordinators
