import StrataMemory.CommitEffects
import StrataMemory.HandlerEffects
import StrataMemory.Interleavings
import StrataMemory.NodeRuns
import StrataMemory.PendingRows

set_option autoImplicit false

/-!
# An update and a deletion in flight

Two threads of a node, one inside `update_memory`, one inside `delete_memory`. Each commit
is one move, and an application of the queue runs under the write lock. A view is what
the threads can see of each other; the moves of a thread are steps between views.
-/
namespace StrataMemory.SharedViews
open KeyedTables Records Tables Procedures Worlds CommitEffects Coordinator PendingRows
open HandlerEffects Engine Gateway Interleavings

inductive Party where
  | update | deletion
  deriving DecidableEq

instance {V : Type} : Locks (Commit V) where
  takes c := match c with
    | .acquire => true
    | _ => false
  frees c := match c with
    | .release => true
    | _ => false

abbrev Shared := Moment Party (World Memory) (Commit Memory)

def race (s : Strata) (x : RecordId) (content : String) (mode : DeletionMode) (w : World Memory) :
    Config Party (World Memory) (Commit Memory) PyError Unit where
  programs
    | .update => discard (s.updateMemory x (some content))
    | .deletion => discard (s.deleteMemory x mode)
  moment := ⟨w, none, []⟩

section Histories

def isEnqueue : Commit Memory → Bool
  | .enqueue _ => true
  | _ => false

def isDraw : Commit Memory → Bool
  | .newOperationId => true
  | _ => false

/-- The commits that put content into the file or into the queue. -/
def isContent : Commit Memory → Bool
  | .write _ | .indexPosting .. | .enqueue _ => true
  | _ => false

def revives : Commit Memory → Bool
  | .write r => r.status ≠ .deleted
  | _ => false

def isTombstoneOf (x : RecordId) : Commit Memory → Bool
  | .tombstone id .. => id = x
  | _ => false

/-- Since the last event that answers there is none that asks (newest first). -/
def answered {α : Type} (asks answers : α → Bool) : List α → Bool
  | [] => true
  | e :: older => answers e || (!asks e && answered asks answers older)

/-- The deletion has queued a removal after the upsert of the update. -/
def removedLast (history : List (Party × Commit Memory)) : Bool :=
  answered (fun e => isEnqueue e.2 && decide (e.1 = .update))
    (fun e => isEnqueue e.2 && decide (e.1 = .deletion)) history

def tombstonedLast (x : RecordId) (history : List (Party × Commit Memory)) : Bool :=
  answered (fun e => revives e.2 && decide (e.1 = .update))
    (fun e => isTombstoneOf x e.2 && decide (e.1 = .deletion)) history

def tally (kind : Party × Commit Memory → Bool) : List (Party × Commit Memory) → ℕ
  | [] => 0
  | e :: older => tally kind older + (kind e).toNat

def contents : List (Party × Commit Memory) → ℕ :=
  tally fun e => isContent e.2 && decide (e.1 = .update)

def removals : List (Party × Commit Memory) → ℕ :=
  tally fun e => isEnqueue e.2 && decide (e.1 = .deletion)

def draws : List (Party × Commit Memory) → ℕ := tally fun e => isDraw e.2

def owner (base : OpId) : List (Party × Commit Memory) → OpId → Option Party
  | [], _ => none
  | e :: older, a => if isDraw e.2 && decide (a = base + draws older) then some e.1
    else owner base older a

theorem owner_lt {base : OpId} {history : List (Party × Commit Memory)} {a : OpId} {i : Party}
    (h : owner base history a = some i) : a < base + draws history := by
  induction history with
  | nil => cases h
  | cons e older ih =>
    unfold owner at h
    change a < base + (draws older + (isDraw e.2).toNat)
    split at h
    · rename_i hdraw
      rw [Bool.and_eq_true, decide_eq_true_eq] at hdraw
      rw [hdraw.1, hdraw.2]
      exact Nat.lt_succ_self _
    · exact (ih h).trans_le (Nat.add_le_add_left (Nat.le_add_right _ _) base)

end Histories

/-- What the two threads share of the file, the queue and the adapters. -/
structure View where
  posting : RecordId → Bool
  row : RecordId → Option MemoryRecord
  present : RecordId → Bool
  artifact : RecordId → Bool
  tombstoned : RecordId → Bool
  live : List OpRow
  holder : Option Party
  contents : ℕ
  removals : ℕ
  removed : Bool
  marked : Bool

def view (x : RecordId) (m : Shared) : View where
  posting := m.state.db.hasPosting
  row := m.state.db.readOne
  present := Memory.vectorContains "hot" m.state.memory
  artifact := m.state.memory.artifacts.contains
  tombstoned := m.state.db.isTombstoned
  live := notDone m.state.db.opLog
  holder := m.holder
  contents := contents m.history
  removals := removals m.history
  removed := removedLast m.history
  marked := tombstonedLast x m.history

inductive WriterMove (i : Party) (v : View) : View → Prop where
  | acquire (free : v.holder = none) : WriterMove i v { v with holder := some i }
  | release (held : v.holder = some i) (waiting : ∀ row ∈ v.live, Waiting row) :
      WriterMove i v { v with holder := none }
  | start {row : OpRow} {rest : List OpRow} (held : v.holder = some i)
      (front : v.live = row :: rest) (p : Progress) :
      WriterMove i v { v with live := { row with progress := p } :: rest }
  | handle {row : OpRow} {rest : List OpRow} (held : v.holder = some i)
      (front : v.live = row :: rest) :
      WriterMove i v { v with present := fun id => presentAfter row.operation id (v.present id) }
  | finish {row : OpRow} {rest : List OpRow} (held : v.holder = some i)
      (front : v.live = row :: rest)
      (applied : ∀ id, presentAfter row.operation id (v.present id) = v.present id) :
      WriterMove i v { v with live := rest }

inductive QueueMove (v : View) : View → Prop where
  | lock (holder : Option Party) : QueueMove v { v with holder := holder }
  | start {row : OpRow} {rest : List OpRow} (front : v.live = row :: rest) (p : Progress) :
      QueueMove v { v with live := { row with progress := p } :: rest }
  | handle {row : OpRow} {rest : List OpRow} (front : v.live = row :: rest) :
      QueueMove v { v with present := fun id => presentAfter row.operation id (v.present id) }
  | finish {row : OpRow} {rest : List OpRow} (front : v.live = row :: rest)
      (applied : ∀ id, presentAfter row.operation id (v.present id) = v.present id) :
      QueueMove v { v with live := rest }

inductive UpdateMove (x : RecordId) (v : View) : View → Prop where
  | idle : UpdateMove x v v
  | writer {u : View} (h : WriterMove .update v u) : UpdateMove x v u
  | unpost : UpdateMove x v { v with posting := fun id => id ≠ x && v.posting id }
  | write (row : MemoryRecord) (first : v.contents = 0) :
      UpdateMove x v { v with
        row := Function.update v.row x (some row), contents := 1
        marked := decide (row.status = .deleted) && v.marked }
  | post (second : v.contents = 1) :
      UpdateMove x v { v with posting := Function.update v.posting x true, contents := 2 }
  | enqueue {row : OpRow} (third : v.contents = 2) (waiting : Waiting row) :
      UpdateMove x v { v with live := v.live ++ [row], contents := 3, removed := false }

def Spares (i : Party) (v u : View) : Prop :=
  v.holder = some i → u.holder = some i ∧ u.present = v.present ∧
    ∃ more, u.live = v.live ++ more ∧ ∀ row ∈ more, Waiting row

def Quiet (v u : View) : Prop := u.live = v.live ∧ u.present = v.present ∨ QueueMove v u

def Around (x : RecordId) : Party → View → View → Prop
  | .deletion, v, u => UpdateMove x v u
  | .update, v, u => u.contents = v.contents ∧ Spares .update v u ∧
      (u.removed = false → v.removed = false ∧ Quiet v u)

theorem WriterMove.queueMove {i : Party} {v u : View} (h : WriterMove i v u) : QueueMove v u := by
  cases h with
  | acquire => exact .lock _
  | release => exact .lock _
  | start held front p => exact .start front p
  | handle held front => exact .handle front
  | finish held front applied => exact .finish front applied

theorem WriterMove.spares {i j : Party} (hij : j ≠ i) {v u : View} (h : WriterMove j v u) :
    Spares i v u := by
  intro hi
  cases h with
  | acquire free =>
    rw [free] at hi
    cases hi
  | release held | start held | handle held | finish held =>
    rw [held] at hi
    exact absurd (Option.some.inj hi) hij

theorem spares_of_eq {i : Party} {v u : View} (hholder : u.holder = v.holder)
    (hpresent : u.present = v.present) (hlive : u.live = v.live) : Spares i v u :=
  fun hi => ⟨hholder.trans hi, hpresent, [], hlive.trans (List.append_nil _).symm,
    fun _ h => absurd h List.not_mem_nil⟩

theorem UpdateMove.spares {x : RecordId} {v u : View} (h : UpdateMove x v u) :
    Spares .deletion v u := by
  cases h with
  | idle | unpost | write | post => exact spares_of_eq rfl rfl rfl
  | writer h => exact WriterMove.spares (by decide) h
  | enqueue third waiting =>
    refine fun hi => ⟨hi, rfl, [_], rfl, fun row hrow => ?_⟩
    cases List.mem_singleton.mp hrow
    exact waiting

theorem Around.spares {x : RecordId} {i : Party} {v u : View} (h : Around x i v u) :
    Spares i v u := by
  cases i with
  | update => exact h.2.1
  | deletion => exact UpdateMove.spares h

theorem QueueMove.contents_eq {v u : View} (h : QueueMove v u) : u.contents = v.contents := by
  cases h <;> rfl

theorem QueueMove.removed_eq {v u : View} (h : QueueMove v u) : u.removed = v.removed := by
  cases h <;> rfl

theorem QueueMove.length_le {v u : View} (h : QueueMove v u) : u.live.length ≤ v.live.length := by
  cases h with
  | lock => exact le_rfl
  | start front p =>
    rw [front]
    exact le_rfl
  | handle => exact le_rfl
  | finish front applied =>
    rw [front]
    exact Nat.le_succ _

theorem UpdateMove.contents_le {x : RecordId} {v u : View} (h : UpdateMove x v u) :
    v.contents ≤ u.contents := by
  cases h with
  | idle | unpost => exact le_rfl
  | writer h => exact h.queueMove.contents_eq.ge
  | write row first =>
    rw [first]
    exact Nat.zero_le _
  | post second =>
    rw [second]
    exact Nat.le_succ 1
  | enqueue third waiting =>
    rw [third]
    exact Nat.le_succ 2

def Front (m : Shared) (seq : ℕ) (op : Operation) : Prop :=
  ∃ row rest, notDone m.state.db.opLog = row :: rest ∧ row.seq = seq ∧ row.operation = op

def Served (op : Operation) : Prop :=
  op.target = some "hot" ∧ (op.opType = .removeIndex ∨
    op.opType = .upsertIndex ∧ ∀ id ∈ op.targetIds, ∃ rec ∈ op.records, rec.id = id)

def Present (m : Shared) (id : RecordId) : Bool := Memory.vectorContains "hot" m.state.memory id

structure Drawn (base : OpId) (i : Party) (a : OpId) (m : Shared) : Prop where
  drawn : owner base m.history a = some i
  unused : a ∉ m.state.db.opLog.rows.map fun r => r.operation.opId

inductive WriterStep (i : Party) (m : Shared) : Commit Memory → Prop where
  | acquire : WriterStep i m .acquire
  | clock : WriterStep i m .readClock
  | start {seq : ℕ} {op : Operation} (held : m.holder = some i) (front : Front m seq op) :
      WriterStep i m (.setOpState seq .inProgress)
  | handle {seq : ℕ} {op : Operation} (held : m.holder = some i) (front : Front m seq op) :
      WriterStep i m (.memory fun v => (makeHandler "hot" op v).2)
  | ack (id : RecordId) (name : String) (opId : OpId) (success : Bool) :
      WriterStep i m (.recordIndexAck id name opId success)
  | finish {seq : ℕ} {op : Operation} (held : m.holder = some i) (front : Front m seq op)
      (applied : ∀ id, presentAfter op id (Present m id) = Present m id) (acks : Acks) :
      WriterStep i m (.finish seq acks .done)
  | release (held : m.holder = some i)
      (waiting : ∀ row ∈ notDone m.state.db.opLog, Waiting row) : WriterStep i m .release

inductive UpdateStep (base : OpId) (x : RecordId) (m : Shared) : Commit Memory → Prop where
  | writer {c : Commit Memory} (h : WriterStep .update m c) : UpdateStep base x m c
  | draw : UpdateStep base x m .newOperationId
  | unpost : UpdateStep base x m (.removePostings [x])
  | write {r : MemoryRecord} (hr : r.id = x) (first : contents m.history = 0) :
      UpdateStep base x m (.write r)
  | post (content : String) (second : contents m.history = 1) :
      UpdateStep base x m (.indexPosting x content)
  | enqueue {op : Operation} (third : contents m.history = 2) (served : Served op)
      (drawn : Drawn base .update op.opId m) : UpdateStep base x m (.enqueue op)

inductive DeletionStep (base : OpId) (m : Shared) : Commit Memory → Prop where
  | writer {c : Commit Memory} (h : WriterStep .deletion m c) : DeletionStep base m c
  | draw : DeletionStep base m .newOperationId
  | tombstone (id : RecordId) (mode : DeletionMode) (jobId : OpId) (state : DeletionState) :
      DeletionStep base m (.tombstone id mode jobId state)
  | mark (id : RecordId) (state : DeletionState) (verifiedAt : Option Time) :
      DeletionStep base m (.setTombstoneState id state verifiedAt)
  | erase (id : RecordId) : DeletionStep base m (.hardDelete id)
  | rebuild : DeletionStep base m .rebuildPostings
  | unpost (ids : List RecordId) : DeletionStep base m (.removePostings ids)
  | enqueue {op : Operation} (few : removals m.history < 4) (served : Served op)
      (drawn : Drawn base .deletion op.opId m) : DeletionStep base m (.enqueue op)
  | enter (name : String) : DeletionStep base m (.surfaceRemove name)
  | dropArtifacts (ids : List RecordId) : DeletionStep base m
      (.memory fun v => { v with artifacts := v.artifacts.eraseAll ids })

def May (base : OpId) (x : RecordId) : Party → Shared → Commit Memory → Prop
  | .update => UpdateStep base x
  | .deletion => DeletionStep base

/-- What every commit keeps: the adapter answers, operation ids are fresh, the queue is
due whenever nobody holds the write lock, and one drain can empty it. -/
structure Sound (base : OpId) (m : Shared) : Prop where
  faults : m.state.memory.faults = fun _ => false
  drawn : m.state.operationIds = base + draws m.history
  known : ∀ row ∈ m.state.db.opLog.rows, row.operation.opId < m.state.operationIds
  served : ∀ row ∈ notDone m.state.db.opLog, Served row.operation
  free : m.holder = none → ∀ row ∈ notDone m.state.db.opLog, Waiting row
  room : (notDone m.state.db.opLog).length + 7 < maxSteps + contents m.history + removals m.history
  bound : contents m.history ≤ 3
  few : removals m.history ≤ 4
  late : removedLast m.history = false → contents m.history = 3

end StrataMemory.SharedViews
