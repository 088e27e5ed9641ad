import StrataMemory.DeletionInFlight
import StrataMemory.UpdateInFlight

set_option autoImplicit false

namespace StrataMemory.DeletionRaces
open KeyedTables Records Tables Procedures Worlds Coordinator
open Engine Gateway NodeRuns Interleavings SharedViews SharedQueue
open PurgeFacts DeletionInFlight UpdateInFlight

/-- The adapter answers, no operation id is drawn twice, and what is in the queue is due
and can be carried out, within one drain. -/
structure Due (w : World Memory) : Prop where
  answers : w.memory.faults = fun _ => false
  fresh : ∀ row ∈ w.db.opLog.rows, row.operation.opId < w.operationIds
  served : ∀ row ∈ notDone w.db.opLog, Served row.operation
  waiting : ∀ row ∈ notDone w.db.opLog, PendingRows.Waiting row
  room : (notDone w.db.opLog).length + 7 < maxSteps

structure Deleted (x : RecordId) (mode : DeletionMode) (w : World Memory) : Prop where
  posting : w.db.hasPosting x = false
  vector : Memory.vectorContains "hot" w.memory x = false
  status : ∀ row, w.db.readOne x = some row → row.status = .deleted
  row : mode = .hard → w.db.readOne x = none

theorem sound_start {w : World Memory} (h : Due w) : Sound w.operationIds ⟨w, none, []⟩ where
  faults := h.answers
  drawn := rfl
  known := h.fresh
  served := h.served
  free _ := h.waiting
  room := h.room
  bound := Nat.zero_le 3
  few := Nat.zero_le 4
  late h := by cases h

section Races
variable {s : Strata} {x : RecordId} {content : String} {mode : DeletionMode} {w : World Memory}

theorem race_ended (hnames : s.engine.vectorNames = ["hot"]) (hw : Due w) {schedule : List Party}
    (hended : Ended (play (race s x content mode w) schedule)) :
    let m := (play (race s x content mode w) schedule).moment
    Over x (view x m) ∧ DeletedIn x mode (view x m) := by
  let Q : Party → Except PyError Unit → Shared → Prop := fun i _ m =>
    (i = .update → Over x (view x m)) ∧ (i = .deletion → DeletedIn x mode (view x m))
  have hmeets : ∀ i, Meets (May w.operationIds x) i (Q i) ((race s x content mode w).programs i)
      (race s x content mode w).moment := by
    intro i
    cases i with
    | update =>
      refine (update_outline hnames content _ ⟨sound_start hw, rfl⟩).mono fun r m hr => ?_
      have hover : Over x (view x m) := by
        cases r with
        | error e => exact hr.2
        | ok _ => exact hr.2
      exact ⟨fun _ => hover, fun h => absurd h (by decide)⟩
    | deletion =>
      have hguarded : Guarded x [] mode 0 (view x ⟨w, none, []⟩) :=
        ⟨fun _ h => absurd h List.not_mem_nil, rfl, fun h => absurd h List.not_mem_nil,
          fun h => absurd h List.not_mem_nil⟩
      refine (deletion_outline hnames mode _ ⟨sound_start hw, hguarded⟩).mono fun r m hr => ?_
      have hdeleted : DeletedIn x mode (view x m) := by
        cases r with
        | error e => exact hr.elim
        | ok _ => exact hr.2
      exact ⟨fun h => absurd h (by decide), fun _ => hdeleted⟩
  obtain ⟨_, hover⟩ := ended_play hmeets hended .update
  obtain ⟨_, hdeleted⟩ := ended_play hmeets hended .deletion
  exact ⟨hover.1 rfl, hdeleted.2 rfl⟩

/-- When both calls have ended the queue is drained, and the record is deleted if and only
if the deletion queued a removal after the update queued its upsert and, in the logical
mode, marked the row after the update wrote it. -/
theorem deleted_iff_last (hnames : s.engine.vectorNames = ["hot"]) (hw : Due w)
    (schedule : List Party) (hended : Ended (play (race s x content mode w) schedule)) :
    let m := (play (race s x content mode w) schedule).moment
    notDone m.state.db.opLog = [] ∧ (Deleted x mode m.state ↔
      removedLast m.history = true ∧ (mode = .logical → tombstonedLast x m.history = true)) := by
  intro m
  have hends : Over x (view x m) ∧ DeletedIn x mode (view x m) := race_ended hnames hw hended
  obtain ⟨⟨hcount, hput⟩, ids, r, ⟨hx, hguarded⟩, k, hanswer, hsince⟩ := hends
  cases hremoved : removedLast m.history with
  | false =>
    obtain ⟨hlive, hpresent⟩ := hput hremoved
    refine ⟨hlive, fun h => ?_, fun h => absurd h.1 Bool.false_ne_true⟩
    have hput : Memory.vectorContains "hot" m.state.memory x = true :=
      hpresent x List.mem_cons_self
    rw [h.vector] at hput
    cases hput
  | true =>
    have hlast : (view x m).contents = k := by
      have hk := hsince.1
      rcases hcount with hcount | hcount
      · omega
      · have hthree := hanswer hremoved hcount
        omega
    obtain ⟨⟨⟨hlive, hpresent⟩, hunposted⟩, herased⟩ := hsince.2 hlast
    refine ⟨hlive, fun h => ⟨rfl, fun hmode => ?_⟩, fun h => ?_⟩
    · by_contra hmarked
      obtain ⟨_, row, hrow, hstatus⟩ :=
        hguarded.rewritten hx hmode (Bool.eq_false_iff.mpr hmarked)
      exact hstatus (h.status row hrow)
    · have hnone : mode = .hard → m.state.db.readOne x = none := fun hmode => herased hmode x hx
      refine ⟨hunposted x hx, hpresent x hx, fun row hrow => ?_, hnone⟩
      cases mode with
      | logical => exact hguarded.marked hx (h.2 rfl) row hrow
      | hard =>
        rw [hnone rfl] at hrow
        cases hrow

end Races

def oneRecord : World Memory := runCalls plainStrata plainWorld [.writeMemory "tea" { id := some 1 }]

theorem oneRecord_due : Due oneRecord := by
  have hdrained : notDone oneRecord.db.opLog = [] := by decide
  refine ⟨rfl, by decide, ?_, ?_, ?_⟩
  · rw [hdrained]
    exact fun _ h => absurd h List.not_mem_nil
  · rw [hdrained]
    exact fun _ h => absurd h List.not_mem_nil
  · rw [hdrained]
    decide

set_option maxRecDepth 20000 in
theorem deleted_iff_last_oneRecord :
    let schedule := List.replicate 100 Party.update ++ List.replicate 100 Party.deletion
    let m := (play (race plainStrata 1 "green tea" .hard oneRecord) schedule).moment
    notDone m.state.db.opLog = [] ∧ (Deleted 1 .hard m.state ↔
      removedLast m.history = true ∧
        (DeletionMode.hard = .logical → tombstonedLast 1 m.history = true)) :=
  deleted_iff_last rfl oneRecord_due _ fun i => by cases i <;> decide

set_option maxRecDepth 20000 in
/-- In the logical mode the last removal alone does not decide: here the row is written
after its tombstone. -/
example :
    let schedule := .update :: List.replicate 3 Party.deletion ++ List.replicate 100 .update ++
      List.replicate 100 .deletion
    let m := (play (race plainStrata 1 "green tea" .logical oneRecord) schedule).moment
    removedLast m.history = true ∧ tombstonedLast 1 m.history = false ∧
      (m.state.db.readOne 1).map MemoryRecord.status = some .active := by
  decide

/-- The update has read the record before the deletion starts, and writes it again after
the deletion has been verified. -/
def lateWrite : List Party := .update :: List.replicate 100 .deletion ++ List.replicate 100 .update

set_option maxRecDepth 20000 in
theorem resurrected_by_update_in_flight :
    let c := play (race plainStrata 1 "green tea" .hard oneRecord) lateWrite
    Ended c ∧ notDone c.moment.state.db.opLog = [] ∧ ¬Deleted 1 .hard c.moment.state ∧
      c.moment.state.db.hasPosting 1 = true ∧
      Memory.vectorContains "hot" c.moment.state.memory 1 = true ∧
      (c.moment.state.db.readOne 1).isSome = true := by
  intro c
  have hended : Ended c := fun i => by cases i <;> decide
  have hposting : c.moment.state.db.hasPosting 1 = true := by decide
  refine ⟨hended, by decide, fun h => ?_, hposting, by decide, by decide⟩
  rw [h.posting] at hposting
  cases hposting

end StrataMemory.DeletionRaces
