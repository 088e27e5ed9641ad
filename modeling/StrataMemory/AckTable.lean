import StrataMemory.QueueRuns

set_option autoImplicit false

/-!
# The acknowledgement table against the op log

`index_acknowledgements` keeps what each adapter last said of each target of each
operation. It is written before the row is closed, one id at a time, so it has to tell
the truth wherever the process dies.
-/
namespace StrataMemory.AckTable
open KeyedTables Records Tables Procedures Worlds Coordinator CoordinatorRuns Applications
open QueueRuns

section Honesty
variable {V : Type} (c : WriteCoordinator V)

abbrev AckKey := RecordId × String × OpId

def ackKey (op : Operation) (id : RecordId) : AckKey := (id, ackTarget op, op.opId)

def acked (db : Db) (op : Operation) (id : RecordId) : Option Bool :=
  (db.indexAcks.get? (ackKey op id)).map IndexAck.success

/-- The adapter has been called, and has acknowledged the target. -/
def Confirmed (calls : List HandlerCall) (op : Operation) (id : RecordId) : Prop :=
  ∃ call ∈ calls, call.operation = op ∧ call.succeededOn id = true

structure RowHonest (db : Db) (row : OpRow) : Prop where
  done : row.progress.state = .done →
    ∀ id ∈ row.operation.targetIds, acked db row.operation id = some true
  refused : row.progress.state = .partialFailure ∨ row.progress.state = .failed →
    row.operation.targetIds ≠ [] →
      ∃ id ∈ row.operation.targetIds, acked db row.operation id = some false
  exhausted : row.progress.state = .failed → c.maxAttempts ≤ row.progress.attempts
  deferred : row.progress.state = .partialFailure →
    0 < row.progress.attempts ∧ row.progress.attempts < c.maxAttempts ∧
      row.progress.nextAttemptAt.isSome = true

/-- An acknowledgement belongs to a target of a queued operation, and a success was given. -/
def AckHonest (db : Db) (calls : List HandlerCall) (key : AckKey) (a : IndexAck) : Prop :=
  ∃ row ∈ db.opLog.rows, ∃ id ∈ row.operation.targetIds, key = ackKey row.operation id ∧
    (a.success = true → Confirmed calls row.operation id)

structure Honest (w : World (V × List HandlerCall)) : Prop where
  rows : ∀ row ∈ w.db.opLog.rows, RowHonest c w.db row
  acks : ∀ key a, w.db.indexAcks.get? key = some a → AckHonest w.db w.memory.2 key a

/-- What an application may commit, and when. -/
def Accountable : Commit (V × List HandlerCall) → World (V × List HandlerCall) → Prop
  | .readClock, _ | .acquire, _ | .release, _ => True
  | .memory f, _ => ∀ v, v.2 <+: (f v).2
  | .setOpState _ state, _ => state = .inProgress
  | .recordIndexAck id name opId success, w =>
    ∃ row ∈ w.db.opLog.rows, row.progress.state = .inProgress ∧ id ∈ row.operation.targetIds ∧
      (id, name, opId) = ackKey row.operation id ∧
        (success = true → Confirmed w.memory.2 row.operation id)
  | .finish seq _ state, w => state = .done ∧ ∀ row ∈ w.db.opLog.rows, row.seq = seq →
      ∀ id ∈ row.operation.targetIds, acked w.db row.operation id = some true
  | .failOp seq attempts _, w => c.maxAttempts ≤ attempts ∧ ∀ row ∈ w.db.opLog.rows, row.seq = seq →
      row.operation.targetIds ≠ [] →
        ∃ id ∈ row.operation.targetIds, acked w.db row.operation id = some false
  | .deferOp seq attempts _ _, w => 0 < attempts ∧ attempts < c.maxAttempts ∧
      ∀ row ∈ w.db.opLog.rows, row.seq = seq → row.operation.targetIds ≠ [] →
        ∃ id ∈ row.operation.targetIds, acked w.db row.operation id = some false
  | _, _ => False

variable {c}

theorem honest_advance {w t : World (V × List HandlerCall)} (hw : Honest c w) {p : OpRow → Bool}
    {f : Progress → Progress} (hlog : t.db.opLog = w.db.opLog.advance p f)
    (hacks : t.db.indexAcks = w.db.indexAcks) (hmemory : t.memory = w.memory)
    (hrow : ∀ row ∈ w.db.opLog.rows, p row = true →
      RowHonest c w.db { row with progress := f row.progress }) : Honest c t where
  rows row hmem := by
    have hsame : RowHonest c w.db row := by
      rcases mem_advance_rows (hlog ▸ hmem) with ⟨hold, _⟩ | ⟨old, hold, hp, rfl⟩
      · exact hw.rows row hold
      · exact hrow old hold hp
    have hacked : acked t.db row.operation = acked w.db row.operation := by
      funext id
      unfold acked
      rw [hacks]
    exact ⟨by rw [hacked]; exact hsame.done, by rw [hacked]; exact hsame.refused, hsame.exhausted,
      hsame.deferred⟩
  acks key a ha := by
    rw [hacks] at ha
    obtain ⟨row, hmem, id, hid, hkey, hconfirmed⟩ := hw.acks key a ha
    obtain ⟨q, hq⟩ := exists_mem_advance hmem p f
    exact ⟨{ row with progress := q }, hlog ▸ hq, id, hid, hkey, hmemory ▸ hconfirmed⟩

theorem rowHonest_open {db : Db} {row : OpRow}
    (hstate : row.progress.state = .pending ∨ row.progress.state = .inProgress) :
    RowHonest c db row := by
  rcases hstate with h | h <;> constructor <;> rw [h] <;> simp

theorem acked_record {w : World (V × List HandlerCall)} (op : Operation) (id other : RecordId)
    (success : Bool) :
    acked (apply (.recordIndexAck id (ackTarget op) op.opId success :
      Commit (V × List HandlerCall)) w).db op other =
        if id = other then some success else acked w.db op other := by
  unfold acked
  change ((w.db.indexAcks.set (ackKey op id) _).get? (ackKey op other)).map _ = _
  by_cases h : id = other
  · rw [if_pos h, h, Table.get?_set_self]
    rfl
  · rw [if_neg h, Table.get?_set_of_ne _ _ fun hkey => h (congrArg Prod.fst hkey)]

theorem honest_record {w : World (V × List HandlerCall)} (hw : Honest c w) {id : RecordId}
    {name : String} {opId : OpId} {success : Bool}
    (h : Accountable c (.recordIndexAck id name opId success) w) :
    Honest c (apply (.recordIndexAck id name opId success) w) := by
  obtain ⟨row, hrow, hstate, hid, hkey, hconfirmed⟩ := h
  have hset : ∀ key, (apply (.recordIndexAck id name opId success) w).db.indexAcks.get? key =
      if (id, name, opId) = key then some ⟨success, w.now⟩ else w.db.indexAcks.get? key :=
    fun key => Table.get?_set _ _ _ _
  have hopId : opId = row.operation.opId := congrArg (fun key : AckKey => key.2.2) hkey
  refine ⟨fun other hother => ?_, fun key a ha => ?_⟩
  · by_cases heq : other.operation.opId = opId
    · cases row_unique hother hrow (heq.trans hopId)
      exact rowHonest_open (.inr hstate)
    · have hacked : acked (apply (.recordIndexAck id name opId success) w).db other.operation =
          acked w.db other.operation := by
        funext i
        unfold acked
        rw [hset, if_neg fun h => heq (congrArg (fun key : AckKey => key.2.2) h).symm]
      have hsame := hw.rows other hother
      exact ⟨by rw [hacked]; exact hsame.done, by rw [hacked]; exact hsame.refused,
        hsame.exhausted, hsame.deferred⟩
  · rw [hset] at ha
    split at ha
    · rename_i heq
      cases ha
      exact ⟨row, hrow, id, hid, heq.symm.trans hkey, hconfirmed⟩
    · exact hw.acks key a ha

theorem honest_apply (b : Commit (V × List HandlerCall)) (w : World (V × List HandlerCall))
    (hw : Honest c w) (hb : Accountable c b w) : Honest c (apply b w) := by
  cases b with
  | readClock | acquire | release => exact ⟨hw.rows, hw.acks⟩
  | memory f =>
    refine ⟨hw.rows, fun key a ha => ?_⟩
    obtain ⟨row, hrow, id, hid, hkey, hconfirmed⟩ := hw.acks key a ha
    refine ⟨row, hrow, id, hid, hkey, fun hsuccess => ?_⟩
    obtain ⟨call, hcall, hop, hsucceeded⟩ := hconfirmed hsuccess
    exact ⟨call, (hb w.memory).subset hcall, hop, hsucceeded⟩
  | setOpState seq state =>
    cases hb
    exact honest_advance hw (p := fun r => r.seq = seq)
      (f := fun q => { q with state := .inProgress, updatedAt := w.now }) rfl rfl rfl
      fun _ _ _ => rowHonest_open (.inr rfl)
  | recordIndexAck id name opId success => exact honest_record hw hb
  | finish seq acks state =>
    obtain ⟨rfl, hacked⟩ := hb
    refine honest_advance hw (p := fun r => r.seq = seq)
      (f := fun q => { q with
        state := .done, ackState := some (.acks acks), updatedAt := w.now }) rfl rfl rfl
      fun row hrow hseq => ?_
    exact ⟨fun _ => hacked row hrow (of_decide_eq_true hseq), nofun, nofun, nofun⟩
  | failOp seq attempts reason =>
    refine honest_advance hw (p := fun r => r.seq = seq)
      (f := fun q => { q with
        state := .failed, attempts := attempts, ackState := some (.reason reason)
        updatedAt := w.now }) rfl rfl rfl fun row hrow hseq => ?_
    exact ⟨nofun, fun _ => hb.2 row hrow (of_decide_eq_true hseq), fun _ => hb.1, nofun⟩
  | deferOp seq attempts backoff reason =>
    refine honest_advance hw (p := fun r => r.seq = seq)
      (f := fun q => { q with
        state := .partialFailure, attempts := attempts, nextAttemptAt := some (w.now + backoff)
        ackState := some (.reason reason), updatedAt := w.clock (w.tick + 1) }) rfl rfl rfl
      fun row hrow hseq => ?_
    exact ⟨nofun, fun _ => hb.2.2 row hrow (of_decide_eq_true hseq), nofun,
      fun _ => ⟨hb.1, hb.2.1, rfl⟩⟩
  | _ => exact hb.elim

theorem answer_called (c : WriteCoordinator V) (op : Operation) (m : V × List HandlerCall) :
    m.2 <+: (answer (journaled c) op m).2.2 ∧ ∀ acks, (answer (journaled c) op m).1 = .ok acks →
      ⟨op, .ok acks⟩ ∈ (answer (journaled c) op m).2.2 := by
  unfold answer
  cases op.target with
  | none => exact ⟨List.prefix_refl _, fun _ hacks => by cases hacks⟩
  | some name =>
    simp only [Option.bind_some, journaled]
    cases c.handlers name with
    | none => exact ⟨List.prefix_refl _, fun _ hacks => by cases hacks⟩
    | some handler =>
      refine ⟨List.prefix_append _ _, fun acks hacks => ?_⟩
      simp only [Option.map_some] at hacks ⊢
      rw [hacks]
      exact List.mem_append_right _ List.mem_cons_self

theorem heeds_callHandler (c : WriteCoordinator V) (op : Operation)
    (w : World (V × List HandlerCall)) : (callHandler (journaled c) op).Heeds (Accountable c) w := by
  unfold callHandler
  cases hhandler : op.target.bind (journaled c).handlers with
  | none => trivial
  | some handler =>
    refine ⟨fun v => ?_, trivial⟩
    have hcalled := (answer_called c op v).1
    unfold answer at hcalled
    rw [hhandler] at hcalled
    exact hcalled

theorem get_reported {op : Operation} {result : Except String Acks} {id : RecordId}
    (h : (reported op result).get id = true) : ∃ acks, result = .ok acks ∧ acks.get id = true := by
  cases result with
  | ok acks => exact ⟨acks, rfl, h⟩
  | error reason =>
    exfalso
    have hfalse : ∀ ids : List RecordId,
        Acks.get (ids.map fun rid => (rid, false)) id = false := by
      intro ids
      unfold Acks.get
      induction ids with
      | nil => rfl
      | cons first ids ih =>
        rw [List.map_cons, List.lookup_cons]
        by_cases hfirst : (id == first) = true
        · rw [hfirst]
          rfl
        · rw [Bool.eq_false_iff.mpr hfirst]
          exact ih
    rw [show (reported op (.error reason)) = op.targetIds.map fun rid => (rid, false) from rfl,
      hfalse] at h
    cases h

theorem heeds_recordAcks {op : Operation} {acks : Acks} {w : World (V × List HandlerCall)}
    (hrow : ∃ row ∈ w.db.opLog.rows, row.progress.state = .inProgress ∧ row.operation = op)
    (hconfirmed : ∀ id ∈ op.targetIds, acks.get id = true → Confirmed w.memory.2 op id) :
    (recordAcks op acks).Heeds (Accountable c) w := by
  have hloop : ∀ (ids : List RecordId), (∀ id ∈ ids, id ∈ op.targetIds) →
      ∀ t : World (V × List HandlerCall), t.db.opLog = w.db.opLog → t.memory = w.memory →
        (ids.forM fun rid => (commit (.recordIndexAck rid (ackTarget op) op.opId
          (acks.get rid)) : Prog (V × List HandlerCall) Unit)).Heeds (Accountable c) t := by
    intro ids
    induction ids with
    | nil => exact fun _ _ _ _ => trivial
    | cons id ids ih =>
      intro hids t hlog hmemory
      obtain ⟨row, hmem, hstate, rfl⟩ := hrow
      refine ⟨⟨row, hlog ▸ hmem, hstate, hids id List.mem_cons_self, rfl, fun hsuccess => ?_⟩, ?_⟩
      · rw [hmemory]
        exact hconfirmed id (hids id List.mem_cons_self) hsuccess
      · exact ih (fun i hi => hids i (List.mem_cons_of_mem _ hi)) _ hlog hmemory
  exact hloop op.targetIds (fun _ => id) w rfl rfl

/-- Once the loop is through, the table says of every target what the handler said. -/
theorem acked_recordAcks (op : Operation) (acks : Acks) (w : World (V × List HandlerCall)) :
    ∀ id ∈ op.targetIds, acked ((recordAcks op acks).final w).db op id = some (acks.get id) := by
  have hloop : ∀ (ids : List RecordId) (t : World (V × List HandlerCall)) (id : RecordId),
      id ∈ ids ∨ acked t.db op id = some (acks.get id) →
        acked ((ids.forM fun rid => (commit (.recordIndexAck rid (ackTarget op) op.opId
          (acks.get rid)) : Prog (V × List HandlerCall) Unit)).final t).db op id =
            some (acks.get id) := by
    intro ids
    induction ids with
    | nil => exact fun t id h => h.resolve_left List.not_mem_nil
    | cons first ids ih =>
      intro t id h
      refine ih _ id ?_
      change _ ∨ acked (apply _ t).db op id = _
      rw [acked_record]
      by_cases hfirst : first = id
      · rw [if_pos hfirst, hfirst]
        exact .inr rfl
      · rw [if_neg hfirst]
        exact h.imp (fun h => (List.mem_cons.mp h).resolve_left (Ne.symm hfirst)) fun h => h
  exact fun id hid => hloop op.targetIds w id (.inl hid)

theorem accountable_closing {row : OpRow} {result : Except String Acks}
    {w : World (V × List HandlerCall)}
    (hrows : ∀ other ∈ w.db.opLog.rows, other.seq = row.seq → other.operation = row.operation)
    (hacked : ∀ id ∈ row.operation.targetIds,
      acked w.db row.operation id = some ((reported row.operation result).get id)) :
    Accountable c (closing (journaled c) row result) w := by
  -- What has been refused is refused on some target, unless there is none.
  have hsetback : (∃ id ∈ row.operation.targetIds, (reported row.operation result).get id = false) ∨
      row.operation.targetIds = [] → ∀ reason,
        Accountable c (setback (journaled c) row reason) w := by
    intro hrefused reason
    have hfailure : ∀ other ∈ w.db.opLog.rows, other.seq = row.seq →
        other.operation.targetIds ≠ [] →
          ∃ id ∈ other.operation.targetIds, acked w.db other.operation id = some false := by
      intro other hother hseq htargets
      rw [hrows other hother hseq] at htargets ⊢
      obtain ⟨id, hid, hfalse⟩ := hrefused.resolve_right htargets
      exact ⟨id, hid, hfalse ▸ hacked id hid⟩
    unfold setback
    dsimp only
    split
    · rename_i hexhausted
      exact ⟨hexhausted, hfailure⟩
    · rename_i hleft
      exact ⟨Nat.succ_pos _, Nat.lt_of_not_le hleft, hfailure⟩
  cases result with
  | error reason =>
    refine hsetback ?_ reason
    cases htargets : row.operation.targetIds with
    | nil => exact .inr rfl
    | cons id ids =>
      refine .inl ⟨id, List.mem_cons_self, Bool.eq_false_iff.mpr fun h => ?_⟩
      obtain ⟨acks, hok, _⟩ := get_reported h
      cases hok
  | ok acks =>
    by_cases hall : (row.operation.targetIds.all fun rid => acks.get rid) = true
    · simp only [closing, if_pos hall]
      refine ⟨rfl, fun other hother hseq id hid => ?_⟩
      rw [hrows other hother hseq] at hid ⊢
      rw [hacked id hid]
      exact congrArg some (List.all_eq_true.mp hall id hid)
    · simp only [closing, if_neg hall]
      obtain ⟨id, hid, hfalse⟩ := List.all_eq_false.mp (Bool.eq_false_iff.mpr hall)
      exact hsetback (.inl ⟨id, hid, Bool.eq_false_iff.mpr hfalse⟩) _

theorem heeds_runOp {row : OpRow} {w : World (V × List HandlerCall)}
    (hrows : ∀ other ∈ w.db.opLog.rows, other.seq = row.seq → other.operation = row.operation)
    (hbegun : ∃ other ∈ w.db.opLog.rows, other.progress.state = .inProgress ∧
      other.operation = row.operation) : (runOp (journaled c) row).Heeds (Accountable c) w := by
  rw [runOp_eq]
  refine Proc.heeds_bind.mpr ⟨heeds_callHandler c _ w, fun result u hrun => ?_⟩
  rw [callHandler_answer] at hrun
  cases hrun
  have hcalled := (answer_called c row.operation w.memory).2
  generalize hresult : (answer (journaled c) row.operation w.memory).1 = result at *
  refine Proc.heeds_bind.mpr ⟨heeds_recordAcks hbegun fun id hid hsuccess => ?_, fun _ t hrun => ?_⟩
  · obtain ⟨acks, rfl, hget⟩ := get_reported hsuccess
    refine ⟨_, hcalled acks rfl, rfl, ?_⟩
    unfold HandlerCall.succeededOn
    simp only [hid, decide_true, hget, Bool.and_self]
  · obtain ⟨v, hv, acks, tick, rfl⟩ := recordAcks_run row.operation
      (reported row.operation result)
      { w with memory := (answer (journaled c) row.operation w.memory).2 }
    have hfinal := Proc.final_of_run hv
    rw [hv] at hrun
    cases hrun
    refine ⟨accountable_closing hrows fun id hid => ?_, trivial⟩
    have hacked := acked_recordAcks row.operation (reported row.operation result)
      { w with memory := (answer (journaled c) row.operation w.memory).2 } id hid
    rw [hfinal] at hacked
    exact hacked

theorem heeds_applyNext (c : WriteCoordinator V) (w : World (V × List HandlerCall)) :
    (applyNext (journaled c)).Heeds (Accountable c) w := by
  refine ⟨trivial, trivial, ?_⟩
  change (applySelected (journaled c) (selectEligible w.db.opLog w.now) >>= fun applied =>
    commit .release >>= fun _ => pure applied).Heeds _ (apply .readClock w)
  refine Proc.heeds_bind.mpr ⟨?_, fun applied t _ => ⟨trivial, trivial⟩⟩
  cases hsel : selectEligible w.db.opLog w.now with
  | none => trivial
  | some row =>
    have hrow := (live_of_selectEligible hsel).1
    refine Proc.heeds_bind.mpr ⟨⟨rfl, trivial⟩, fun _ t hrun => ?_⟩
    cases hrun
    refine Proc.heeds_bind.mpr ⟨heeds_runOp (fun other hother hseq => ?_) ?_, fun _ _ _ => trivial⟩
    · rcases mem_advance_rows hother with ⟨hold, _⟩ | ⟨old, hold, _, rfl⟩
      · rw [seq_unique hrow hold hseq]
      · change old.operation = row.operation
        rw [seq_unique hrow hold hseq]
    · refine ⟨{ row with progress := { row.progress with
        state := .inProgress, updatedAt := (apply .readClock w).now } }, ?_, rfl, rfl⟩
      refine List.mem_map.mpr ⟨row, hrow, ?_⟩
      rw [if_pos (decide_eq_true rfl)]

theorem honest_enqueue {w : World (V × List HandlerCall)} (hw : Honest c w) (op : Operation) :
    Honest c (apply (.enqueue op) w) := by
  refine ⟨fun row hrow => ?_, fun key a ha => ?_⟩
  · rcases mem_append_rows hrow with hold | ⟨hqueued, _⟩
    · exact ⟨(hw.rows row hold).done, (hw.rows row hold).refused, (hw.rows row hold).exhausted,
        (hw.rows row hold).deferred⟩
    · exact rowHonest_open (.inl hqueued.state)
  · obtain ⟨row, hrow, hrest⟩ := hw.acks key a ha
    exact ⟨row, mem_append_of_mem hrow op w.now, hrest⟩

theorem honest_recover {w : World (V × List HandlerCall)} (hw : Honest c w) :
    Honest c (apply .recover w) :=
  honest_advance hw (p := fun r => r.progress.state = .inProgress)
    (f := fun q => { q with state := .pending, updatedAt := w.now }) rfl rfl rfl
    fun _ _ _ => rowHonest_open (.inl rfl)

theorem honest_step {w : World (V × List HandlerCall)} (hw : Honest c w) (m : Move) :
    Honest c (step (journaled c) w m) := by
  cases m with
  | enqueue op => exact honest_enqueue hw op
  | applyNext => exact (heeds_applyNext c w).final honest_apply hw
  | crash moment => exact honest_recover ((heeds_applyNext c w).stopped honest_apply hw moment)
  | recover => exact honest_recover hw
  | retry opId =>
    exact honest_advance hw
      (p := fun r => r.operation.opId = opId &&
        (r.progress.state = .partialFailure || r.progress.state = .failed))
      (f := fun q => { q with state := .pending, nextAttemptAt := none, updatedAt := w.now })
      rfl rfl rfl fun _ _ _ => rowHonest_open (.inl rfl)
  | elapse clock => exact ⟨hw.rows, hw.acks⟩

theorem honest_run {w : World (V × List HandlerCall)} (hw : Honest c w) (moves : List Move) :
    Honest c (run (journaled c) moves w) := by
  induction moves generalizing w with
  | nil => exact hw
  | cons m moves ih => exact ih (honest_step hw m)

theorem honest_start {w : World V} (hlog : w.db.opLog.rows = []) (hacks : w.db.indexAcks = ∅) :
    Honest c (withJournal w) := by
  have hrows : (withJournal w).db.opLog.rows = [] := hlog
  have hempty : (withJournal w).db.indexAcks = ∅ := hacks
  refine ⟨fun row hrow => ?_, fun key a ha => ?_⟩
  · rw [hrows] at hrow
    cases hrow
  · rw [hempty] at ha
    cases ha

/-- The table tells the truth after every run, with crashes inside applications, recoveries
and forced retries: all targets of an operation that is done have been acknowledged, some
target of one that was put off or given up has not, and each success was the answer of a
handler call. -/
theorem acks_honest (c : WriteCoordinator V) (w : World V) (hlog : w.db.opLog.rows = [])
    (hacks : w.db.indexAcks = ∅) (moves : List Move) :
    let t := run (journaled c) moves (withJournal w)
    (∀ row ∈ t.db.opLog.rows, row.progress.state = .done →
      ∀ id ∈ row.operation.targetIds, acked t.db row.operation id = some true) ∧
    (∀ row ∈ t.db.opLog.rows, row.progress.state = .partialFailure ∨ row.progress.state = .failed →
      row.operation.targetIds ≠ [] →
        ∃ id ∈ row.operation.targetIds, acked t.db row.operation id = some false) ∧
    ∀ key a, t.db.indexAcks.get? key = some a → AckHonest t.db t.memory.2 key a := by
  intro t
  have ht : Honest c t := honest_run (honest_start hlog hacks) moves
  exact ⟨fun row hrow => (ht.rows row hrow).done, fun row hrow => (ht.rows row hrow).refused,
    ht.acks⟩

end Honesty

theorem acks_honest_exhausted :
    let t := run (journaled downAtFirst) exhausted (withJournal newQueue)
    t.db.opLog.rows.map (fun row => row.progress.state) = [.failed] ∧
      ∀ row ∈ t.db.opLog.rows, row.progress.state = .failed →
        ∃ id ∈ row.operation.targetIds, acked t.db row.operation id = some false := by
  intro t
  refine ⟨by decide +kernel, fun row hrow hfailed => ?_⟩
  have htargets : ∀ row ∈ t.db.opLog.rows, row.operation.targetIds ≠ [] := by decide +kernel
  exact (acks_honest downAtFirst newQueue rfl rfl exhausted).2.1 row hrow (.inr hfailed)
    (htargets row hrow)

end StrataMemory.AckTable
