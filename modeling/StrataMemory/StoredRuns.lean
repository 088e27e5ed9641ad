import StrataMemory.LogConservation
import StrataMemory.Simulations
import StrataMemory.StoredLog

set_option autoImplicit false

namespace StrataMemory.StoredRuns
open KeyedTables Records Tables Procedures Worlds Coordinator QueueRuns LogConservation
open TextReaders JsonTexts Simulations StoredLog

section Texts
variable (f : FloatText ℚ)

/-- The payload is one that JSON holds: components that are floats, no key twice. -/
def Writable (op : Operation) : Prop :=
  ∀ r ∈ op.records, (∀ x ∈ r.vector, f.IsFloat x) ∧ (r.metadata.map Prod.fst).Nodup

variable {f}

theorem decode_dumpsText {α : Type} {read : Json ℚ → Option α} {v : Json ℚ} {a : α}
    (hv : Proper f v) (hread : read v = some a) : decode f read (dumpsText f v) = .ok a := by
  have hloads : loadsText f (dumpsText f v) = .ok v := by
    unfold loadsText dumpsText
    rw [String.toList_ofList, loads_dumps .spaced hv]
  unfold decode
  rw [hloads]
  dsimp only
  rw [hread]

theorem proper_targetIds (ids : List RecordId) : Proper f (targetIdsJson ids) :=
  proper_map fun n _ => .int n

theorem targetIds_back (ids : List RecordId) : asList asInt (targetIdsJson ids) = some ids :=
  asList_map Json.int (fun _ => rfl) ids

theorem proper_metadata {metadata : List (String × String)}
    (h : (metadata.map Prod.fst).Nodup) : Proper f (metadataJson metadata) := by
  refine .obj ?_ fun field hfield => ?_
  · rw [List.map_map]
    exact h
  · obtain ⟨entry, -, rfl⟩ := List.mem_map.mp hfield
    exact .str entry.2

theorem metadata_back (metadata : List (String × String)) :
    readMetadata (metadataJson metadata) = some metadata :=
  mapM_map_some (fun entry : String × String => (entry.1, Json.str entry.2)) (fun _ => rfl) metadata

theorem proper_record {r : VectorRecord} (hvector : ∀ x ∈ r.vector, f.IsFloat x)
    (hmetadata : (r.metadata.map Prod.fst).Nodup) : Proper f (recordJson r) := by
  have hkeys : recordKeys.Nodup := by decide
  refine .obj hkeys fun field hfield => ?_
  simp only [List.mem_cons, List.not_mem_nil, or_false] at hfield
  rcases hfield with rfl | rfl | rfl | rfl | rfl | rfl
  · exact .int _
  · exact proper_map fun x hx => .float (hvector x hx)
  · exact .str _
  · exact .str _
  · exact .int _
  · exact proper_metadata hmetadata

theorem record_back (r : VectorRecord) : readRecord (recordJson r) = some r := by
  have hvector : asList asNumber (.arr (r.vector.map Json.float)) = some r.vector :=
    asList_map Json.float (fun _ => rfl) r.vector
  have hmetadata := metadata_back r.metadata
  simp [readRecord, recordJson, recordKeys, requiredField, optionalField, List.lookup_cons, asInt, asString,
    hvector, hmetadata, guard]

theorem payload_back (records : List VectorRecord) :
    readPayload (payloadJson records) = some records := by
  have hrecords := asList_map recordJson record_back records
  simp [readPayload, payloadJson, optionalField, hrecords]

theorem proper_payload {op : Operation} (h : Writable f op) : Proper f (payloadJson op.records) := by
  refine .obj (List.nodup_singleton _) fun field hfield => ?_
  cases List.mem_singleton.mp hfield
  exact proper_map fun r hr => proper_record (h r hr).1 (h r hr).2

theorem dumpsText_ne_empty {v : Json ℚ} (hv : Proper f v) : dumpsText f v ≠ "" := by
  obtain ⟨c, more, htext, -⟩ := opens_dumps .spaced hv
  unfold dumpsText
  intro h
  have hlist := congrArg String.toList h
  rw [String.toList_ofList, htext] at hlist
  cases hlist

theorem opType_back (t : OpType) : OpType.ofValue t.value = some t := by cases t <;> decide

end Texts

section View
variable {V : Type} (f : FloatText ℚ)

def storedRow (row : OpRow) : StoredRow where
  toOpColumns := columns f row.operation
  seq := row.seq
  state := row.progress.state.value
  attempts := row.progress.attempts
  nextAttemptAt := row.progress.nextAttemptAt
  ackState := row.progress.ackState.map fun ack => dumpsText f (ackJson ack)
  createdAt := row.createdAt
  updatedAt := row.progress.updatedAt

def stored (log : OpLog) : StoredRows := ⟨log.rows.map (storedRow f), log.nextSeq⟩

def view (w : World V) : StoredWorld V :=
  ⟨stored f w.db.opLog, w.db.indexAcks, w.memory, w.clock, w.tick⟩

variable {f}

theorem value_inj {a b : OpState} : a.value = b.value ↔ a = b := by
  cases a <;> cases b <;> decide

theorem value_eq (a b : OpState) : decide (a.value = b.value) = decide (a = b) := by
  simp only [value_inj]

theorem stored_append (log : OpLog) (op : Operation) (now : Time) :
    stored f (log.append op now) = (stored f log).insert (columns f op) now := by
  have hids : (stored f log).rows.map (fun r => r.opId) =
      log.rows.map fun r => r.operation.opId := List.map_map
  unfold OpLog.append StoredRows.insert
  rw [hids]
  split
  · next h => exact (if_pos h).symm
  · next h =>
    refine Eq.trans ?_ (if_neg h).symm
    simp only [stored, List.map_append, List.map_singleton]
    rfl

theorem stored_advance (log : OpLog) {p : OpRow → Bool} {g : Progress → Progress}
    {p' : StoredRow → Bool} {g' : StoredRow → StoredRow} (hp : ∀ row, p' (storedRow f row) = p row)
    (hg : ∀ row, g' (storedRow f row) = storedRow f { row with progress := g row.progress }) :
    (stored f log).update p' g' = stored f (log.advance p g) := by
  have hrows : (log.rows.map (storedRow f)).map (fun r => if p' r then g' r else r) =
      (log.rows.map fun r => if p r then { r with progress := g r.progress } else r).map
        (storedRow f) := by
    rw [List.map_map, List.map_map]
    refine List.map_congr_left fun row _ => ?_
    dsimp only [Function.comp]
    rw [hp row]
    split
    · exact hg row
    · rfl
  exact congrArg (StoredRows.mk · log.nextSeq) hrows

theorem targetIdsOf_stored (row : OpRow) :
    targetIdsOf f (storedRow f row) = .ok row.operation.targetIds :=
  decode_dumpsText (proper_targetIds _) (targetIds_back _)

theorem payloadOf_stored {row : OpRow} (h : Writable f row.operation) :
    payloadOf f (storedRow f row) = .ok row.operation.payload := by
  have hcolumn : (storedRow f row).payload =
      row.operation.payload.map fun records => dumpsText f (payloadJson records) := rfl
  have hproper := proper_payload h
  unfold Operation.records at hproper
  unfold payloadOf
  rw [hcolumn]
  cases hrecords : row.operation.payload with
  | none => rfl
  | some records =>
    rw [hrecords, Option.getD_some] at hproper
    rw [Option.map_some]
    dsimp only
    rw [if_neg (dumpsText_ne_empty hproper), decode_dumpsText hproper (payload_back records)]
    rfl

theorem operationOf_stored {row : OpRow} (h : Writable f row.operation) :
    operationOf f (storedRow f row) = .ok row.operation := by
  have htype : OpType.ofValue (storedRow f row).opType = some row.operation.opType := opType_back _
  unfold operationOf
  rw [htype]
  dsimp only
  rw [targetIdsOf_stored, payloadOf_stored h]
  rfl

theorem sharesTarget_stored (ids : List RecordId) (earlier : List OpRow) :
    sharesTarget f ids (earlier.map (storedRow f)) =
      .ok (earlier.any fun e => ids.any (· ∈ e.operation.targetIds)) := by
  induction earlier with
  | nil => rfl
  | cons e earlier ih =>
    rw [List.map_cons, List.any_cons]
    unfold sharesTarget
    rw [targetIdsOf_stored, ih]
    change (if (ids.any (· ∈ e.operation.targetIds)) = true then Except.ok true
      else Except.ok (earlier.any fun e => ids.any (· ∈ e.operation.targetIds))) = _
    cases ids.any (· ∈ e.operation.targetIds) <;> rfl

theorem blocked_stored (row : OpRow) (earlier : List OpRow) :
    StoredLog.blocked f (storedRow f row) (earlier.map (storedRow f)) =
      .ok (Coordinator.blocked row earlier) := by
  have hbarrier : (earlier.map (storedRow f)).any (·.isDestructive) =
      earlier.any fun e => e.operation.isDestructive := List.any_map
  unfold StoredLog.blocked Coordinator.blocked
  rw [List.isEmpty_map, hbarrier, targetIdsOf_stored]
  change (if earlier.isEmpty = true then Except.ok false
    else if (earlier.any fun e => e.operation.isDestructive) = true then .ok true
    else if row.operation.isDestructive = true then .ok true
    else sharesTarget f row.operation.targetIds (earlier.map (storedRow f))) = _
  rw [sharesTarget_stored]
  split_ifs <;> rfl

theorem selectFrom_stored (now : Time) (earlier rows : List OpRow) :
    StoredLog.selectFrom f now (earlier.map (storedRow f)) (rows.map (storedRow f)) =
      .ok ((Coordinator.selectFrom now earlier rows).map (storedRow f)) := by
  induction rows generalizing earlier with
  | nil => rfl
  | cons op rest ih =>
    have hrest := ih (earlier ++ [op])
    rw [List.map_append, List.map_singleton] at hrest
    have hrunnable : StoredLog.runnable (storedRow f op) = Coordinator.runnable op := by
      unfold StoredLog.runnable Coordinator.runnable
      exact congrArg₂ (· || ·) (value_eq _ _) (value_eq _ _)
    have hready : StoredLog.ready now (storedRow f op) = Coordinator.ready now op := rfl
    rw [List.map_cons]
    unfold StoredLog.selectFrom Coordinator.selectFrom
    rw [hrunnable, hready, blocked_stored, hrest]
    change (if (Coordinator.runnable op && Coordinator.ready now op) = true then
      (if Coordinator.blocked op earlier = true then _ else Except.ok (some (storedRow f op)))
      else _) = _
    cases Coordinator.runnable op && Coordinator.ready now op <;>
      cases Coordinator.blocked op earlier <;> rfl

theorem selectEligible_stored (log : OpLog) (now : Time) :
    StoredLog.selectEligible f (stored f log) now =
      .ok ((Coordinator.selectEligible log now).map (storedRow f)) := by
  have hlive : StoredLog.notDone (stored f log) = (Coordinator.notDone log).map (storedRow f) := by
    unfold StoredLog.notDone Coordinator.notDone stored
    rw [List.filter_map]
    refine congrArg (List.map (storedRow f)) (List.filter_congr fun row _ => ?_)
    change (decide (row.progress.state.value ≠ OpState.done.value) &&
      decide (row.progress.state.value ≠ OpState.failed.value)) = row.progress.state.isLive
    unfold OpState.isLive
    simp only [ne_eq, value_inj]
  unfold StoredLog.selectEligible Coordinator.selectEligible
  rw [hlive]
  exact selectFrom_stored now [] _

end View

section Programs
variable {V : Type} {f : FloatText ℚ}

def Holds (f : FloatText ℚ) (w : World V) : Prop := ∀ op ∈ operations w.db.opLog, Writable f op

abbrev Follows {α β : Type} (f : FloatText ℚ) (R : β → α → Prop) (p' : StoredProg V β)
    (p : Prog V α) : Prop :=
  Simulates (view f) (Holds f) R p' p

/-- A statement that leaves the operations of the log as they are. -/
theorem follows_statement {s : Statement V} {c : Commit V}
    (hsame : ∀ w : World V, operations (Worlds.apply c w).db.opLog = operations w.db.opLog)
    (hview : ∀ w : World V, StoredLog.apply s (view f w) = view f (Worlds.apply c w)) :
    Follows f Eq (execute s) (commit c) :=
  .perform (fun w hw op hop => hw op (hsame w ▸ hop)) fun w _ => hview w

def withRows (w : World V) (readings : ℕ) (rows : StoredRows) : StoredWorld V :=
  ⟨rows, w.db.indexAcks, w.memory, w.clock, w.tick + readings⟩

theorem follows_insert {op : Operation} (hop : Writable f op) :
    Follows f Eq (execute (.insert (columns f op))) (commit (.enqueue op) : Prog V Unit) := by
  refine .perform (fun w hw o ho => ?_) fun w _ =>
    congrArg (withRows w 1) (stored_append w.db.opLog op w.now).symm
  rcases operations_append w.db.opLog op w.now with ⟨hsame, -⟩ | ⟨hnew, -⟩
  · exact hw o (hsame ▸ ho)
  · rcases List.mem_append.mp (hnew ▸ ho : o ∈ operations w.db.opLog ++ [op]) with ho | ho
    · exact hw o ho
    · cases List.mem_singleton.mp ho
      exact hop

theorem follows_recover : Follows f Eq StoredLog.recover (Coordinator.recover : Prog V Unit) :=
  follows_statement (fun _ => operations_advance _ _ _) fun w =>
    congrArg (withRows w 1) (stored_advance _ (fun _ => value_eq _ _) fun _ => rfl)

theorem follows_retry (opId : OpId) :
    Follows f Eq (StoredLog.retry opId) (Coordinator.retry opId : Prog V Unit) :=
  follows_statement (fun _ => operations_advance _ _ _) fun w =>
    congrArg (withRows w 1) (stored_advance _
      (fun _ => congrArg₂ (· && ·) rfl (congrArg₂ (· || ·) (value_eq _ _) (value_eq _ _)))
      fun _ => rfl)

theorem follows_setState (seq : ℕ) (state : OpState) :
    Follows f Eq (execute (.setState seq state)) (commit (.setOpState seq state) : Prog V Unit) :=
  follows_statement (fun _ => operations_advance _ _ _) fun w =>
    congrArg (withRows w 1) (stored_advance _ (fun _ => rfl) fun _ => rfl)

theorem follows_finish (seq : ℕ) (acks : Acks) (state : OpState) :
    Follows f Eq (execute (.finish seq state (dumpsText f (ackJson (.acks acks)))))
      (commit (.finish seq acks state) : Prog V Unit) :=
  follows_statement (fun _ => operations_advance _ _ _) fun w =>
    congrArg (withRows w 1) (stored_advance _ (fun _ => rfl) fun _ => rfl)

theorem follows_failOrRetry (c : WriteCoordinator V) (row : OpRow) (reason : String) :
    Follows f Eq (StoredLog.failOrRetry f c (storedRow f row) reason)
      (Coordinator.failOrRetry c row reason) := by
  unfold StoredLog.failOrRetry Coordinator.failOrRetry
  change Follows f Eq (if c.maxAttempts ≤ row.progress.attempts + 1 then _ else _) _
  dsimp only
  split
  · exact follows_statement (fun _ => operations_advance _ _ _) fun w =>
      congrArg (withRows w 1) (stored_advance _ (fun _ => rfl) fun _ => rfl)
  · exact follows_statement (fun _ => operations_advance _ _ _) fun w =>
      congrArg (withRows w 2) (stored_advance _ (fun _ => rfl) fun _ => rfl)

theorem follows_recordAcks (op : Operation) (acks : Acks) :
    Follows f Eq (StoredLog.recordAcks op acks) (Coordinator.recordAcks op acks : Prog V Unit) :=
  .forM fun _ _ => follows_statement (fun _ => rfl) fun _ => rfl

theorem follows_enqueue {op : Operation} (hop : Writable f op) :
    Follows f Eq (StoredLog.enqueue f op) (Coordinator.enqueue op : Prog V OpId) :=
  (follows_insert hop).bind fun _ _ _ => .done rfl

theorem follows_callHandler (c : WriteCoordinator V) (op : Operation) :
    Follows f Eq (StoredLog.callHandler c op) (Coordinator.callHandler c op) := by
  unfold StoredLog.callHandler Coordinator.callHandler
  cases op.target.bind c.handlers with
  | none => exact .done rfl
  | some handler => exact .performing (fun _ hw => hw) (fun _ _ => rfl) fun _ _ => rfl

theorem follows_runOp (c : WriteCoordinator V) (row : OpRow) :
    Follows f Eq (StoredLog.runOp f c (storedRow f row) row.operation)
      (Coordinator.runOp c row) := by
  refine (follows_callHandler c row.operation).bind fun answer _ heq => ?_
  cases heq
  cases answer with
  | error reason =>
    exact (follows_recordAcks _ _).bind fun _ _ _ => follows_failOrRetry c row reason
  | ok acks =>
    refine (follows_recordAcks _ _).bind fun _ _ _ => ?_
    split
    · exact follows_finish row.seq acks .done
    · exact follows_failOrRetry c row _

def Selected (f : FloatText ℚ) (read : Except PyError (Option StoredRow)) (typed : Option OpRow) :
    Prop :=
  read = .ok (typed.map (storedRow f)) ∧ ∀ row ∈ typed, Writable f row.operation

theorem follows_applySelected (c : WriteCoordinator V) {read : Except PyError (Option StoredRow)}
    {typed : Option OpRow} (h : Selected f read typed) :
    Follows f (fun b a => b = .ok a) (StoredLog.applySelected f c read)
      (Coordinator.applySelected c typed) := by
  obtain ⟨rfl, hwritable⟩ := h
  cases typed with
  | none => exact .done rfl
  | some row =>
    refine (follows_setState row.seq .inProgress).bind fun _ _ _ => ?_
    rw [operationOf_stored (hwritable row rfl)]
    exact (follows_runOp c row).bind fun _ _ _ => .done rfl

theorem follows_applyNext (c : WriteCoordinator V) :
    Follows f Eq (StoredLog.applyNext f c) (Coordinator.applyNext c) := by
  have hlock : ∀ {s : Statement V} {k : Commit V}, (∀ w : World V, Worlds.apply k w = w) →
      (∀ w : StoredWorld V, StoredLog.apply s w = w) → Follows f Eq (execute s) (commit k) :=
    fun hk hs => follows_statement (fun w => by rw [hk]) fun w => by rw [hk, hs]
  refine (hlock (fun _ => rfl) fun _ => rfl).bind fun _ _ _ => ?_
  have hclock : Follows f Eq (Proc.performing .readClock StoredWorld.now : StoredProg V Time)
      nowMs := .performing (fun _ hw => hw) (fun _ _ => rfl) fun _ _ => rfl
  refine hclock.bind fun now _ heq => ?_
  cases heq
  have hselect : Follows f (Selected f)
      (Proc.read fun w => StoredLog.selectEligible f w.opLog now : StoredProg V _)
      (query fun db => Coordinator.selectEligible db.opLog now) :=
    .read fun w hw => ⟨selectEligible_stored w.db.opLog now, fun row hrow => hw _
      (List.mem_map_of_mem (CoordinatorRuns.live_of_selectEligible hrow).1)⟩
  refine hselect.bind fun read typed hselected => ?_
  refine (follows_applySelected c hselected).bind fun applied answer happlied => ?_
  cases happlied
  exact (hlock (fun _ => rfl) fun _ => rfl).bind fun _ _ _ => .done rfl

theorem follows_drain (c : WriteCoordinator V) (steps : ℕ) :
    Follows f Eq (StoredLog.drain f c steps) (Coordinator.drain c steps) := by
  induction steps with
  | zero => exact .done rfl
  | succ steps ih =>
    refine (follows_applyNext c).bind fun applied _ heq => ?_
    cases heq
    cases applied with
    | none => exact .done rfl
    | some _ =>
      refine ih.bind fun count _ heq => ?_
      cases heq
      exact .done rfl

end Programs

section Runs
variable {V : Type}

def storedStep (f : FloatText ℚ) (c : WriteCoordinator V) (w : StoredWorld V) :
    Move → StoredWorld V
  | .enqueue op => (StoredLog.enqueue f op).final w
  | .applyNext => (StoredLog.applyNext f c).final w
  | .crash moment => StoredLog.recover.final ((StoredLog.applyNext f c).stopped moment w)
  | .recover => StoredLog.recover.final w
  | .retry opId => (StoredLog.retry opId).final w
  | .elapse clock => { w with clock := clock }

def storedRun (f : FloatText ℚ) (c : WriteCoordinator V) (moves : List Move) (w : StoredWorld V) :
    StoredWorld V :=
  moves.foldl (storedStep f c) w

variable {f : FloatText ℚ} {c : WriteCoordinator V}

theorem storedStep_view {w : World V} (hw : Holds f w) {m : Move}
    (hm : ∀ op ∈ enqueued [m], Writable f op) :
    Holds f (step c w m) ∧ storedStep f c (view f w) m = view f (step c w m) := by
  have hfinal : ∀ {α : Type} {p : Prog V α} {p' : StoredProg V α}, Follows f Eq p' p →
      ∀ {u : World V}, Holds f u → Holds f (p.final u) ∧ p'.final (view f u) = view f (p.final u) :=
    fun h u hu => ⟨(h.run hu).1, congrArg Prod.snd (h.run hu).2⟩
  cases m with
  | enqueue op => exact hfinal (follows_enqueue (hm op List.mem_cons_self)) hw
  | applyNext => exact hfinal (follows_applyNext c) hw
  | crash moment =>
    obtain ⟨hstopped, hview⟩ := (follows_applyNext c).stopped hw moment
    have hrecovered := hfinal follows_recover hstopped
    rw [← hview] at hrecovered
    exact hrecovered
  | recover => exact hfinal follows_recover hw
  | retry opId => exact hfinal (follows_retry opId) hw
  | elapse clock => exact ⟨hw, rfl⟩

theorem storedRun_view {w : World V} (hw : Holds f w) {moves : List Move}
    (hmoves : ∀ op ∈ enqueued moves, Writable f op) :
    Holds f (run c moves w) ∧ storedRun f c moves (view f w) = view f (run c moves w) := by
  induction moves generalizing w with
  | nil => exact ⟨hw, rfl⟩
  | cons m moves ih =>
    have hsplit : enqueued (m :: moves) = enqueued [m] ++ enqueued moves :=
      List.filterMap_append (l := [m])
    rw [hsplit] at hmoves
    obtain ⟨hstep, hview⟩ := storedStep_view (c := c) hw fun op hop =>
      hmoves op (List.mem_append_left _ hop)
    have hrest := ih hstep fun op hop => hmoves op (List.mem_append_right _ hop)
    rw [← hview] at hrest
    exact hrest

/-- After any run, crashes included, the rows are the texts of the typed log, and what the
coordinator then does with the texts, and answers, is what it does with the log; also when the
process dies within. -/
theorem stored_log_agrees (f : FloatText ℚ) (c : WriteCoordinator V) {w : World V}
    (hw : Holds f w) {moves : List Move} (hmoves : ∀ op ∈ enqueued moves, Writable f op) :
    let stored := storedRun f c moves (view f w)
    let typed := run c moves w
    stored = view f typed ∧
      (StoredLog.runUntilIdle f c).run stored =
        (((runUntilIdle c).run typed).1, view f ((runUntilIdle c).run typed).2) ∧
      ∀ n, (StoredLog.runUntilIdle f c).stopped n stored =
        view f ((runUntilIdle c).stopped n typed) := by
  intro stored typed
  obtain ⟨hheld, hview⟩ := storedRun_view (c := c) hw hmoves
  have hdrain : Follows f Eq (StoredLog.runUntilIdle f c) (runUntilIdle c) := follows_drain c maxSteps
  refine ⟨hview, ?_, fun n => ?_⟩
  · exact (congrArg _ hview).trans (hdrain.run hheld).2
  · exact (congrArg _ hview).trans (hdrain.stopped hheld n).2

end Runs

theorem half_ne_one : (1 / 2 : ℚ) ≠ 1 := by decide +kernel

def halves : FloatText ℚ where
  IsFloat x := x = 1 ∨ x = 1 / 2
  repr x := if x = 1 then ['1', '.', '0'] else ['0', '.', '5']
  parse text := if text = ['1', '.', '0'] then some 1
    else if text = ['0', '.', '5'] then some (1 / 2) else none
  parse_repr x hx := by
    rcases hx with rfl | rfl
    · rfl
    · rw [if_neg half_ne_one]
      rfl
  number_repr x hx := by
    rcases hx with rfl | rfl
    · exact ⟨List.cons_ne_nil _ _, List.all_eq_true.mp (by decide : ['1', '.', '0'].all _ = true)⟩
    · rw [if_neg half_ne_one]
      exact ⟨List.cons_ne_nil _ _, List.all_eq_true.mp (by decide : ['0', '.', '5'].all _ = true)⟩
  not_int_repr x hx := by
    rcases hx with rfl | rfl
    · rfl
    · rw [if_neg half_ne_one]
      rfl

def teaUpsert : Operation where
  opType := .upsertIndex
  targetIds := [7]
  target := some "vector"
  payload := some [⟨7, [1 / 2, 1], "th\"é😀", "small", 3, [("status", "active"), ("tier", "L1")]⟩]
  expectedGeneration := some 3
  opId := 1

theorem writable_teaUpsert : Writable halves teaUpsert := by
  intro r hr
  cases List.mem_singleton.mp hr
  refine ⟨fun x hx => ?_, by decide⟩
  rcases List.mem_cons.mp hx with rfl | hx
  · exact .inr rfl
  · exact .inl (List.mem_singleton.mp hx)

theorem stored_log_agrees_refused :
    let moves : List Move := [.enqueue teaUpsert, .applyNext, .crash 4]
    let stored := storedRun halves downAtFirst moves (view halves newQueue)
    stored.opLog.rows.map (fun r => (r.state, r.targetIds, r.attempts, r.ackState)) =
        [("pending", "[7]", 1, some "\x7b\"reason\": \"unreachable\"\x7d")] ∧
      stored = view halves (run downAtFirst moves newQueue) := by
  intro moves stored
  have hmoves : ∀ op ∈ enqueued moves, Writable halves op := fun op hop => by
    cases List.mem_singleton.mp hop
    exact writable_teaUpsert
  have hview : stored = view halves (run downAtFirst moves newQueue) :=
    (stored_log_agrees halves downAtFirst (fun op hop => by cases hop) hmoves).1
  refine ⟨?_, hview⟩
  rw [hview]
  decide +kernel

section Runs
variable {V : Type} {f : FloatText ℚ} {c : WriteCoordinator V}

def CallsLogged (w : World (V × List HandlerCall)) : Prop :=
  ∀ call ∈ w.memory.2, call.operation ∈ operations w.db.opLog

theorem callsLogged_effect {P : World (V × List HandlerCall) → Move → Prop}
    {w t : World (V × List HandlerCall)} (hw : CallsLogged w) (h : Effect (journaled c) P w t) :
    CallsLogged t := by
  have hkept : ∀ op ∈ operations w.db.opLog, op ∈ operations t.db.opLog := fun op hop => by
    obtain ⟨row, hrow, rfl⟩ := List.mem_map.mp hop
    obtain ⟨p, hp⟩ := h.kept hrow
    exact List.mem_map.mpr ⟨_, hp, rfl⟩
  intro call hcall
  rcases h.journal with hj | ⟨row, hsel, hj⟩
  · exact hkept _ (hw call (hj ▸ hcall))
  · rcases List.mem_append.mp (hj ▸ hcall) with hcall | hcall
    · exact hkept _ (hw call hcall)
    · cases List.mem_singleton.mp hcall
      exact hkept _ (List.mem_map_of_mem (CoordinatorRuns.live_of_selectEligible hsel).1)

/-- Through the texts of an empty log, crashes included, nothing that was queued is lost or
garbled: its id has a row that reads as the operation that was first queued under it, and each
handler call is given such an operation. -/
theorem stored_calls_verbatim (f : FloatText ℚ) (c : WriteCoordinator V) (memory : V)
    (indexAcks : Table (RecordId × String × OpId) IndexAck) (clock : ℕ → Time) (tick : ℕ)
    {moves : List Move} (hmoves : ∀ op ∈ enqueued moves, Writable f op) :
    let w := storedRun f (journaled c) moves ⟨⟨[], 1⟩, indexAcks, (memory, []), clock, tick⟩
    (∀ op ∈ enqueued moves, ∃ row ∈ w.opLog.rows, ∃ first,
      (enqueued moves).find? (fun o => o.opId = op.opId) = some first ∧
        operationOf f row = .ok first) ∧
      ∀ call ∈ w.memory.2,
        (enqueued moves).find? (fun o => o.opId = call.operation.opId) = some call.operation := by
  intro w
  let start : World (V × List HandlerCall) :=
    ⟨{ Db.empty with indexAcks := indexAcks }, (memory, []), clock, tick, 0, fun _ => 1, 0⟩
  have hstart : Holds f start := fun op hop => by cases hop
  obtain ⟨hheld, hview⟩ := storedRun_view (c := journaled c) hstart hmoves
  have hempty : HoldsFirst start.db.opLog [] := holdsFirst_start OpLog.empty
  have hfirst : HoldsFirst (run (journaled c) moves start).db.opLog (enqueued moves) := hempty.run
  have hcalls : CallsLogged (run (journaled c) moves start) :=
    run_keeps (P := fun _ _ => True) (fun _ _ => callsLogged_effect)
      (meets_of_mem (fun _ _ _ => trivial) start) fun call hcall => by cases hcall
  change w = view f (run (journaled c) moves start) at hview
  rw [hview]
  refine ⟨fun op hop => ?_, fun call hcall => hfirst.2 _ (hcalls call hcall)⟩
  obtain ⟨first, hlogged, hid⟩ := List.mem_map.mp (hfirst.1 op hop)
  obtain ⟨row, hrow, rfl⟩ := List.mem_map.mp hlogged
  exact ⟨storedRow f row, List.mem_map_of_mem hrow, row.operation, hid ▸ hfirst.2 _ hlogged,
    operationOf_stored (hheld _ hlogged)⟩

end Runs

theorem stored_calls_verbatim_refused :
    let moves : List Move := [.enqueue teaUpsert, .applyNext, .crash 5, .applyNext]
    let calls := (storedRun halves (journaled downAtFirst) moves
      ⟨⟨[], 1⟩, ∅, (0, []), fun n => 1000 * n, 0⟩).memory.2
    calls.map HandlerCall.operation = [teaUpsert, teaUpsert, teaUpsert] ∧
      ∀ call ∈ calls,
        (enqueued moves).find? (fun o => o.opId = call.operation.opId) = some call.operation := by
  intro moves calls
  have hmoves : ∀ op ∈ enqueued moves, Writable halves op := fun op hop => by
    cases List.mem_singleton.mp hop
    exact writable_teaUpsert
  have hstart : Holds halves (withJournal newQueue) := fun op hop => by cases hop
  have hbegin : view halves (withJournal newQueue) =
      ⟨⟨[], 1⟩, ∅, (0, []), fun n => 1000 * n, 0⟩ := rfl
  have hview := (storedRun_view (c := journaled downAtFirst) hstart hmoves).2
  rw [hbegin] at hview
  have hall := (stored_calls_verbatim halves downAtFirst 0 ∅ (fun n => 1000 * n) 0 hmoves).2
  refine ⟨?_, hall⟩
  have hcalls : (run (journaled downAtFirst) moves (withJournal newQueue)).memory.2.map
      HandlerCall.operation = [teaUpsert, teaUpsert, teaUpsert] := by decide +kernel
  unfold calls
  rw [hview]
  exact hcalls

end StrataMemory.StoredRuns
