import StrataMemory.CoordinatorRuns

set_option autoImplicit false

namespace StrataMemory.Applications
open KeyedTables Records Tables Procedures Worlds Coordinator CoordinatorRuns

variable {V : Type}

def answer (c : WriteCoordinator V) (op : Operation) (v : V) : Except String Acks × V :=
  match op.target.bind c.handlers with
  | none => (.error (missingHandler c op), v)
  | some handler => handler op v

def fullyAcked (op : Operation) : Except String Acks → Bool
  | .ok acks => op.targetIds.all fun rid => acks.get rid
  | .error _ => false

inductive Verdict (c : WriteCoordinator V) (row : OpRow) (result : Except String Acks) :
    Progress → Prop where
  | done {p : Progress} (acked : fullyAcked row.operation result = true) (state : p.state = .done) :
      Verdict c row result p
  | failed {p : Progress} (refused : fullyAcked row.operation result = false)
      (exhausted : c.maxAttempts ≤ row.progress.attempts + 1) (state : p.state = .failed) :
      Verdict c row result p
  | deferred {p : Progress} (refused : fullyAcked row.operation result = false)
      (left : row.progress.attempts + 1 < c.maxAttempts) (state : p.state = .partialFailure)
      (attempts : p.attempts = row.progress.attempts + 1) : Verdict c row result p

inductive Point (c : WriteCoordinator V) (w : World V) : World V → Prop where
  | idle {t : World V} (log : t.db.opLog = w.db.opLog) (memory : t.memory = w.memory) :
      Point c w t
  | begun {t : World V} {row : OpRow} (selected : selectEligible w.db.opLog w.now = some row)
      (now : Time) (log : t.db.opLog = w.db.opLog.advance (fun r => r.seq = row.seq)
        fun p => { p with state := .inProgress, updatedAt := now })
      (memory : t.memory = w.memory ∨ t.memory = (answer c row.operation w.memory).2) :
      Point c w t
  | closed {t : World V} {row : OpRow} (selected : selectEligible w.db.opLog w.now = some row)
      {p : Progress} (verdict : Verdict c row (answer c row.operation w.memory).1 p)
      (log : t.db.opLog = w.db.opLog.advance (fun r => r.seq = row.seq) fun _ => p)
      (memory : t.memory = (answer c row.operation w.memory).2) : Point c w t

theorem row_unique {log : OpLog} {row other : OpRow} (hrow : row ∈ log.rows)
    (hother : other ∈ log.rows) (h : row.operation.opId = other.operation.opId) : row = other :=
  List.inj_on_of_nodup_map log.opIds_nodup hrow hother h

theorem log_ext {log other : OpLog} (hrows : log.rows = other.rows)
    (hnext : log.nextSeq = other.nextSeq) : log = other := by
  cases log
  cases other
  cases hrows
  cases hnext
  rfl

theorem advance_advance (log : OpLog) (p : OpRow → Bool) (f g : Progress → Progress)
    (hp : ∀ row q, p { row with progress := q } = p row) :
    (log.advance p f).advance p g = log.advance p (g ∘ f) := by
  refine log_ext ?_ rfl
  change (log.rows.map _).map _ = log.rows.map _
  rw [List.map_map]
  refine List.map_congr_left fun row _ => ?_
  by_cases h : p row = true
  · simp [h, hp]
  · simp [h]

theorem advance_row {log : OpLog} {row : OpRow} (hrow : row ∈ log.rows) (f : Progress → Progress) :
    log.advance (fun r => r.seq = row.seq) f =
      log.advance (fun r => r.seq = row.seq) fun _ => f row.progress := by
  refine log_ext (List.map_congr_left fun r hr => ?_) rfl
  by_cases h : r.seq = row.seq
  · rw [seq_unique hrow hr h]
  · rw [if_neg (by simpa using h), if_neg (by simpa using h)]

def setback (c : WriteCoordinator V) (row : OpRow) (reason : String) : Commit V :=
  let attempts := row.progress.attempts + 1
  if c.maxAttempts ≤ attempts then .failOp row.seq attempts reason
  else .deferOp row.seq attempts (c.backoffBaseMs * 2 ^ (attempts - 1)) reason

theorem failOrRetry_eq (c : WriteCoordinator V) (row : OpRow) (reason : String) :
    failOrRetry c row reason = commit (setback c row reason) := by
  unfold failOrRetry setback
  dsimp only
  split <;> rfl

def closing (c : WriteCoordinator V) (row : OpRow) : Except String Acks → Commit V
  | .error reason => setback c row reason
  | .ok acks =>
    if row.operation.targetIds.all fun rid => acks.get rid then .finish row.seq acks .done
    else setback c row "partial_ack"

def reported (op : Operation) : Except String Acks → Acks
  | .error _ => op.targetIds.map fun rid => (rid, false)
  | .ok acks => acks

theorem runOp_eq (c : WriteCoordinator V) (row : OpRow) :
    runOp c row = callHandler c row.operation >>= fun result =>
      recordAcks row.operation (reported row.operation result) >>= fun _ =>
        commit (closing c row result) := by
  unfold runOp
  refine congrArg (callHandler c row.operation >>= ·) (funext fun result => ?_)
  cases result with
  | error reason =>
    exact congrArg (recordAcks row.operation _ >>= ·)
      (funext fun _ => failOrRetry_eq c row reason)
  | ok acks =>
    refine congrArg (recordAcks row.operation acks >>= ·) (funext fun _ => ?_)
    by_cases h : (row.operation.targetIds.all fun rid => acks.get rid) = true
    · simp only [closing, if_pos h]
    · simp only [closing, if_neg h]
      exact failOrRetry_eq c row _

theorem callHandler_answer (c : WriteCoordinator V) (op : Operation) (w : World V) :
    (callHandler c op).run w =
      (.ok (answer c op w.memory).1, { w with memory := (answer c op w.memory).2 }) := by
  unfold callHandler answer
  cases op.target.bind c.handlers with
  | none => rfl
  | some handler => rfl

/-- Only the acknowledgement table and the clock have moved. -/
def Acknowledged (w u : World V) : Prop :=
  ∃ acks tick, u = { w with db := { w.db with indexAcks := acks }, tick := tick }

theorem Acknowledged.trans {w u t : World V} (h : Acknowledged w u) (h' : Acknowledged u t) :
    Acknowledged w t := by
  obtain ⟨acks, tick, rfl⟩ := h
  obtain ⟨acks', tick', rfl⟩ := h'
  exact ⟨acks', tick', rfl⟩

def isAck : Commit V → Prop
  | .recordIndexAck .. => True
  | _ => False

theorem recordAcks_isAck (op : Operation) (acks : Acks) : (recordAcks op acks : Prog V Unit).Uses isAck :=
  Proc.Uses.forM _ _ fun _ _ => (uses_commit _ _).mpr trivial

theorem acknowledged_apply (b : Commit V) (w : World V) (hb : isAck b) :
    Acknowledged w (apply b w) := by
  cases b with
  | recordIndexAck id adapter opId success => exact ⟨_, _, rfl⟩
  | _ => exact hb.elim

theorem recordAcks_run (op : Operation) (acks : Acks) (w : World V) :
    ∃ u, (recordAcks op acks).run w = (.ok (), u) ∧ Acknowledged w u := by
  have hreturns : (recordAcks op acks : Prog V Unit).Returns :=
    Proc.Returns.forM _ _ fun _ _ => returns_commit _
  obtain ⟨_, hrun⟩ := hreturns.run w
  exact ⟨_, hrun, (recordAcks_isAck op acks).run (fun w => ⟨_, _, rfl⟩)
    (fun _ _ _ h h' => h.trans h') acknowledged_apply w⟩

section Points
variable {c : WriteCoordinator V} {w t : World V} {row : OpRow}

theorem closing_verdict (c : WriteCoordinator V) (row : OpRow) (result : Except String Acks)
    (u : World V) : ∃ f : Progress → Progress, (apply (closing c row result) u).db.opLog =
      u.db.opLog.advance (fun r => r.seq = row.seq) f ∧ (apply (closing c row result) u).memory =
        u.memory ∧ ∀ p, Verdict c row result (f p) := by
  have hsetback : fullyAcked row.operation result = false → ∀ reason, ∃ f : Progress → Progress,
      (apply (setback c row reason) u).db.opLog =
        u.db.opLog.advance (fun r => r.seq = row.seq) f ∧
      (apply (setback c row reason) u).memory = u.memory ∧ ∀ p, Verdict c row result (f p) := by
    intro hrefused reason
    by_cases h : c.maxAttempts ≤ row.progress.attempts + 1
    · simp only [setback, if_pos h]
      let f : Progress → Progress := fun p => { p with
        state := .failed, attempts := row.progress.attempts + 1
        ackState := some (.reason reason), updatedAt := u.now }
      exact ⟨f, rfl, rfl, fun _ => .failed hrefused h rfl⟩
    · simp only [setback, if_neg h]
      let f : Progress → Progress := fun p => { p with
        state := .partialFailure, attempts := row.progress.attempts + 1
        nextAttemptAt := some (u.now + c.backoffBaseMs * 2 ^ row.progress.attempts)
        ackState := some (.reason reason), updatedAt := u.clock (u.tick + 1) }
      exact ⟨f, rfl, rfl, fun _ => .deferred hrefused (Nat.lt_of_not_le h) rfl rfl⟩
  cases result with
  | error reason => exact hsetback rfl reason
  | ok acks =>
    by_cases h : (row.operation.targetIds.all fun rid => acks.get rid) = true
    · simp only [closing, if_pos h]
      let f : Progress → Progress := fun p => { p with
        state := .done, ackState := some (.acks acks), updatedAt := u.now }
      exact ⟨f, rfl, rfl, fun _ => .done h rfl⟩
    · simp only [closing, if_neg h]
      exact hsetback (Bool.eq_false_iff.mpr h) _

theorem point_closing (selected : selectEligible w.db.opLog w.now = some row) {u v : World V}
    (hlog : u.db.opLog = (apply (.setOpState row.seq .inProgress) (apply .readClock w)).db.opLog)
    (hmemory : u.memory = (answer c row.operation w.memory).2) (hv : Acknowledged u v) :
    Point c w v ∧ Point c w (apply (closing c row (answer c row.operation w.memory).1) v) := by
  obtain ⟨acks, tick, rfl⟩ := hv
  have hrow : row ∈ w.db.opLog.rows := (live_of_selectEligible selected).1
  refine ⟨.begun selected _ hlog (.inr hmemory), ?_⟩
  obtain ⟨f, hclosed, hkept, hverdict⟩ := closing_verdict c row (answer c row.operation w.memory).1
    ({ u with db := { u.db with indexAcks := acks }, tick := tick } : World V)
  refine .closed selected (hverdict
    { row.progress with state := .inProgress, updatedAt := (apply .readClock w).now }) ?_
    (hkept.trans hmemory)
  rw [hclosed]
  change u.db.opLog.advance _ f = _
  rw [hlog]
  exact (advance_advance w.db.opLog _ _ f fun _ _ => rfl).trans (advance_row hrow _)

theorem points_runOp (selected : selectEligible w.db.opLog w.now = some row) {cs : List (Commit V)}
    {q : Prog V Unit} (h : Proc.Reaches (runOp c row)
      (apply (.setOpState row.seq .inProgress) (apply .readClock w)) cs q t) : Point c w t := by
  let v := apply (.setOpState row.seq .inProgress : Commit V) (apply .readClock w)
  let result := (answer c row.operation w.memory).1
  let u : World V := { v with memory := (answer c row.operation w.memory).2 }
  have hcall : (callHandler c row.operation).run v = (.ok result, u) := callHandler_answer c _ v
  have hclosing : ∀ z, Acknowledged u z →
      Point c w z ∧ Point c w (apply (closing c row result) z) := fun z hz =>
    point_closing (u := u) selected rfl rfl hz
  rw [runOp_eq] at h
  rcases h.of_bind with ⟨r, hr, _⟩ | ⟨a, x, ds, es, hrun, _, _, h⟩
  · have hcalled : t = v ∨ t = u := by
      unfold callHandler at hr
      cases hhandler : row.operation.target.bind c.handlers with
      | none =>
        rw [hhandler] at hr
        exact .inl hr.of_pure
      | some handler =>
        rw [hhandler] at hr
        refine hr.of_performing.imp id fun ht => ?_
        rw [ht]
        change { v with memory := (handler row.operation w.memory).2 } = u
        unfold u answer
        rw [hhandler]
    rcases hcalled with rfl | rfl
    · exact .begun selected _ rfl (.inl rfl)
    · exact .begun selected _ rfl (.inr rfl)
  · rw [hcall] at hrun
    cases hrun
    rcases h.of_bind with ⟨r, hr, _⟩ | ⟨_, y, ds, es, hrun, _, _, h⟩
    · have hacks : Acknowledged u t := ((recordAcks_isAck _ _).reaches (fun w => ⟨_, _, rfl⟩)
        (fun _ _ _ h h' => h.trans h') acknowledged_apply hr).1
      exact (hclosing t hacks).1
    · obtain ⟨z, hz, hacks⟩ := recordAcks_run row.operation (reported row.operation result) u
      rw [hz] at hrun
      cases hrun
      rcases h.of_performing with rfl | rfl
      · exact (hclosing _ hacks).1
      · exact (hclosing _ hacks).2

theorem runOp_run (selected : selectEligible w.db.opLog w.now = some row) : ∃ t p,
    (runOp c row).run (apply (.setOpState row.seq .inProgress) (apply .readClock w)) = (.ok (), t) ∧
      Verdict c row (answer c row.operation w.memory).1 p ∧
      t.db.opLog = w.db.opLog.advance (fun r => r.seq = row.seq) (fun _ => p) ∧
      t.memory = (answer c row.operation w.memory).2 := by
  let v := apply (.setOpState row.seq .inProgress : Commit V) (apply .readClock w)
  let result := (answer c row.operation w.memory).1
  let u : World V := { v with memory := (answer c row.operation w.memory).2 }
  have hcall : (callHandler c row.operation).run v = (.ok result, u) := callHandler_answer c _ v
  obtain ⟨z, hz, hacks⟩ := recordAcks_run row.operation (reported row.operation result) u
  refine ⟨apply (closing c row result) z, ?_⟩
  have hrun : (runOp c row).run v = (.ok (), apply (closing c row result) z) := by
    rw [runOp_eq, Proc.run_bind_ok hcall, Proc.run_bind_ok hz, run_commit]
  have hrow : row ∈ w.db.opLog.rows := (live_of_selectEligible selected).1
  obtain ⟨acks, tick, rfl⟩ := hacks
  obtain ⟨f, hlog, hmemory, hverdict⟩ := closing_verdict c row result
    ({ u with db := { u.db with indexAcks := acks }, tick := tick } : World V)
  refine ⟨_, hrun, hverdict { row.progress with
    state := .inProgress, updatedAt := (apply .readClock w).now }, ?_, hmemory⟩
  rw [hlog]
  exact (advance_advance w.db.opLog _ _ f fun _ _ => rfl).trans (advance_row hrow _)

theorem applyNext_run (c : WriteCoordinator V) (w : World V) :
    (selectEligible w.db.opLog w.now = none ∧
      (applyNext c).run w = (.ok none, apply .readClock w)) ∨
    ∃ row t p, selectEligible w.db.opLog w.now = some row ∧
      (applyNext c).run w = (.ok (some row.operation.opId), t) ∧
      Verdict c row (answer c row.operation w.memory).1 p ∧
      t.db.opLog = w.db.opLog.advance (fun r => r.seq = row.seq) (fun _ => p) ∧
      t.memory = (answer c row.operation w.memory).2 := by
  have hnext : (applyNext c).run w = (applySelected c (selectEligible w.db.opLog w.now) >>=
      fun applied => commit .release >>= fun _ => pure applied).run (apply .readClock w) := rfl
  cases hsel : selectEligible w.db.opLog w.now with
  | none =>
    rw [hsel] at hnext
    exact .inl ⟨rfl, hnext⟩
  | some row =>
    obtain ⟨t, p, hrun, hverdict, hlog, hmemory⟩ := runOp_run (c := c) hsel
    refine .inr ⟨row, t, p, rfl, ?_, hverdict, hlog, hmemory⟩
    have happlied : (applySelected c (some row)).run (apply .readClock w) =
        (.ok (some row.operation.opId), t) := Proc.run_bind_ok hrun
    rw [hnext, hsel, Proc.run_bind_ok happlied]
    rfl

/-- Wherever an application is stopped, it stands at one of its points. -/
theorem points_applyNext {cs : List (Commit V)} {q : Prog V (Option OpId)}
    (h : Proc.Reaches (applyNext c) w cs q t) : Point c w t := by
  have hidle : Point c w w := .idle rfl rfl
  have hclock : Point c w (apply .readClock w) := .idle rfl rfl
  rcases h.of_bind with ⟨r, hr, _⟩ | ⟨_, u, _, _, hrun, _, _, h⟩
  · rcases hr.of_performing with rfl | rfl <;> exact hidle
  cases hrun
  rcases h.of_bind with ⟨r, hr, _⟩ | ⟨now, u, _, _, hrun, _, _, h⟩
  · rcases hr.of_performing with rfl | rfl
    · exact hidle
    · exact hclock
  cases hrun
  rcases h.of_bind with ⟨r, hr, _⟩ | ⟨selected, u, _, _, hrun, _, _, h⟩
  · cases hr.of_read
    exact hclock
  cases hrun
  -- The lock is released, which moves nothing, and the result is handed back.
  have hreleased : ∀ {u : World V} {applied : Option OpId} {cs : List (Commit V)}
      {q : Prog V (Option OpId)}, Proc.Reaches (commit .release >>= fun _ => pure applied) u cs q t →
        t = u := by
    intro u applied cs q h
    rcases h.of_bind with ⟨r, hr, _⟩ | ⟨_, v, _, _, hrun, _, _, h⟩
    · rcases hr.of_performing with rfl | rfl <;> rfl
    · cases hrun
      exact h.of_pure
  change Proc.Reaches (applySelected c (selectEligible w.db.opLog w.now) >>= _)
    (apply .readClock w) _ q t at h
  cases hsel : selectEligible w.db.opLog w.now with
  | none =>
    rw [hsel] at h
    cases hreleased h
    exact hclock
  | some row =>
    rw [hsel] at h
    rcases h.of_bind with ⟨r, hr, _⟩ | ⟨applied, v, _, _, hrun, _, _, h⟩
    · rcases hr.of_bind with ⟨r', hr', _⟩ | ⟨_, v, _, _, hrun, _, _, hr⟩
      · rcases hr'.of_performing with rfl | rfl
        · exact hclock
        · exact .begun hsel _ rfl (.inl rfl)
      · cases hrun
        rcases hr.of_bind with ⟨r', hr', _⟩ | ⟨_, v, _, _, hrun, _, _, hr⟩
        · exact points_runOp hsel hr'
        · obtain ⟨z, p, hz, hverdict, hlog, hmemory⟩ := runOp_run (c := c) hsel
          cases hz.symm.trans hrun
          cases hr.of_pure
          exact .closed hsel hverdict hlog hmemory
    · obtain ⟨z, p, hz, hverdict, hlog, hmemory⟩ := runOp_run (c := c) hsel
      have happlied : (applySelected c (some row)).run (apply .readClock w) =
          (.ok (some row.operation.opId), z) := Proc.run_bind_ok hz
      rw [happlied] at hrun
      cases hrun
      cases hreleased h
      exact .closed hsel hverdict hlog hmemory

end Points
end StrataMemory.Applications
