import StrataMemory.AckTable
import StrataMemory.QueueProgress

set_option autoImplicit false

namespace StrataMemory.HandlerCalls
open KeyedTables Records Tables Procedures Worlds Coordinator CoordinatorRuns Applications
open QueueRuns QueueProgress AckTable

section Calls
variable {V : Type} {c : WriteCoordinator V} {opId : OpId}

def callsOf (opId : OpId) (calls : List HandlerCall) : ℕ :=
  calls.countP fun call => call.operation.opId = opId

/-- The moves that may buy another call of the operation. -/
def buys (opId : OpId) : Move → Bool
  | .crash _ => true
  | .retry other => other = opId
  | _ => false

/-- The calls so far, and those that the row has left, are paid for. -/
structure Paid (c : WriteCoordinator V) (opId : OpId) (bought : ℕ)
    (w : World (V × List HandlerCall)) : Prop where
  queued : ∀ row ∈ w.db.opLog.rows, row.operation.opId = opId →
    callsOf opId w.memory.2 + weight c row ≤ max 1 c.maxAttempts + bought
  unqueued : (∀ row ∈ w.db.opLog.rows, row.operation.opId ≠ opId) → callsOf opId w.memory.2 = 0

theorem Paid.mono {n k : ℕ} {w : World (V × List HandlerCall)} (h : Paid c opId n w) (hnk : n ≤ k) :
    Paid c opId k w :=
  ⟨fun row hrow hop => (h.queued row hrow hop).trans (Nat.add_le_add_left hnk _), h.unqueued⟩

theorem paid_advance {n k : ℕ} {w t : World (V × List HandlerCall)} (h : Paid c opId n w)
    {p : OpRow → Bool} {f : Progress → Progress} (hlog : t.db.opLog = w.db.opLog.advance p f)
    (hmemory : t.memory = w.memory)
    (hweight : ∀ row ∈ w.db.opLog.rows, row.operation.opId = opId → p row = true →
      weight c { row with progress := f row.progress } ≤ weight c row + k) :
    Paid c opId (n + k) t := by
  refine ⟨fun row hrow hop => ?_, fun hnone => ?_⟩
  · rw [hmemory]
    rcases mem_advance_rows (hlog ▸ hrow) with ⟨hold, _⟩ | ⟨old, hold, hp, rfl⟩
    · have hpaid := h.queued row hold hop
      omega
    · have hpaid := h.queued old hold hop
      have hless := hweight old hold hop hp
      omega
  · rw [hmemory]
    refine h.unqueued fun row hrow hop => ?_
    obtain ⟨q, hq⟩ := exists_mem_advance hrow p f
    exact hnone { row with progress := q } (hlog ▸ hq) hop

theorem callsOf_append (calls : List HandlerCall) (call : HandlerCall) :
    callsOf opId (calls ++ [call]) = callsOf opId calls +
      if call.operation.opId = opId then 1 else 0 := by
  unfold callsOf
  rw [List.countP_append, List.countP_singleton]
  simp only [decide_eq_true_eq]

theorem callsOf_answer (op : Operation) (m : V × List HandlerCall) :
    callsOf opId (answer (journaled c) op m).2.2 ≤ callsOf opId m.2 +
      if op.opId = opId then 1 else 0 := by
  rcases (answer_journaled c op m.1 m.2).2 with hcalled | ⟨hsilent, _⟩
  · rw [hcalled, callsOf_append]
  · rw [hsilent]
    exact Nat.le_add_right _ _

/-- The selected row pays for the call with its weight, or with what has been bought. -/
theorem paid_selected {n k : ℕ} {w t : World (V × List HandlerCall)} (h : Paid c opId n w)
    {row : OpRow} (hrow : row ∈ w.db.opLog.rows) {f : Progress → Progress}
    (hlog : t.db.opLog = w.db.opLog.advance (fun r => r.seq = row.seq) f)
    (hcalls : callsOf opId t.memory.2 ≤ callsOf opId w.memory.2 +
      if row.operation.opId = opId then 1 else 0)
    (hweight : weight c { row with progress := f row.progress } + 1 ≤ weight c row + k) :
    Paid c opId (n + k) t := by
  refine ⟨fun other hother hop => ?_, fun hnone => ?_⟩
  · rcases mem_advance_rows (hlog ▸ hother) with ⟨hold, hne⟩ | ⟨old, hold, hseq, rfl⟩
    · have hdistinct : row.operation.opId ≠ opId := fun heq => by
        rw [row_unique hrow hold (heq.trans hop.symm)] at hne
        exact absurd hne (by simp)
      rw [if_neg hdistinct] at hcalls
      have hpaid := h.queued other hold hop
      omega
    · cases seq_unique hrow hold (of_decide_eq_true hseq)
      have hown : row.operation.opId = opId := hop
      rw [if_pos hown] at hcalls
      have hpaid := h.queued row hrow hown
      omega
  · have hnone' : ∀ other ∈ w.db.opLog.rows, other.operation.opId ≠ opId := by
      intro other hother hop
      obtain ⟨q, hq⟩ := exists_mem_advance hother (fun r => r.seq = row.seq) f
      exact hnone { other with progress := q } (hlog ▸ hq) hop
    rw [if_neg (hnone' row hrow), h.unqueued hnone'] at hcalls
    exact Nat.le_zero.mp hcalls

theorem weight_of_state {row : OpRow} {p : Progress} (hattempts : p.attempts = row.progress.attempts)
    (hlive : p.state.isLive = row.isLive) : weight c { row with progress := p } = weight c row := by
  unfold weight OpRow.isLive at *
  rw [hlive, hattempts]

/-- A point of an application: it is paid for, unless the process dies before the row is closed. -/
theorem paid_point {n : ℕ} {w t : World (V × List HandlerCall)} (h : Paid c opId n w)
    (hpoint : Point (journaled c) w t) : Paid c opId (n + 1) t := by
  cases hpoint with
  | idle hlog hmemory =>
    refine Paid.mono ⟨fun row hrow hop => ?_, fun hnone => ?_⟩ (Nat.le_succ n)
    · rw [hmemory]
      exact h.queued row (hlog ▸ hrow) hop
    · rw [hmemory]
      exact h.unqueued fun row hrow => hnone row (hlog ▸ hrow)
  | begun hsel now hlog hmemory =>
    obtain ⟨hrow, hlive⟩ := live_of_selectEligible hsel
    refine paid_selected h hrow hlog ?_ ?_
    · rcases hmemory with hmemory | hmemory
      · rw [hmemory]
        exact Nat.le_add_right _ _
      · rw [hmemory]
        exact callsOf_answer _ w.memory
    · rename_i row
      have hsame : OpState.inProgress.isLive = row.isLive := hlive.symm
      exact (congrArg (· + 1) (weight_of_state
        (p := { row.progress with state := .inProgress, updatedAt := now }) rfl hsame)).le
  | closed hsel hverdict hlog hmemory =>
    obtain ⟨hrow, hlive⟩ := live_of_selectEligible hsel
    refine Paid.mono (k := n + 1) (paid_selected (k := 0) h hrow hlog ?_ ?_) (Nat.le_succ n)
    · rw [hmemory]
      exact callsOf_answer _ w.memory
    · exact weight_verdict (c := journaled c) hlive hverdict

theorem paid_applyNext {n : ℕ} {w : World (V × List HandlerCall)} (h : Paid c opId n w) :
    Paid c opId n ((applyNext (journaled c)).final w) := by
  rcases applyNext_run (journaled c) w with ⟨_, hrun⟩ | ⟨row, t, p, hsel, hrun, hverdict, hlog, hmemory⟩
  · rw [Proc.final_of_run hrun]
    exact ⟨h.queued, h.unqueued⟩
  · rw [Proc.final_of_run hrun]
    obtain ⟨hrow, hlive⟩ := live_of_selectEligible hsel
    refine paid_selected (k := 0) h hrow hlog ?_ (weight_verdict (c := journaled c) hlive hverdict)
    rw [hmemory]
    exact callsOf_answer _ w.memory

theorem paid_recover {n : ℕ} {w : World (V × List HandlerCall)} (h : Paid c opId n w) :
    Paid c opId n (apply .recover w) := by
  refine paid_advance (k := 0) h (p := fun r => r.progress.state = .inProgress)
    (f := fun q => { q with state := .pending, updatedAt := w.now }) rfl rfl
    fun row _ _ hstate => ?_
  have hlive : OpState.pending.isLive = row.isLive := by
    rw [OpRow.isLive, of_decide_eq_true hstate]
    rfl
  rw [weight_of_state (p := { row.progress with state := .pending, updatedAt := w.now }) rfl hlive]
  exact Nat.le_add_right _ _

theorem weight_retried {row : OpRow} {p : Progress}
    (hexhausted : row.progress.state = .failed → c.maxAttempts ≤ row.progress.attempts)
    (hstate : row.progress.state = .partialFailure ∨ row.progress.state = .failed)
    (hattempts : p.attempts = row.progress.attempts) (hpending : p.state = .pending) :
    weight c { row with progress := p } ≤ weight c row + 1 := by
  rcases hstate with hpartial | hfailed
  · rw [weight_of_state hattempts (by rw [OpRow.isLive, hpending, hpartial]; rfl)]
    exact Nat.le_succ _
  · have hleft := hexhausted hfailed
    unfold weight
    dsimp only
    rw [hattempts]
    split <;> omega

theorem paid_step {n : ℕ} {w : World (V × List HandlerCall)} (hw : Honest c w)
    (h : Paid c opId n w) (m : Move) :
    Paid c opId (n + if buys opId m then 1 else 0) (step (journaled c) w m) := by
  cases m with
  | enqueue op =>
    refine ⟨fun row hrow hop => ?_, fun hnone => ?_⟩
    · rcases mem_append_rows hrow with hold | ⟨hqueued, hsame⟩
      · exact h.queued row hold hop
      · have hcalls : callsOf opId w.memory.2 = 0 := h.unqueued fun other hother heq =>
          hqueued.fresh (hop ▸ heq ▸ List.mem_map_of_mem hother)
        change callsOf opId w.memory.2 + weight c row ≤ _
        rw [hcalls, weight]
        split <;> omega
    · exact h.unqueued fun row hrow => hnone row (mem_append_of_mem hrow op w.now)
  | applyNext => exact paid_applyNext h
  | crash moment =>
    obtain ⟨cs, q, hreaches⟩ := Proc.Reaches.stopped moment (applyNext (journaled c)) w
    exact paid_recover (paid_point h (points_applyNext hreaches))
  | recover => exact paid_recover h
  | retry other =>
    by_cases hother : other = opId
    · have hbuys : buys opId (.retry other) = true := decide_eq_true hother
      rw [if_pos hbuys]
      refine paid_advance h (f := fun q => { q with
        state := .pending, nextAttemptAt := none, updatedAt := w.now }) rfl rfl
        fun row hrow _ hstate => ?_
      simp only [Bool.and_eq_true, Bool.or_eq_true, decide_eq_true_eq] at hstate
      exact weight_retried (hw.rows row hrow).exhausted hstate.2 rfl rfl
    · have hbuys : buys opId (.retry other) = false := decide_eq_false hother
      rw [if_neg (by rw [hbuys]; decide)]
      refine paid_advance (k := 0) h (f := fun q => { q with
        state := .pending, nextAttemptAt := none, updatedAt := w.now }) rfl rfl
        fun row _ hop hstate => ?_
      simp only [Bool.and_eq_true, decide_eq_true_eq] at hstate
      exact absurd (hstate.1.symm.trans hop) hother
  | elapse clock => exact ⟨h.queued, h.unqueued⟩

theorem paid_run {n : ℕ} {w : World (V × List HandlerCall)} (hw : Honest c w)
    (h : Paid c opId n w) (moves : List Move) :
    Paid c opId (n + moves.countP (buys opId)) (run (journaled c) moves w) := by
  induction moves generalizing w n with
  | nil => exact h
  | cons m moves ih =>
    have hrest := ih (honest_step hw m) (paid_step hw h m)
    rw [List.countP_cons]
    refine hrest.mono ?_
    omega

end Calls

/-- No operation is handed to its handler more often than it has attempts, but for one call
that each crash may repeat and one that each retry of it may add. -/
theorem handler_calls_bounded {V : Type} (c : WriteCoordinator V) (w : World V)
    (hlog : w.db.opLog.rows = []) (hacks : w.db.indexAcks = ∅) (moves : List Move) (opId : OpId) :
    callsOf opId (run (journaled c) moves (withJournal w)).memory.2 ≤
      max 1 c.maxAttempts + moves.countP (buys opId) := by
  have hrows : (withJournal w).db.opLog.rows = [] := hlog
  have hpaid : Paid c opId 0 (withJournal w) :=
    ⟨fun row hrow => absurd (hrows ▸ hrow) List.not_mem_nil, fun _ => rfl⟩
  have hrun := paid_run (honest_start hlog hacks) hpaid moves
  rw [Nat.zero_add] at hrun
  by_cases hqueued : ∃ row ∈ (run (journaled c) moves (withJournal w)).db.opLog.rows,
      row.operation.opId = opId
  · obtain ⟨row, hrow, hop⟩ := hqueued
    exact (Nat.le_add_right _ _).trans (hrun.queued row hrow hop)
  · rw [hrun.unqueued fun row hrow hop => hqueued ⟨row, hrow, hop⟩]
    exact Nat.zero_le _

theorem handler_calls_bounded_retried :
    let moves := exhausted ++ [.retry 1, .applyNext]
    let calls := callsOf 1 (run (journaled downAtFirst) moves (withJournal newQueue)).memory.2
    calls = 6 ∧ calls ≤ max 1 5 + 1 :=
  ⟨by decide +kernel, handler_calls_bounded downAtFirst newQueue rfl rfl _ 1⟩

end StrataMemory.HandlerCalls
