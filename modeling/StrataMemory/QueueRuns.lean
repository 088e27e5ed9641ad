import StrataMemory.Applications

set_option autoImplicit false

namespace StrataMemory.QueueRuns
open KeyedTables Records Tables Procedures Worlds Coordinator CoordinatorRuns Applications

inductive Move where
  | enqueue (op : Operation)
  | applyNext
  /-- The process dies inside an application and the next one recovers the log. -/
  | crash (moment : ℕ)
  | recover
  | retry (opId : OpId)
  | elapse (clock : ℕ → Time)

section Runs
variable {V : Type}

def step (c : WriteCoordinator V) (w : World V) : Move → World V
  | .enqueue op => (enqueue op).final w
  | .applyNext => (applyNext c).final w
  | .crash moment => recover.final ((applyNext c).stopped moment w)
  | .recover => recover.final w
  | .retry opId => (retry opId).final w
  | .elapse clock => { w with clock := clock }

def run (c : WriteCoordinator V) (moves : List Move) (w : World V) : World V :=
  moves.foldl (step c) w

def WithoutRetry (moves : List Move) : Prop := ∀ opId, Move.retry opId ∉ moves

/-- Every move of the run meets the condition in the world it is made in. -/
def Meets (P : World V → Move → Prop) (c : WriteCoordinator V) : List Move → World V → Prop
  | [], _ => True
  | m :: moves, w => P w m ∧ Meets P c moves (step c w m)

theorem meets_of_mem {P : World V → Move → Prop} {c : WriteCoordinator V} {moves : List Move}
    (h : ∀ m ∈ moves, ∀ w, P w m) (w : World V) : Meets P c moves w := by
  induction moves generalizing w with
  | nil => trivial
  | cons m moves ih =>
    exact ⟨h m List.mem_cons_self w, ih (fun m' hm' => h m' (List.mem_cons_of_mem _ hm')) _⟩

theorem meets_append {P : World V → Move → Prop} {c : WriteCoordinator V} {moves more : List Move}
    {w : World V} (h : Meets P c moves w) (h' : Meets P c more (run c moves w)) :
    Meets P c (moves ++ more) w := by
  induction moves generalizing w with
  | nil => exact h'
  | cons m moves ih => exact ⟨h.1, ih h.2 h'⟩

def Unforced (_ : World V) (m : Move) : Prop := ∀ opId, m ≠ .retry opId

theorem meets_unforced {c : WriteCoordinator V} {moves : List Move} (h : WithoutRetry moves)
    (w : World V) : Meets Unforced c moves w := by
  refine meets_of_mem (fun m hm _ opId hretry => ?_) w
  subst hretry
  exact h opId hm

/-- What a move, or an application that has been stopped, does to the log and the adapters. -/
inductive Effect (c : WriteCoordinator V) (P : World V → Move → Prop) (w t : World V) : Prop where
  | application (point : Point c w t)
  | enqueued (op : Operation) (now : Time) (met : P w (.enqueue op))
      (log : t.db.opLog = w.db.opLog.append op now) (memory : t.memory = w.memory)
  | recovered (now : Time)
      (log : t.db.opLog = w.db.opLog.advance (fun r => r.progress.state = .inProgress)
        fun p => { p with state := .pending, updatedAt := now })
      (memory : t.memory = w.memory)
  | retried (opId : OpId) (now : Time) (met : P w (.retry opId))
      (log : t.db.opLog = w.db.opLog.advance
        (fun r => r.operation.opId = opId &&
          (r.progress.state = .partialFailure || r.progress.state = .failed))
        fun p => { p with state := .pending, nextAttemptAt := none, updatedAt := now })
      (memory : t.memory = w.memory)

theorem effect_stopped (c : WriteCoordinator V) (P : World V → Move → Prop) (n : ℕ) (w : World V) :
    Effect c P w ((applyNext c).stopped n w) := by
  obtain ⟨cs, q, h⟩ := Proc.Reaches.stopped n (applyNext c) w
  exact .application (points_applyNext h)

theorem effect_applyNext (c : WriteCoordinator V) (P : World V → Move → Prop) (w : World V) :
    Effect c P w ((applyNext c).final w) := by
  rcases applyNext_run c w with ⟨_, hrun⟩ | ⟨row, t, p, hsel, hrun, hverdict, hlog, hmemory⟩
  · unfold Proc.final
    rw [hrun]
    exact .application (.idle rfl rfl)
  · unfold Proc.final
    rw [hrun]
    exact .application (.closed hsel hverdict hlog hmemory)

theorem step_effects {c : WriteCoordinator V} {P : World V → Move → Prop} {w : World V} {m : Move}
    (hm : P w m) :
    ∃ u, Effect c P w u ∧ Effect c P u (step c w m) := by
  have hidle : ∀ u : World V, Effect c P u u := fun u => .application (.idle rfl rfl)
  cases m with
  | enqueue op => exact ⟨w, hidle w, .enqueued op _ hm rfl rfl⟩
  | applyNext => exact ⟨w, hidle w, effect_applyNext c P w⟩
  | crash moment => exact ⟨_, effect_stopped c P moment w, .recovered _ rfl rfl⟩
  | recover => exact ⟨w, hidle w, .recovered _ rfl rfl⟩
  | retry opId => exact ⟨w, hidle w, .retried opId _ hm rfl rfl⟩
  | elapse clock => exact ⟨w, hidle w, .application (.idle rfl rfl)⟩

/-- What every effect keeps holds after a run, and wherever its next application is stopped. -/
theorem run_keeps {c : WriteCoordinator V} {P : World V → Move → Prop} {I : World V → Prop}
    (hI : ∀ w t, I w → Effect c P w t → I t) {moves : List Move} {w : World V}
    (hmoves : Meets P c moves w) (hw : I w) : I (run c moves w) := by
  induction moves generalizing w with
  | nil => exact hw
  | cons m moves ih =>
    obtain ⟨u, hu, ht⟩ := step_effects (c := c) hmoves.1
    exact ih hmoves.2 (hI _ _ (hI _ _ hw hu) ht)

theorem stopped_keeps {c : WriteCoordinator V} {P : World V → Move → Prop} {I : World V → Prop}
    (hI : ∀ w t, I w → Effect c P w t → I t) {w : World V} (hw : I w) (n : ℕ) :
    I ((applyNext c).stopped n w) :=
  hI _ _ hw (effect_stopped c P n w)

inductive Changed (c : WriteCoordinator V) (P : World V → Move → Prop) (w : World V) (row : OpRow) :
    Progress → Prop where
  | kept : Changed c P w row row.progress
  | begun {p : Progress} (selected : selectEligible w.db.opLog w.now = some row)
      (state : p.state = .inProgress) : Changed c P w row p
  | closed {p : Progress} (selected : selectEligible w.db.opLog w.now = some row)
      (verdict : Verdict c row (answer c row.operation w.memory).1 p) : Changed c P w row p
  | recovered {p : Progress} (interrupted : row.progress.state = .inProgress)
      (state : p.state = .pending) : Changed c P w row p
  | retried {p : Progress} (met : P w (.retry row.operation.opId))
      (refused : row.progress.state = .partialFailure ∨ row.progress.state = .failed)
      (state : p.state = .pending) : Changed c P w row p

structure Queued (log : OpLog) (row : OpRow) : Prop where
  seq : row.seq = log.nextSeq
  state : row.progress.state = .pending
  fresh : row.operation.opId ∉ log.rows.map fun r => r.operation.opId

theorem mem_append_rows {log : OpLog} {op : Operation} {now : Time} {row : OpRow}
    (h : row ∈ (log.append op now).rows) :
    row ∈ log.rows ∨ Queued log row ∧ row.operation = op := by
  unfold OpLog.append at h
  split at h
  · exact .inl h
  · rename_i hfresh
    refine (List.mem_append.mp h).imp_right fun h => ?_
    cases List.mem_singleton.mp h
    exact ⟨⟨rfl, rfl, hfresh⟩, rfl⟩

theorem mem_advance_rows {log : OpLog} {p : OpRow → Bool} {f : Progress → Progress} {row : OpRow}
    (h : row ∈ (log.advance p f).rows) :
    row ∈ log.rows ∧ p row = false ∨
      ∃ old ∈ log.rows, p old = true ∧ row = { old with progress := f old.progress } := by
  obtain ⟨old, hold, rfl⟩ := List.mem_map.mp h
  by_cases hp : p old = true
  · rw [if_pos hp]
    exact .inr ⟨old, hold, hp, rfl⟩
  · rw [if_neg hp]
    exact .inl ⟨hold, Bool.eq_false_iff.mpr hp⟩

theorem Effect.row {c : WriteCoordinator V} {P : World V → Move → Prop} {w t : World V}
    (h : Effect c P w t) {row : OpRow} (hrow : row ∈ t.db.opLog.rows) :
    (∃ old ∈ w.db.opLog.rows, ∃ p, row = { old with progress := p } ∧ Changed c P w old p) ∨
      Queued w.db.opLog row ∧ P w (.enqueue row.operation) := by
  have hkept : ∀ old ∈ w.db.opLog.rows,
      ∃ old' ∈ w.db.opLog.rows, ∃ p, old = { old' with progress := p } ∧ Changed c P w old' p :=
    fun old hold => ⟨old, hold, _, rfl, .kept⟩
  -- Only the selected row changes in an application.
  have hselected : ∀ {selected : OpRow} {p : OpRow → Bool} {f : Progress → Progress},
      selectEligible w.db.opLog w.now = some selected → (p = fun r => decide (r.seq = selected.seq)) →
      Changed c P w selected (f selected.progress) → row ∈ (w.db.opLog.advance p f).rows →
      ∃ old ∈ w.db.opLog.rows, ∃ p, row = { old with progress := p } ∧ Changed c P w old p := by
    intro selected p f hsel hp hchanged hrow
    rcases mem_advance_rows hrow with ⟨hold, _⟩ | ⟨old, hold, hseq, rfl⟩
    · exact hkept row hold
    · subst hp
      have hsame : old = selected :=
        seq_unique (live_of_selectEligible hsel).1 hold (of_decide_eq_true hseq)
      exact ⟨old, hold, _, rfl, hsame ▸ hchanged⟩
  cases h with
  | application point =>
    cases point with
    | idle hlog _ => exact .inl (hkept row (hlog ▸ hrow))
    | begun hsel now hlog _ =>
      exact .inl (hselected hsel rfl (.begun hsel rfl) (hlog ▸ hrow))
    | closed hsel hverdict hlog _ =>
      exact .inl (hselected hsel rfl (.closed hsel hverdict) (hlog ▸ hrow))
  | enqueued op now hmet hlog _ =>
    refine (mem_append_rows (hlog ▸ hrow)).imp (hkept row) fun h => ?_
    exact ⟨h.1, h.2 ▸ hmet⟩
  | recovered now hlog _ =>
    rcases mem_advance_rows (hlog ▸ hrow) with ⟨hold, _⟩ | ⟨old, hold, hstate, rfl⟩
    · exact .inl (hkept row hold)
    · exact .inl ⟨old, hold, _, rfl, .recovered (of_decide_eq_true hstate) rfl⟩
  | retried opId now hmet hlog _ =>
    rcases mem_advance_rows (hlog ▸ hrow) with ⟨hold, _⟩ | ⟨old, hold, hstate, rfl⟩
    · exact .inl (hkept row hold)
    · simp only [Bool.and_eq_true, Bool.or_eq_true, decide_eq_true_eq] at hstate
      obtain ⟨rfl, hstate⟩ := hstate
      exact .inl ⟨old, hold, _, rfl, .retried hmet hstate rfl⟩

theorem exists_mem_advance {log : OpLog} {row : OpRow} (hrow : row ∈ log.rows)
    (p : OpRow → Bool) (f : Progress → Progress) :
    ∃ q, { row with progress := q } ∈ (log.advance p f).rows := by
  have hmem : _ ∈ (log.advance p f).rows := List.mem_map_of_mem hrow
  by_cases hp : p row = true
  · rw [if_pos hp] at hmem
    exact ⟨_, hmem⟩
  · rw [if_neg hp] at hmem
    exact ⟨_, hmem⟩

theorem mem_append_of_mem {log : OpLog} {row : OpRow} (hrow : row ∈ log.rows) (op : Operation)
    (now : Time) : row ∈ (log.append op now).rows := by
  unfold OpLog.append
  split
  · exact hrow
  · exact List.mem_append_left _ hrow

theorem Effect.kept {c : WriteCoordinator V} {P : World V → Move → Prop} {w t : World V}
    (h : Effect c P w t) {row : OpRow} (hrow : row ∈ w.db.opLog.rows) :
    ∃ p, { row with progress := p } ∈ t.db.opLog.rows := by
  cases h with
  | application point =>
    cases point with
    | idle hlog _ => exact ⟨row.progress, hlog ▸ hrow⟩
    | begun _ _ hlog _ => exact hlog ▸ exists_mem_advance hrow _ _
    | closed _ _ hlog _ => exact hlog ▸ exists_mem_advance hrow _ _
  | enqueued op now _ hlog _ => exact ⟨row.progress, hlog ▸ mem_append_of_mem hrow op now⟩
  | recovered now hlog _ => exact hlog ▸ exists_mem_advance hrow _ _
  | retried opId now _ hlog _ => exact hlog ▸ exists_mem_advance hrow _ _

theorem Effect.row_of_seq {c : WriteCoordinator V} {P : World V → Move → Prop} {w t : World V}
    (h : Effect c P w t) {row old : OpRow} (hrow : row ∈ t.db.opLog.rows)
    (hold : old ∈ w.db.opLog.rows) (hseq : row.seq = old.seq) :
    ∃ p, row = { old with progress := p } ∧ Changed c P w old p := by
  rcases h.row hrow with ⟨other, hother, p, rfl, hchanged⟩ | ⟨hqueued, _⟩
  · cases seq_unique hold hother hseq
    exact ⟨p, rfl, hchanged⟩
  · have hbound := w.db.opLog.seq_bound old hold
    rw [← hseq, hqueued.seq] at hbound
    exact absurd hbound (Nat.lt_irrefl _)

theorem Changed.settled {c : WriteCoordinator V} {P : World V → Move → Prop} {w : World V}
    {row : OpRow} {p : Progress} (h : Changed c P w row p) (hrow : row.isLive = false) :
    p = row.progress ∨ P w (.retry row.operation.opId) ∧ row.progress.state = .failed := by
  have hlive : selectEligible w.db.opLog w.now = some row → p = row.progress := fun hsel =>
    absurd ((live_of_selectEligible hsel).2.symm.trans hrow) (by decide)
  cases h with
  | kept => exact .inl rfl
  | begun hsel _ => exact .inl (hlive hsel)
  | closed hsel _ => exact .inl (hlive hsel)
  | recovered hstate _ => simp [OpRow.isLive, OpState.isLive, hstate] at hrow
  | retried hmet hstate _ =>
    refine .inr ⟨hmet, hstate.resolve_left fun hpartial => ?_⟩
    simp [OpRow.isLive, OpState.isLive, hpartial] at hrow

end Runs

structure HandlerCall where
  operation : Operation
  result : Except String Acks
  deriving DecidableEq

def HandlerCall.succeededOn (call : HandlerCall) (id : RecordId) : Bool :=
  match call.result with
  | .error _ => false
  | .ok acks => decide (id ∈ call.operation.targetIds) && acks.get id

section Journal
variable {V : Type}

def journaled (c : WriteCoordinator V) : WriteCoordinator (V × List HandlerCall) where
  handlers name := (c.handlers name).map fun handler op m =>
    ((handler op m.1).1, (handler op m.1).2, m.2 ++ [⟨op, (handler op m.1).1⟩])
  maxAttempts := c.maxAttempts
  backoffBaseMs := c.backoffBaseMs
  printable := c.printable

theorem answer_journaled (c : WriteCoordinator V) (op : Operation) (v : V)
    (journal : List HandlerCall) :
    (answer (journaled c) op (v, journal)).1 = (answer c op v).1 ∧
      ((answer (journaled c) op (v, journal)).2.2 = journal ++ [⟨op, (answer c op v).1⟩] ∨
        (answer (journaled c) op (v, journal)).2.2 = journal ∧
          fullyAcked op (answer c op v).1 = false) := by
  unfold answer
  cases htarget : op.target with
  | none => exact ⟨rfl, .inr ⟨rfl, rfl⟩⟩
  | some name =>
    simp only [Option.bind_some, journaled]
    cases c.handlers name with
    | none => exact ⟨rfl, .inr ⟨rfl, rfl⟩⟩
    | some handler => exact ⟨rfl, .inl rfl⟩

/-- An effect adds at most one call to the journal, of the row that it selects. -/
theorem Effect.journal {c : WriteCoordinator V} {P : World (V × List HandlerCall) → Move → Prop}
    {w t : World (V × List HandlerCall)} (h : Effect (journaled c) P w t) :
    t.memory.2 = w.memory.2 ∨ ∃ row, selectEligible w.db.opLog w.now = some row ∧
      t.memory.2 = w.memory.2 ++ [⟨row.operation, (answer c row.operation w.memory.1).1⟩] := by
  have hanswer : ∀ {row : OpRow}, selectEligible w.db.opLog w.now = some row →
      t.memory = (answer (journaled c) row.operation w.memory).2 →
      t.memory.2 = w.memory.2 ∨ ∃ row, selectEligible w.db.opLog w.now = some row ∧
        t.memory.2 = w.memory.2 ++ [⟨row.operation, (answer c row.operation w.memory.1).1⟩] := by
    intro row hsel hmemory
    rcases (answer_journaled c row.operation w.memory.1 w.memory.2).2 with hcalled | ⟨hsilent, _⟩
    · exact .inr ⟨row, hsel, hmemory ▸ hcalled⟩
    · exact .inl (hmemory ▸ hsilent)
  cases h with
  | application point =>
    cases point with
    | idle _ hmemory => exact .inl (congrArg Prod.snd hmemory)
    | begun hsel _ _ hmemory =>
      exact hmemory.elim (fun h => .inl (congrArg Prod.snd h)) (hanswer hsel)
    | closed hsel _ _ hmemory => exact hanswer hsel hmemory
  | enqueued _ _ _ _ hmemory => exact .inl (congrArg Prod.snd hmemory)
  | recovered _ _ hmemory => exact .inl (congrArg Prod.snd hmemory)
  | retried _ _ _ _ hmemory => exact .inl (congrArg Prod.snd hmemory)

def withJournal (w : World V) : World (V × List HandlerCall) :=
  ⟨w.db, (w.memory, []), w.clock, w.tick, w.operationIds, w.recordIds, w.allocated⟩

end Journal

/-- The handler raises on its first five calls. -/
def downAtFirst : WriteCoordinator ℕ where
  handlers _ := some fun op calls =>
    (if calls < 5 then .error "unreachable" else .ok (op.targetIds.map fun id => (id, true)),
      calls + 1)

/-- An empty log; the clock gains a second at each reading. -/
def newQueue : World ℕ where
  db := .empty
  memory := 0
  clock n := 1000 * n
  tick := 0
  operationIds := 1
  recordIds n := n
  allocated := 0

def upsertOf (opId : OpId) (id : RecordId) : Operation where
  opType := .upsertIndex
  targetIds := [id]
  target := some "vector"
  payload := none
  expectedGeneration := none
  opId := opId

def removalOf (opId : OpId) (id : RecordId) : Operation :=
  { upsertOf opId id with opType := .removeIndex }

def exhausted : List Move := .enqueue (upsertOf 1 7) :: List.replicate 5 .applyNext

end StrataMemory.QueueRuns
