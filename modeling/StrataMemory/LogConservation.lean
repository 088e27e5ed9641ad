import StrataMemory.QueueRuns

set_option autoImplicit false

namespace StrataMemory.LogConservation
open KeyedTables Records Tables Procedures Worlds Coordinator CoordinatorRuns Applications
open QueueRuns

def operations (log : OpLog) : List Operation := log.rows.map OpRow.operation

theorem operations_advance (log : OpLog) (p : OpRow → Bool) (f : Progress → Progress) :
    operations (log.advance p f) = operations log := by
  change (log.rows.map _).map OpRow.operation = _
  rw [List.map_map]
  refine List.map_congr_left fun row _ => ?_
  dsimp only [Function.comp]
  split <;> rfl

theorem operations_append (log : OpLog) (op : Operation) (now : Time) :
    operations (log.append op now) = operations log ∧
        op.opId ∈ (operations log).map Operation.opId ∨
      operations (log.append op now) = operations log ++ [op] ∧
        op.opId ∉ (operations log).map Operation.opId := by
  unfold OpLog.append
  split
  · rename_i h
    exact .inl ⟨rfl, by simpa [operations] using h⟩
  · rename_i h
    exact .inr ⟨by simp [operations], by simpa [operations] using h⟩

section Runs
variable {V : Type} {c : WriteCoordinator V}

theorem operations_stopped (c : WriteCoordinator V) (n : ℕ) (w : World V) :
    operations ((applyNext c).stopped n w).db.opLog = operations w.db.opLog := by
  obtain ⟨cs, q, h⟩ := Proc.Reaches.stopped n (applyNext c) w
  cases points_applyNext h with
  | idle hlog _ => rw [hlog]
  | begun _ _ hlog _ => rw [hlog, operations_advance]
  | closed _ _ hlog _ => rw [hlog, operations_advance]

theorem operations_applyNext (c : WriteCoordinator V) (w : World V) :
    operations ((applyNext c).final w).db.opLog = operations w.db.opLog := by
  unfold Proc.final
  rcases applyNext_run c w with ⟨_, hrun⟩ | ⟨row, t, p, _, hrun, _, hlog, _⟩ <;> rw [hrun]
  · rfl
  · rw [hlog, operations_advance]

def enqueued (moves : List Move) : List Operation :=
  moves.filterMap fun
    | .enqueue op => some op
    | _ => none

/-- Each op id that was queued has a row, which holds what was first queued under the id. -/
def HoldsFirst (log : OpLog) (queued : List Operation) : Prop :=
  (∀ op ∈ queued, op.opId ∈ (operations log).map Operation.opId) ∧
    ∀ op ∈ operations log, queued.find? (fun o => o.opId = op.opId) = some op

theorem HoldsFirst.same {log other : OpLog} {queued : List Operation} (h : HoldsFirst log queued)
    (hsame : operations other = operations log) : HoldsFirst other queued := by
  unfold HoldsFirst
  rw [hsame]
  exact h

theorem HoldsFirst.append {log : OpLog} {queued : List Operation} (h : HoldsFirst log queued)
    (op : Operation) (now : Time) : HoldsFirst (log.append op now) (queued ++ [op]) := by
  have hfind : ∀ o ∈ operations log,
      (queued ++ [op]).find? (fun x => x.opId = o.opId) = some o := fun o ho => by
    rw [List.find?_append, h.2 o ho, Option.some_or]
  rcases operations_append log op now with ⟨hsame, hold⟩ | ⟨hnew, hfresh⟩
  · refine ⟨fun o ho => ?_, hsame ▸ hfind⟩
    rw [hsame]
    rcases List.mem_append.mp ho with ho | ho
    · exact h.1 o ho
    · cases List.mem_singleton.mp ho
      exact hold
  · refine ⟨fun o ho => ?_, fun o ho => ?_⟩
    · rw [hnew, List.map_append]
      rcases List.mem_append.mp ho with ho | ho
      · exact List.mem_append_left _ (h.1 o ho)
      · cases List.mem_singleton.mp ho
        exact List.mem_append_right _ List.mem_cons_self
    · rw [hnew] at ho
      rcases List.mem_append.mp ho with ho | ho
      · exact hfind o ho
      · cases List.mem_singleton.mp ho
        have hnone : queued.find? (fun x => x.opId = op.opId) = none := by
          refine List.find?_eq_none.mpr fun o ho => ?_
          simp only [decide_eq_true_eq]
          exact fun hid => hfresh (hid ▸ h.1 o ho)
        rw [List.find?_append, hnone, Option.none_or]
        exact List.find?_cons_of_pos (by simp)

theorem HoldsFirst.step {w : World V} {queued : List Operation}
    (h : HoldsFirst w.db.opLog queued) (m : Move) :
    HoldsFirst (step c w m).db.opLog (queued ++ enqueued [m]) := by
  have hsame : ∀ {log : OpLog}, operations log = operations w.db.opLog →
      HoldsFirst log (queued ++ []) := fun hlog => by
    rw [List.append_nil]
    exact h.same hlog
  cases m with
  | enqueue op => exact h.append op _
  | applyNext => exact hsame (operations_applyNext c w)
  | crash moment => exact hsame ((operations_advance _ _ _).trans (operations_stopped c moment w))
  | recover => exact hsame (operations_advance _ _ _)
  | retry opId => exact hsame (operations_advance _ _ _)
  | elapse clock => exact hsame rfl

theorem HoldsFirst.run {moves : List Move} {w : World V} {queued : List Operation}
    (h : HoldsFirst w.db.opLog queued) :
    HoldsFirst (run c moves w).db.opLog (queued ++ enqueued moves) := by
  induction moves generalizing w queued with
  | nil =>
    rw [show enqueued [] = [] from rfl, List.append_nil]
    exact h
  | cons m moves ih =>
    rw [show enqueued (m :: moves) = enqueued [m] ++ enqueued moves from
      List.filterMap_append (l := [m]), ← List.append_assoc]
    exact ih (h.step m)

theorem holdsFirst_start (log : OpLog) : HoldsFirst log (operations log) := by
  refine ⟨fun op hop => List.mem_map_of_mem hop, fun op hop => ?_⟩
  obtain ⟨row, hrow, rfl⟩ := List.mem_map.mp hop
  rw [operations, List.find?_map, Option.map_eq_some_iff]
  have hsome : (log.rows.find? fun r => r.operation.opId = row.operation.opId).isSome :=
    List.find?_isSome.mpr ⟨row, hrow, decide_eq_true rfl⟩
  obtain ⟨found, hfound⟩ := Option.isSome_iff_exists.mp hsome
  refine ⟨found, hfound, ?_⟩
  have hid : found.operation.opId = row.operation.opId := by simpa using List.find?_some hfound
  rw [row_unique (List.mem_of_find?_eq_some hfound) hrow hid]

theorem HoldsFirst.unique {log : OpLog} {queued : List Operation} (h : HoldsFirst log queued)
    {op : Operation} (hop : op ∈ queued) : ∃! row, row ∈ log.rows ∧
      row.operation.opId = op.opId ∧
        queued.find? (fun o => o.opId = op.opId) = some row.operation := by
  obtain ⟨_, ho, hid⟩ := List.mem_map.mp (h.1 op hop)
  obtain ⟨row, hrow, rfl⟩ := List.mem_map.mp ho
  have hfirst := h.2 row.operation ho
  rw [hid] at hfirst
  refine ⟨row, ⟨hrow, hid, hfirst⟩, fun other hother => ?_⟩
  exact row_unique hother.1 hrow (hother.2.1.trans hid.symm)

theorem settled_kept {P : World V → Move → Prop} {w t : World V} (h : Effect c P w t) {row : OpRow}
    (hrow : row ∈ w.db.opLog.rows) (hdead : row.isLive = false)
    (hP : row.progress.state = .failed → ¬ P w (.retry row.operation.opId)) : row ∈ t.db.opLog.rows := by
  obtain ⟨p, hp⟩ := h.kept hrow
  obtain ⟨q, hq, hchanged⟩ := h.row_of_seq hp hrow rfl
  cases (congrArg OpRow.progress hq : p = q)
  rcases hchanged.settled hdead with rfl | ⟨hmet, hfailed⟩
  · exact hp
  · exact absurd hmet (hP hfailed)

def Uncalled (row : OpRow) (journal : List HandlerCall) (t : World (V × List HandlerCall)) : Prop :=
  row ∈ t.db.opLog.rows ∧ ∃ calls, t.memory.2 = journal ++ calls ∧
    ∀ call ∈ calls, call.operation.opId ≠ row.operation.opId

theorem Uncalled.effect {P : World (V × List HandlerCall) → Move → Prop}
    {w t : World (V × List HandlerCall)} {row : OpRow} {journal : List HandlerCall}
    (hdead : row.isLive = false) (hP : ∀ w, row.progress.state = .failed → ¬ P w (.retry row.operation.opId))
    (hw : Uncalled row journal w) (h : Effect (journaled c) P w t) : Uncalled row journal t := by
  obtain ⟨hrow, calls, hcalls, huncalled⟩ := hw
  refine ⟨settled_kept h hrow hdead (hP w), ?_⟩
  rcases h.journal with hj | ⟨selected, hsel, hj⟩
  · exact ⟨calls, hj.trans hcalls, huncalled⟩
  · refine ⟨calls ++ [_], by rw [hj, hcalls, List.append_assoc], fun call hcall hid => ?_⟩
    rcases List.mem_append.mp hcall with hcall | hcall
    · exact huncalled call hcall hid
    · cases List.mem_singleton.mp hcall
      obtain ⟨hmem, hlive⟩ := live_of_selectEligible hsel
      rw [row_unique hmem hrow hid] at hlive
      exact absurd (hlive.symm.trans hdead) (by decide)

/-- A row that one effect marks done is of the call that the effect made. -/
theorem marked_effect {P : World (V × List HandlerCall) → Move → Prop}
    {w t : World (V × List HandlerCall)} (h : Effect (journaled c) P w t) {row : OpRow}
    (hrow : row ∈ t.db.opLog.rows) (hdone : row.progress.state = .done) :
    row ∈ w.db.opLog.rows ∨ ∃ acks, t.memory.2 = w.memory.2 ++ [⟨row.operation, .ok acks⟩] ∧
      ∀ id ∈ row.operation.targetIds, acks.get id = true := by
  -- The row is among those that an update leaves alone, or is updated to what it is now.
  have hupdate : ∀ {p : OpRow → Bool} {f : Progress → Progress},
      row ∈ (w.db.opLog.advance p f).rows → (∀ q, (f q).state ≠ .done) → row ∈ w.db.opLog.rows := by
    intro p f hmem hf
    rcases mem_advance_rows hmem with ⟨hold, _⟩ | ⟨old, _, _, rfl⟩
    · exact hold
    · exact absurd hdone (hf old.progress)
  cases h with
  | application point =>
    cases point with
    | idle hlog _ => exact .inl (hlog ▸ hrow)
    | begun _ _ hlog _ => exact .inl (hupdate (hlog ▸ hrow) (by simp))
    | @closed selected hsel p hverdict hlog hmemory =>
      rcases mem_advance_rows (hlog ▸ hrow) with ⟨hold, _⟩ | ⟨old, hold, hseq, rfl⟩
      · exact .inl hold
      · have hsame := seq_unique (live_of_selectEligible hsel).1 hold (of_decide_eq_true hseq)
        subst hsame
        obtain ⟨hresult, hgrown⟩ := answer_journaled c old.operation w.memory.1 w.memory.2
        cases hverdict with
        | done hacked _ =>
          rw [hresult] at hacked
          rcases hgrown with hgrown | ⟨_, hrefused⟩
          · cases hanswer : (answer c old.operation w.memory.1).1 with
            | error reason => simp [hanswer, fullyAcked] at hacked
            | ok acks =>
              refine .inr ⟨acks, ?_, ?_⟩
              · rw [hmemory]
                exact hgrown.trans (by rw [hanswer])
              · simpa [hanswer, fullyAcked] using hacked
          · exact absurd (hacked.symm.trans hrefused) (by decide)
        | failed _ _ hstate => exact absurd (hstate.symm.trans hdone) (by decide)
        | deferred _ _ hstate _ => exact absurd (hstate.symm.trans hdone) (by decide)
  | enqueued op now _ hlog _ =>
    rcases mem_append_rows (hlog ▸ hrow) with hold | ⟨hqueued, _⟩
    · exact .inl hold
    · exact absurd (hqueued.state.symm.trans hdone) (by decide)
  | recovered now hlog _ => exact .inl (hupdate (hlog ▸ hrow) (by simp))
  | retried opId now _ hlog _ => exact .inl (hupdate (hlog ▸ hrow) (by simp))

theorem marked_step {w : World (V × List HandlerCall)} (m : Move) {row : OpRow}
    (hrow : row ∈ (step (journaled c) w m).db.opLog.rows) (hdone : row.progress.state = .done) :
    row ∈ w.db.opLog.rows ∨ ∃ acks,
      (step (journaled c) w m).memory.2 = w.memory.2 ++ [⟨row.operation, .ok acks⟩] ∧
        ∀ id ∈ row.operation.targetIds, acks.get id = true := by
  have hsilent : ∀ {u t : World (V × List HandlerCall)}, row ∈ t.db.opLog.rows →
      t.memory = u.memory → Effect (journaled c) (fun _ _ => True) u t → row ∈ u.db.opLog.rows := by
    intro u t hrow hmemory h
    rcases marked_effect h hrow hdone with hold | ⟨acks, hgrown, _⟩
    · exact hold
    · rw [hmemory] at hgrown
      exact absurd (List.self_eq_append_right.mp hgrown) (List.cons_ne_nil _ _)
  cases m with
  | enqueue op => exact .inl (hsilent hrow rfl (.enqueued op _ trivial rfl rfl))
  | applyNext => exact marked_effect (effect_applyNext _ (fun _ _ => True) w) hrow hdone
  | crash moment =>
    have hstopped : row ∈ ((applyNext (journaled c)).stopped moment w).db.opLog.rows :=
      hsilent hrow rfl (.recovered _ rfl rfl)
    exact marked_effect (effect_stopped _ (fun _ _ => True) moment w) hstopped hdone
  | recover => exact .inl (hsilent hrow rfl (.recovered _ rfl rfl))
  | retry opId => exact .inl (hsilent hrow rfl (.retried opId _ trivial rfl rfl))
  | elapse clock => exact .inl hrow

theorem interrupted_before {w : World V} {row : OpRow}
    (hrow : row ∈ ((applyNext c).final w).db.opLog.rows)
    (hstate : row.progress.state = .inProgress) : row ∈ w.db.opLog.rows := by
  unfold Proc.final at hrow
  rcases applyNext_run c w with ⟨_, hrun⟩ | ⟨selected, t, p, _, hrun, hverdict, hlog, _⟩ <;>
    rw [hrun] at hrow
  · exact hrow
  · rcases mem_advance_rows (hlog ▸ hrow) with ⟨hold, _⟩ | ⟨old, _, _, rfl⟩
    · exact hold
    · have hclosed : p.state ≠ .inProgress := by
        cases hverdict <;> simp [*]
      exact absurd hstate hclosed

/-- What a run from `w` to `t` conserves of the log and of the calls it has made. -/
structure Conserved (moves : List Move) (w t : World (V × List HandlerCall)) : Prop where
  first : ∀ op ∈ operations w.db.opLog ++ enqueued moves, ∃! row, row ∈ t.db.opLog.rows ∧
    row.operation.opId = op.opId ∧ (operations w.db.opLog ++ enqueued moves).find?
      (fun o => o.opId = op.opId) = some row.operation
  kept : ∀ row ∈ w.db.opLog.rows, ∃ p, { row with progress := p } ∈ t.db.opLog.rows
  done : ∀ row ∈ w.db.opLog.rows, row.progress.state = .done → Uncalled row w.memory.2 t
  failed : ∀ row ∈ w.db.opLog.rows, row.progress.state = .failed →
    Move.retry row.operation.opId ∉ moves → row ∈ t.db.opLog.rows

theorem conserved (moves : List Move) (w : World (V × List HandlerCall)) (n : ℕ) :
    Conserved moves w ((applyNext (journaled c)).stopped n (run (journaled c) moves w)) := by
  refine ⟨fun op hop => ?_, fun row hrow => ?_, fun row hrow hdone => ?_,
    fun row hrow hfailed hretry => ?_⟩
  · have hfirst : HoldsFirst (run (journaled c) moves w).db.opLog
        (operations w.db.opLog ++ enqueued moves) := (holdsFirst_start w.db.opLog).run
    exact (hfirst.same (operations_stopped (journaled c) n _)).unique hop
  · have hI : ∀ u t : World (V × List HandlerCall),
        (∃ p, { row with progress := p } ∈ u.db.opLog.rows) →
        Effect (journaled c) (fun _ _ => True) u t →
        ∃ p, { row with progress := p } ∈ t.db.opLog.rows := by
      rintro u t ⟨p, hp⟩ h
      obtain ⟨q, hq⟩ := h.kept hp
      exact ⟨q, hq⟩
    exact stopped_keeps hI
      (run_keeps hI (meets_of_mem (fun _ _ _ => trivial) w) ⟨row.progress, hrow⟩) n
  · have hdead : row.isLive = false := by simp [OpRow.isLive, OpState.isLive, hdone]
    have hI : ∀ u t : World (V × List HandlerCall), Uncalled row w.memory.2 u →
        Effect (journaled c) (fun _ _ => True) u t → Uncalled row w.memory.2 t :=
      fun u t hu h => hu.effect hdead (fun _ hfailed => by simp [hdone] at hfailed) h
    refine stopped_keeps hI (run_keeps hI (meets_of_mem (fun _ _ _ => trivial) w) ?_) n
    exact ⟨hrow, [], (List.append_nil _).symm, fun _ h => absurd h List.not_mem_nil⟩
  · have hdead : row.isLive = false := by simp [OpRow.isLive, OpState.isLive, hfailed]
    have hI : ∀ u t : World (V × List HandlerCall), row ∈ u.db.opLog.rows →
        Effect (journaled c) (fun _ m => m ≠ .retry row.operation.opId) u t →
        row ∈ t.db.opLog.rows := fun u t hu h => settled_kept h hu hdead fun _ hne => hne rfl
    refine stopped_keeps hI (run_keeps hI (meets_of_mem (fun m hmem _ => ?_) w) hrow) n
    rintro rfl
    exact hretry hmem

/-- Every run conserves the log, wherever its next application is stopped. Each step marks
done only what its own call has acknowledged in full, and an application that returns
leaves nothing in progress. -/
theorem log_conserved (c : WriteCoordinator V) (w : World (V × List HandlerCall))
    (moves : List Move) (n : ℕ) :
    let t := run (journaled c) moves w
    Conserved moves w ((applyNext (journaled c)).stopped n t) ∧
    (∀ m, ∀ row ∈ (step (journaled c) t m).db.opLog.rows, row.progress.state = .done →
      row ∈ t.db.opLog.rows ∨ ∃ acks,
        (step (journaled c) t m).memory.2 = t.memory.2 ++ [⟨row.operation, .ok acks⟩] ∧
          ∀ id ∈ row.operation.targetIds, acks.get id = true) ∧
    ∀ row ∈ ((applyNext (journaled c)).final t).db.opLog.rows,
      row.progress.state = .inProgress → row ∈ t.db.opLog.rows :=
  ⟨conserved moves w n, fun m _ hrow hdone => marked_step m hrow hdone,
    fun _ hrow hstate => interrupted_before hrow hstate⟩

end Runs
end StrataMemory.LogConservation
