import Mathlib.Algebra.Order.BigOperators.Group.List
import Mathlib.Algebra.Order.Ring.Nat
import StrataMemory.PendingRows
import StrataMemory.QueueRuns

set_option autoImplicit false

namespace StrataMemory.QueueProgress
open KeyedTables Records Tables Procedures Worlds Coordinator CoordinatorRuns Applications
open PendingRows QueueRuns

section Eligibility

theorem isLive_iff (row : OpRow) :
    row.isLive = true ↔ row.progress.state ≠ .done ∧ row.progress.state ≠ .failed := by
  simp [OpRow.isLive, OpState.isLive]

theorem runnable_of_isLive {row : OpRow} (hlive : row.isLive = true)
    (hidle : row.progress.state ≠ .inProgress) : runnable row = true := by
  obtain ⟨hdone, hfailed⟩ := (isLive_iff row).mp hlive
  unfold runnable
  cases hstate : row.progress.state <;> simp_all

/-- The oldest live row is blocked by nothing, so it is selected as soon as it is due. -/
theorem selectEligible_isSome_iff {log : OpLog}
    (hidle : ∀ row ∈ log.rows, row.progress.state ≠ .inProgress) {now : Time}
    (hdue : ∀ row ∈ log.rows, ∀ t, row.progress.nextAttemptAt = some t → t ≤ now) :
    (selectEligible log now).isSome = true ↔
      ∃ row ∈ log.rows, row.progress.state ≠ .done ∧ row.progress.state ≠ .failed := by
  constructor
  · intro h
    obtain ⟨row, hrow⟩ := Option.isSome_iff_exists.mp h
    obtain ⟨hmem, hlive⟩ := live_of_selectEligible hrow
    exact ⟨row, hmem, (isLive_iff row).mp hlive⟩
  · rintro ⟨row, hmem, hstate⟩
    have hlive : row ∈ notDone log := List.mem_filter.mpr ⟨hmem, (isLive_iff row).mpr hstate⟩
    cases hrows : notDone log with
    | nil =>
      rw [hrows] at hlive
      cases hlive
    | cons head rest =>
      have hhead : head ∈ notDone log := hrows ▸ List.mem_cons_self
      obtain ⟨hheadMem, hheadLive⟩ := List.mem_filter.mp hhead
      have hready : ready now head = true := by
        unfold ready
        cases hnext : head.progress.nextAttemptAt with
        | none => rfl
        | some t => exact decide_eq_true (hdue head hheadMem t hnext)
      have hrunnable := runnable_of_isLive hheadLive (hidle head hheadMem)
      rw [selectEligible_head hrows hrunnable hready]
      rfl

end Eligibility

section Attempts
variable {V : Type} {c : WriteCoordinator V}

/-- The applications that a row has left, at most. -/
def weight (c : WriteCoordinator V) (row : OpRow) : ℕ :=
  if row.isLive then max 1 (c.maxAttempts - row.progress.attempts) else 0

/-- The sum of `max(1, max_attempts - attempts)` over the rows that are neither done nor failed. -/
def budget (c : WriteCoordinator V) (log : OpLog) : ℕ :=
  ((notDone log).map fun row => max 1 (c.maxAttempts - row.progress.attempts)).sum

theorem budget_eq (c : WriteCoordinator V) (log : OpLog) :
    budget c log = (log.rows.map (weight c)).sum := by
  unfold budget notDone
  induction log.rows with
  | nil => rfl
  | cons row rows ih =>
    by_cases hlive : row.isLive = true
    · rw [List.filter_cons_of_pos hlive, List.map_cons, List.map_cons, List.sum_cons,
        List.sum_cons, ih, weight, if_pos hlive]
    · rw [List.filter_cons_of_neg hlive, List.map_cons, List.sum_cons, ih, weight, if_neg hlive,
        Nat.zero_add]

/-- Closing an application of a live row takes at least one from its weight. -/
theorem weight_verdict {row : OpRow} {result : Except String Acks} {p : Progress}
    (hlive : row.isLive = true) (h : Verdict c row result p) :
    weight c { row with progress := p } < weight c row := by
  have hrow : 1 ≤ weight c row := by
    rw [weight, if_pos hlive]
    exact Nat.le_max_left _ _
  cases h with
  | done _ hstate =>
    rw [weight, if_neg (by simp [OpRow.isLive, OpState.isLive, hstate])]
    exact hrow
  | failed _ _ hstate =>
    rw [weight, if_neg (by simp [OpRow.isLive, OpState.isLive, hstate])]
    exact hrow
  | deferred _ hleft hstate hattempts =>
    rw [weight, weight, if_pos hlive, if_pos (by simp [OpRow.isLive, OpState.isLive, hstate])]
    dsimp only
    omega

theorem budget_closed {log : OpLog} {row : OpRow} {result : Except String Acks} {p : Progress}
    (hrow : row ∈ log.rows) (hlive : row.isLive = true) (h : Verdict c row result p) :
    budget c (log.advance (fun r => r.seq = row.seq) fun _ => p) < budget c log := by
  have hless := weight_verdict hlive h
  rw [budget_eq, budget_eq]
  change ((log.rows.map _).map (weight c)).sum < _
  rw [List.map_map]
  refine List.sum_lt_sum _ _ (fun r hr => ?_) ⟨row, hrow, ?_⟩
  · by_cases hseq : r.seq = row.seq
    · cases seq_unique hrow hr hseq
      simpa using hless.le
    · simp [hseq]
  · simpa using hless

def appliedBy (c : WriteCoordinator V) (w : World V) : Move → Option OpId
  | .applyNext => ((applyNext c).run w).1.toOption.join
  | _ => none

/-- The operations that a run applies, one for each application. -/
def appliedIn (c : WriteCoordinator V) : List Move → World V → List OpId
  | [], _ => []
  | m :: moves, w => (appliedBy c w m).toList ++ appliedIn c moves (step c w m)

/-- Nothing is queued, retried by force or interrupted. -/
def Undisturbed (moves : List Move) : Prop :=
  ∀ m ∈ moves, m = .applyNext ∨ m = .recover ∨ ∃ clock, m = .elapse clock

theorem budget_recovered (log : OpLog) (now : Time) :
    budget c (log.advance (fun r => r.progress.state = .inProgress)
      fun p => { p with state := .pending, updatedAt := now }) = budget c log := by
  rw [budget_eq, budget_eq]
  change ((log.rows.map _).map (weight c)).sum = _
  rw [List.map_map]
  refine congrArg List.sum (List.map_congr_left fun r _ => ?_)
  by_cases hstate : r.progress.state = .inProgress <;>
    simp [weight, OpRow.isLive, OpState.isLive, hstate]

theorem budget_step {m : Move} (hm : m = .applyNext ∨ m = .recover ∨ ∃ clock, m = .elapse clock)
    (w : World V) :
    (appliedBy c w m).toList.length + budget c (step c w m).db.opLog ≤ budget c w.db.opLog := by
  rcases hm with rfl | rfl | ⟨clock, rfl⟩
  · unfold appliedBy step Proc.final
    rcases applyNext_run c w with ⟨_, hrun⟩ | ⟨row, t, p, hsel, hrun, hverdict, hlog, _⟩ <;>
      rw [hrun]
    · change 0 + budget c w.db.opLog ≤ _
      omega
    · obtain ⟨hrow, hlive⟩ := live_of_selectEligible hsel
      have hless := budget_closed hrow hlive hverdict
      change 1 + budget c t.db.opLog ≤ _
      rw [hlog]
      omega
  · change 0 + budget c (w.db.opLog.advance _ _) ≤ _
    rw [budget_recovered]
    omega
  · change 0 + budget c w.db.opLog ≤ _
    omega

theorem appliedIn_le_budget {moves : List Move} (hmoves : Undisturbed moves) (w : World V) :
    (appliedIn c moves w).length ≤ budget c w.db.opLog := by
  induction moves generalizing w with
  | nil => exact Nat.zero_le _
  | cons m moves ih =>
    have htail := ih (fun m' hm' => hmoves m' (List.mem_cons_of_mem _ hm')) (step c w m)
    have hstep := budget_step (c := c) (hmoves m List.mem_cons_self) w
    rw [appliedIn, List.length_append]
    omega

/-- With no operation in progress, something can be applied as soon as every backoff has
passed, until everything is done or failed; and no run applies more than the budget. -/
theorem queue_drains (c : WriteCoordinator V) {w : World V}
    (hidle : ∀ row ∈ w.db.opLog.rows, row.progress.state ≠ .inProgress) :
    (∀ now, (∀ row ∈ w.db.opLog.rows, ∀ t, row.progress.nextAttemptAt = some t → t ≤ now) →
      ((selectEligible w.db.opLog now).isSome = true ↔
        ∃ row ∈ w.db.opLog.rows, row.progress.state ≠ .done ∧ row.progress.state ≠ .failed)) ∧
    ∀ moves, Undisturbed moves → (appliedIn c moves w).length ≤ budget c w.db.opLog :=
  ⟨fun _ hdue => selectEligible_isSome_iff hidle hdue,
    fun _ hmoves => appliedIn_le_budget hmoves w⟩

end Attempts

theorem queue_drains_queued :
    let w := apply (.enqueue (upsertOf 1 7)) newQueue
    (∀ now, (∀ row ∈ w.db.opLog.rows, ∀ t, row.progress.nextAttemptAt = some t → t ≤ now) →
      ((selectEligible w.db.opLog now).isSome = true ↔
        ∃ row ∈ w.db.opLog.rows, row.progress.state ≠ .done ∧ row.progress.state ≠ .failed)) ∧
    ∀ moves, Undisturbed moves →
      (appliedIn downAtFirst moves w).length ≤ budget downAtFirst w.db.opLog :=
  queue_drains downAtFirst (by decide)

end StrataMemory.QueueProgress
