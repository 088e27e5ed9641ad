import StrataMemory.CoordinatorRuns

set_option autoImplicit false

namespace StrataMemory.PendingRows
open Records Tables Worlds Coordinator CoordinatorRuns

def Waiting (row : OpRow) : Prop :=
  row.progress.state = .pending ∧ row.progress.nextAttemptAt = none

theorem opIds_advance (log : OpLog) (p : OpRow → Bool) (f : Progress → Progress) :
    (log.advance p f).rows.map (fun r => r.operation.opId) =
      log.rows.map fun r => r.operation.opId := by
  change (log.rows.map _).map _ = _
  rw [List.map_map]
  refine List.map_congr_left fun r _ => ?_
  dsimp only [Function.comp]
  split <;> rfl

theorem rows_append {log : OpLog} {op : Operation} {now : Time}
    (hfresh : op.opId ∉ log.rows.map fun r => r.operation.opId) :
    (log.append op now).rows =
      log.rows ++ [⟨log.nextSeq, op, now, ⟨.pending, 0, none, none, now⟩⟩] := by
  unfold OpLog.append
  rw [dif_neg hfresh]

theorem notDone_append {log : OpLog} {op : Operation} {now : Time}
    (hfresh : op.opId ∉ log.rows.map fun r => r.operation.opId) :
    notDone (log.append op now) =
      notDone log ++ [⟨log.nextSeq, op, now, ⟨.pending, 0, none, none, now⟩⟩] := by
  unfold notDone
  rw [rows_append hfresh, List.filter_append]
  rfl

theorem filter_map_live {rows : List OpRow} {g : OpRow → OpRow}
    (hg : ∀ row ∈ rows, row.isLive = false → g row = row) :
    (rows.map g).filter OpRow.isLive = ((rows.filter OpRow.isLive).map g).filter OpRow.isLive := by
  induction rows with
  | nil => rfl
  | cons row rows ih =>
    have htail := ih fun r hr => hg r (List.mem_cons_of_mem _ hr)
    by_cases hlive : row.isLive = true
    · rw [List.filter_cons_of_pos hlive, List.map_cons, List.map_cons, List.filter_cons,
        List.filter_cons, htail]
    · have hdone : row.isLive = false := Bool.eq_false_iff.mpr hlive
      rw [List.filter_cons_of_neg hlive, List.map_cons, hg row List.mem_cons_self hdone,
        List.filter_cons_of_neg hlive, htail]

theorem notDone_advance_at {log : OpLog} {before after : List OpRow} {row : OpRow}
    (h : notDone log = before ++ row :: after) (f : Progress → Progress) :
    notDone (log.advance (fun r => r.seq = row.seq) f) =
      before ++ [{ row with progress := f row.progress }].filter OpRow.isLive ++ after := by
  let g : OpRow → OpRow := fun r =>
    if decide (r.seq = row.seq) then { r with progress := f r.progress } else r
  have hmem : ∀ r ∈ before ++ row :: after, r ∈ log.rows ∧ r.isLive = true := fun r hr =>
    List.mem_filter.mp (h ▸ hr : r ∈ notDone log)
  obtain ⟨hrow, hlive⟩ := hmem row (by simp)
  have hsorted : (before ++ row :: after).Pairwise fun r s => r.seq < s.seq := by
    rw [← h]
    exact List.Pairwise.filter _ (List.pairwise_map.mp log.seq_increasing)
  obtain ⟨_, htail, hcross⟩ := List.pairwise_append.mp hsorted
  have hother : ∀ rows : List OpRow, (∀ r ∈ rows, r.seq ≠ row.seq ∧ r.isLive = true) →
      (rows.map g).filter OpRow.isLive = rows := by
    intro rows hrows
    have hmap : rows.map g = rows := by
      refine (List.map_congr_left fun r hr => ?_).trans (List.map_id rows)
      exact if_neg (by simpa using (hrows r hr).1)
    rw [hmap]
    exact List.filter_eq_self.mpr fun r hr => (hrows r hr).2
  have hbefore := hother before fun r hr =>
    ⟨Nat.ne_of_lt (hcross r hr row List.mem_cons_self), (hmem r (by simp [hr])).2⟩
  have hafter := hother after fun r hr =>
    ⟨Nat.ne_of_gt (List.rel_of_pairwise_cons htail hr), (hmem r (by simp [hr])).2⟩
  have hself : g row = { row with progress := f row.progress } := if_pos (decide_eq_true rfl)
  unfold notDone at h ⊢
  change (log.rows.map g).filter OpRow.isLive = _
  rw [filter_map_live, h, List.map_append, List.map_cons, hself, List.filter_append, hbefore,
    List.append_assoc]
  · change _ ++ List.filter OpRow.isLive ([_] ++ after.map g) = _
    rw [List.filter_append, hafter]
  · intro r hr hdone
    refine if_neg ?_
    rw [decide_eq_true_eq]
    intro hseq
    rw [seq_unique hrow hr hseq, hlive] at hdone
    cases hdone

theorem notDone_advance {log : OpLog} {row : OpRow} {rest : List OpRow}
    (h : notDone log = row :: rest) (f : Progress → Progress) :
    notDone (log.advance (fun r => r.seq = row.seq) f) =
      [{ row with progress := f row.progress }].filter OpRow.isLive ++ rest := by
  have hat : notDone log = [] ++ row :: rest := h
  rw [notDone_advance_at hat f, List.nil_append]

theorem selectEligible_head {log : OpLog} {now : Time} {row : OpRow} {rest : List OpRow}
    (hhead : notDone log = row :: rest) (hrunnable : runnable row = true)
    (hready : ready now row = true) : selectEligible log now = some row := by
  unfold selectEligible
  rw [hhead]
  unfold selectFrom
  rw [hrunnable, hready]
  exact if_pos rfl

/-- While every live row is due, the first one is selected. -/
theorem selectEligible_waiting {log : OpLog} {now : Time}
    (h : ∀ row ∈ notDone log, Waiting row) : selectEligible log now = (notDone log).head? := by
  cases hrows : notDone log with
  | nil =>
    unfold selectEligible
    rw [hrows]
    rfl
  | cons row rest =>
    obtain ⟨hstate, hnext⟩ := h row (hrows ▸ List.mem_cons_self)
    refine selectEligible_head hrows ?_ ?_
    · unfold runnable
      rw [hstate]
      rfl
    · unfold ready
      rw [hnext]

end StrataMemory.PendingRows
