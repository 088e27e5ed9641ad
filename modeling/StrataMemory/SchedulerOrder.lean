import StrataMemory.QueueRuns

set_option autoImplicit false

namespace StrataMemory.SchedulerOrder
open KeyedTables Records Tables Procedures Worlds Coordinator CoordinatorRuns Applications
open QueueRuns

def Conflicts (a b : Operation) : Prop :=
  a.isDestructive = true ∨ b.isDestructive = true ∨ ∃ id ∈ a.targetIds, id ∈ b.targetIds

theorem not_conflicts_of_not_blocked {row : OpRow} {earlier : List OpRow}
    (h : blocked row earlier = false) {a : OpRow} (ha : a ∈ earlier) :
    ¬ Conflicts a.operation row.operation := by
  have hne : earlier.isEmpty = false := by
    cases earlier with
    | nil => cases ha
    | cons => rfl
  unfold blocked at h
  rw [hne, if_neg (by decide)] at h
  split at h
  · cases h
  rename_i hbarrier
  split at h
  · cases h
  rename_i hdestructive
  rintro (ha' | hb | ⟨id, hida, hidb⟩)
  · exact hbarrier (List.any_eq_true.mpr ⟨a, ha, ha'⟩)
  · exact hdestructive hb
  · have hshared : (row.operation.targetIds.any (· ∈ a.operation.targetIds)) = true :=
      List.any_eq_true.mpr ⟨id, hidb, decide_eq_true hida⟩
    rw [Bool.eq_false_iff] at h
    exact h (List.any_eq_true.mpr ⟨a, ha, hshared⟩)

theorem selectFrom_some {now : Time} {earlier ops : List OpRow} {row : OpRow}
    (h : selectFrom now earlier ops = some row) : ∃ before after, ops = before ++ row :: after ∧
      runnable row = true ∧ blocked row (earlier ++ before) = false := by
  induction ops generalizing earlier with
  | nil => cases h
  | cons op rest ih =>
    unfold selectFrom at h
    split at h
    · rename_i hop
      cases h
      simp only [Bool.and_eq_true, Bool.not_eq_true'] at hop
      exact ⟨[], rest, rfl, hop.1.1, by simpa using hop.2⟩
    · obtain ⟨before, after, rfl, hrunnable, hblocked⟩ := ih h
      exact ⟨op :: before, after, rfl, hrunnable, by simpa using hblocked⟩

/-- When a row is selected, every earlier row that it conflicts with has settled. -/
theorem settled_of_selectEligible {log : OpLog} {now : Time} {a b : OpRow}
    (h : selectEligible log now = some b) (ha : a ∈ log.rows) (hseq : a.seq < b.seq)
    (hconflict : Conflicts a.operation b.operation) : a.isLive = false := by
  obtain ⟨before, after, hrows, _, hblocked⟩ := selectFrom_some h
  rw [Bool.eq_false_iff]
  intro hlive
  have hmem : a ∈ before ++ b :: after := hrows ▸ List.mem_filter.mpr ⟨ha, hlive⟩
  have hsorted : (before ++ b :: after).Pairwise fun r s => r.seq < s.seq := by
    rw [← hrows]
    exact List.Pairwise.filter _ (List.pairwise_map.mp log.seq_increasing)
  rcases List.mem_append.mp hmem with hmem | hmem
  · exact not_conflicts_of_not_blocked hblocked hmem hconflict
  · have htail := List.pairwise_cons.mp (List.pairwise_append.mp hsorted).2.1
    rcases List.mem_cons.mp hmem with rfl | hmem
    · exact Nat.lt_irrefl _ hseq
    · exact Nat.lt_asymm hseq (htail.1 a hmem)

section Orders
variable {V : Type}

def Precedes (log : OpLog) (a b : Operation) : Prop :=
  ∃ rowA ∈ log.rows, ∃ rowB ∈ log.rows,
    rowA.operation = a ∧ rowB.operation = b ∧ rowA.seq < rowB.seq

theorem Precedes.before {c : WriteCoordinator V} {P : World V → Move → Prop} {w t : World V}
    (h : Effect c P w t) {a b : Operation} (hb : ∃ row ∈ w.db.opLog.rows, row.operation = b)
    (hab : Precedes t.db.opLog a b) : Precedes w.db.opLog a b := by
  obtain ⟨rowA, hrowA, rowB, hrowB, rfl, rfl, hseq⟩ := hab
  obtain ⟨old, hold, hop⟩ := hb
  rcases h.row hrowB with ⟨oldB, holdB, p, rfl, _⟩ | ⟨hqueued, _⟩
  · have hbound := w.db.opLog.seq_bound oldB holdB
    rcases h.row hrowA with ⟨oldA, holdA, q, rfl, _⟩ | ⟨hqueued, _⟩
    · exact ⟨oldA, holdA, oldB, holdB, rfl, rfl, hseq⟩
    · have hlate := hqueued.seq
      dsimp only at hseq
      omega
  · exact absurd (List.mem_map.mpr ⟨old, hold, congrArg Operation.opId hop⟩) hqueued.fresh

def SettledBefore (log : OpLog) (b : Operation) : Prop :=
  ∀ rowB ∈ log.rows, rowB.operation = b → ∀ rowA ∈ log.rows, rowA.seq < rowB.seq →
    Conflicts rowA.operation b → rowA.isLive = false

theorem settledBefore_of_selectEligible {log : OpLog} {now : Time} {b : OpRow}
    (h : selectEligible log now = some b) : SettledBefore log b.operation := by
  intro rowB hrowB hop rowA hrowA hseq hconflict
  have hmem := (live_of_selectEligible h).1
  cases row_unique hrowB hmem (congrArg Operation.opId hop)
  exact settled_of_selectEligible h hrowA hseq hconflict

theorem SettledBefore.effect {c : WriteCoordinator V} {w t : World V}
    (h : Effect c Unforced w t) {b : Operation}
    (hb : ∃ row ∈ w.db.opLog.rows, row.operation = b) (hsettled : SettledBefore w.db.opLog b) :
    SettledBefore t.db.opLog b := by
  intro rowB hrowB hop rowA hrowA hseq hconflict
  obtain ⟨_, hold, hopOld⟩ := hb
  rcases h.row hrowB with ⟨oldB, holdB, p, rfl, _⟩ | ⟨hqueued, _⟩
  · have hbound := w.db.opLog.seq_bound oldB holdB
    rcases h.row hrowA with ⟨oldA, holdA, q, rfl, hchanged⟩ | ⟨hqueued, _⟩
    · have hdead := hsettled oldB holdB hop oldA holdA hseq hconflict
      rcases hchanged.settled hdead with hq | ⟨hmet, _⟩
      · rw [hq]
        exact hdead
      · exact absurd rfl (hmet _)
    · have hlate := hqueued.seq
      dsimp only at hseq
      omega
  · exact absurd (List.mem_map.mpr ⟨_, hold, by rw [hopOld, hop]⟩) hqueued.fresh

/-- Each call is of an operation in the log, with the earlier conflicting ones settled,
and no operation is called after a later one that it conflicts with. -/
structure Scheduled (w : World (V × List HandlerCall)) : Prop where
  logged : ∀ call ∈ w.memory.2, ∃ row ∈ w.db.opLog.rows, row.operation = call.operation
  settled : ∀ call ∈ w.memory.2, SettledBefore w.db.opLog call.operation
  ordered : w.memory.2.Pairwise fun earlier later =>
    Precedes w.db.opLog later.operation earlier.operation →
      ¬ Conflicts later.operation earlier.operation

theorem Scheduled.effect {c : WriteCoordinator V} {w t : World (V × List HandlerCall)}
    (hw : Scheduled w) (h : Effect (journaled c) Unforced w t) : Scheduled t := by
  have hlogged : ∀ {op : Operation}, (∃ row ∈ w.db.opLog.rows, row.operation = op) →
      ∃ row ∈ t.db.opLog.rows, row.operation = op := by
    rintro op ⟨row, hrow, rfl⟩
    obtain ⟨p, hp⟩ := h.kept hrow
    exact ⟨_, hp, rfl⟩
  have hordered : w.memory.2.Pairwise fun earlier later =>
      Precedes t.db.opLog later.operation earlier.operation →
        ¬ Conflicts later.operation earlier.operation :=
    hw.ordered.imp_of_mem fun hx _ hxy hprecedes => hxy (hprecedes.before h (hw.logged _ hx))
  rcases h.journal with hjournal | ⟨row, hsel, hjournal⟩
  · refine ⟨?_, ?_, hjournal ▸ hordered⟩
    · rw [hjournal]
      exact fun call hcall => hlogged (hw.logged call hcall)
    · rw [hjournal]
      exact fun call hcall => (hw.settled call hcall).effect h (hw.logged call hcall)
  · obtain ⟨hrow, hlive⟩ := live_of_selectEligible hsel
    have hnew : ∃ r ∈ w.db.opLog.rows, r.operation = row.operation := ⟨row, hrow, rfl⟩
    refine ⟨?_, ?_, ?_⟩ <;> rw [hjournal]
    · intro call hcall
      rcases List.mem_append.mp hcall with hcall | hcall
      · exact hlogged (hw.logged call hcall)
      · cases List.mem_singleton.mp hcall
        exact hlogged hnew
    · intro call hcall
      rcases List.mem_append.mp hcall with hcall | hcall
      · exact (hw.settled call hcall).effect h (hw.logged call hcall)
      · cases List.mem_singleton.mp hcall
        exact (settledBefore_of_selectEligible hsel).effect h hnew
    · refine List.pairwise_append.mpr ⟨hordered, List.pairwise_singleton _ _, ?_⟩
      intro call hcall later hlater hprecedes hconflict
      cases List.mem_singleton.mp hlater
      -- The row that is called is live, so it is not among the settled ones.
      obtain ⟨rowA, hrowA, rowB, hrowB, hopA, hopB, hseq⟩ :=
        hprecedes.before h (hw.logged call hcall)
      cases row_unique hrowA hrow (congrArg Operation.opId hopA)
      have hdead := hw.settled call hcall rowB hrowB hopB row hrow hseq hconflict
      exact absurd (hlive.symm.trans hdead) (by decide)

theorem scheduled_start (w : World V) : Scheduled (withJournal w) where
  logged _ h := absurd h List.not_mem_nil
  settled _ h := absurd h List.not_mem_nil
  ordered := List.Pairwise.nil

/-- Without forced retries: whenever a handler is called for an operation, and ever after,
each earlier operation that it conflicts with is done or failed, and is not called again. -/
theorem earlier_conflicts_settled (c : WriteCoordinator V) {moves : List Move}
    (hretry : WithoutRetry moves) (w₀ : World V) (n : ℕ) :
    let t := (applyNext (journaled c)).stopped n (run (journaled c) moves (withJournal w₀))
    (∀ call ∈ t.memory.2, ∃ b ∈ t.db.opLog.rows, b.operation = call.operation ∧
      ∀ a ∈ t.db.opLog.rows, a.seq < b.seq → Conflicts a.operation b.operation →
        a.progress.state = .done ∨ a.progress.state = .failed) ∧
    t.memory.2.Pairwise fun earlier later =>
      Precedes t.db.opLog later.operation earlier.operation →
        ¬ Conflicts later.operation earlier.operation := by
  intro t
  have hrun : Scheduled (run (journaled c) moves (withJournal w₀)) :=
    run_keeps (fun _ _ hw h => hw.effect h) (meets_unforced hretry _)
      (scheduled_start w₀)
  have ht : Scheduled t := stopped_keeps (fun _ _ hw h => hw.effect h) hrun n
  refine ⟨fun call hcall => ?_, ht.ordered⟩
  obtain ⟨b, hb, hop⟩ := ht.logged call hcall
  refine ⟨b, hb, hop, fun a ha hseq hconflict => ?_⟩
  have hdead := ht.settled call hcall b hb hop a ha hseq (hop ▸ hconflict)
  cases hstate : a.progress.state <;> simp [OpRow.isLive, OpState.isLive, hstate] at hdead ⊢

/-- `b` orders a later operation after itself: it is destructive, or shares an id with `a`. -/
def Supersedes (b a : Operation) : Prop :=
  b.isDestructive = true ∨ ∃ id ∈ a.targetIds, id ∈ b.targetIds

/-- A later operation has gone through that `row` should have come before. -/
def Overtaken (w : World (V × List HandlerCall)) (row : OpRow) : Prop :=
  ∃ b ∈ w.db.opLog.rows, row.seq < b.seq ∧
    (b.progress.state = .done ∧ Supersedes b.operation row.operation ∨
      ∃ id ∈ row.operation.targetIds, ∃ call ∈ w.memory.2,
        call.operation = b.operation ∧ call.succeededOn id = true)

/-- The successes on each id follow the log, and no operation that `t` adds to the journal
of `w` is older than one that is done and should have come after it. -/
structure InOrder (w t : World (V × List HandlerCall)) : Prop where
  successes : t.memory.2.Pairwise fun earlier later =>
    Precedes t.db.opLog later.operation earlier.operation →
      ∀ id, earlier.succeededOn id = true → later.succeededOn id = false
  timely : ∀ call, t.memory.2 = w.memory.2 ++ [call] → ∀ a ∈ t.db.opLog.rows,
    a.operation = call.operation → ∀ b ∈ t.db.opLog.rows, a.seq < b.seq →
      Supersedes b.operation a.operation → b.progress.state ≠ .done

/-- The move brings back no failed row that has been overtaken. -/
def Timely (w : World (V × List HandlerCall)) (m : Move) : Prop :=
  ∀ row ∈ w.db.opLog.rows, m = .retry row.operation.opId → row.progress.state = .failed →
    ¬ Overtaken w row

structure Current (w : World (V × List HandlerCall)) : Prop where
  logged : ∀ call ∈ w.memory.2, ∃ row ∈ w.db.opLog.rows, row.operation = call.operation
  live : ∀ row ∈ w.db.opLog.rows, row.isLive = true → ¬ Overtaken w row
  successes : w.memory.2.Pairwise fun earlier later =>
    Precedes w.db.opLog later.operation earlier.operation →
      ∀ id, earlier.succeededOn id = true → later.succeededOn id = false

theorem mem_targetIds_of_succeededOn {call : HandlerCall} {id : RecordId}
    (h : call.succeededOn id = true) : id ∈ call.operation.targetIds := by
  unfold HandlerCall.succeededOn at h
  cases hresult : call.result with
  | error reason => simp [hresult] at h
  | ok acks =>
    simp only [hresult, Bool.and_eq_true, decide_eq_true_eq] at h
    exact h.1

theorem done_before {c : WriteCoordinator V} {P : World V → Move → Prop} {w t : World V}
    (h : Effect c P w t) {b : OpRow} (hb : b ∈ t.db.opLog.rows) (hdone : b.progress.state = .done) :
    ∃ old ∈ w.db.opLog.rows, old.seq = b.seq ∧ old.operation = b.operation ∧
      (old.progress.state = .done ∨ selectEligible w.db.opLog w.now = some old) := by
  rcases h.row hb with ⟨old, hold, p, rfl, hchanged⟩ | ⟨hqueued, _⟩
  · refine ⟨old, hold, rfl, rfl, ?_⟩
    cases hchanged with
    | kept => exact .inl hdone
    | begun hsel _ => exact .inr hsel
    | closed hsel _ => exact .inr hsel
    | recovered _ hstate => exact absurd (hstate.symm.trans hdone) (by decide)
    | retried _ _ hstate => exact absurd (hstate.symm.trans hdone) (by decide)
  · exact absurd (hqueued.state.symm.trans hdone) (by decide)

/-- What overtakes a row in one effect has overtaken it before, or is an application
that the row, while it was live, would have blocked. -/
theorem overtaken_before {c : WriteCoordinator V} {P : World (V × List HandlerCall) → Move → Prop}
    {w t : World (V × List HandlerCall)} (h : Effect (journaled c) P w t)
    (hlogged : ∀ call ∈ w.memory.2, ∃ row ∈ w.db.opLog.rows, row.operation = call.operation)
    {row : OpRow} {p : Progress} (ht : Overtaken t { row with progress := p }) : Overtaken w row ∨
      ∃ b, selectEligible w.db.opLog w.now = some b ∧ row.seq < b.seq ∧
        Conflicts row.operation b.operation := by
  obtain ⟨b, hb, hseq, ⟨hdone, hsupersedes⟩ | ⟨id, hid, call, hcall, hop, hsuccess⟩⟩ := ht
  · obtain ⟨old, hold, hsame, hop, hstate | hsel⟩ := done_before h hb hdone
    · exact .inl ⟨old, hold, hsame ▸ hseq, .inl ⟨hstate, hop ▸ hsupersedes⟩⟩
    · refine .inr ⟨old, hsel, hsame ▸ hseq, ?_⟩
      exact .inr (hop ▸ hsupersedes)
  · -- The call was there before, or it is the call of the selected row.
    have hold : ∀ {r : OpRow}, r ∈ w.db.opLog.rows → r.operation = b.operation → row.seq < r.seq := by
      intro r hr hrop
      obtain ⟨q, hq⟩ := h.kept hr
      cases row_unique hq hb (congrArg Operation.opId hrop)
      exact hseq
    have hshared := mem_targetIds_of_succeededOn hsuccess
    have hjournal : call ∈ w.memory.2 ∨ ∃ r, selectEligible w.db.opLog w.now = some r ∧
        r.operation = call.operation := by
      rcases h.journal with hj | ⟨r, hsel, hj⟩
      · exact .inl (hj ▸ hcall)
      · refine (List.mem_append.mp (hj ▸ hcall)).imp_right fun hc => ⟨r, hsel, ?_⟩
        cases List.mem_singleton.mp hc
        rfl
    rcases hjournal with hcall | ⟨r, hsel, hrop⟩
    · obtain ⟨r, hr, hrop⟩ := hlogged call hcall
      exact .inl ⟨r, hr, hold hr (hrop.trans hop), .inr ⟨id, hid, call, hcall, hrop.symm, hsuccess⟩⟩
    · refine .inr ⟨r, hsel, hold (live_of_selectEligible hsel).1 (hrop.trans hop), ?_⟩
      exact .inr (.inr ⟨id, hid, hrop ▸ hshared⟩)

/-- A forced retry overtakes nothing. -/
theorem overtaken_of_retried {w t : World (V × List HandlerCall)} {opId : OpId} {now : Time}
    (hlog : t.db.opLog = w.db.opLog.advance
      (fun r => r.operation.opId = opId &&
        (r.progress.state = .partialFailure || r.progress.state = .failed))
      fun p => { p with state := .pending, nextAttemptAt := none, updatedAt := now })
    (hmemory : t.memory = w.memory) {row : OpRow} {p : Progress}
    (ht : Overtaken t { row with progress := p }) : Overtaken w row := by
  obtain ⟨b, hb, hseq, hlate⟩ := ht
  rw [hmemory] at hlate
  rcases mem_advance_rows (hlog ▸ hb) with ⟨hb, _⟩ | ⟨old, hold, _, rfl⟩
  · exact ⟨b, hb, hseq, hlate⟩
  · refine ⟨old, hold, hseq, hlate.imp_left fun h => ?_⟩
    exact absurd h.1 (by simp)

theorem retried_or_unforced {c : WriteCoordinator V} {P : World V → Move → Prop} {w t : World V}
    (h : Effect c P w t) : Effect c Unforced w t ∨ ∃ opId now, P w (.retry opId) ∧
      t.db.opLog = w.db.opLog.advance
        (fun r => r.operation.opId = opId &&
          (r.progress.state = .partialFailure || r.progress.state = .failed))
        (fun p => { p with state := .pending, nextAttemptAt := none, updatedAt := now }) ∧
      t.memory = w.memory := by
  cases h with
  | application point => exact .inl (.application point)
  | enqueued op now _ log memory =>
    exact .inl (.enqueued op now (by simp [Unforced]) log memory)
  | recovered now log memory => exact .inl (.recovered now log memory)
  | retried opId now met log memory => exact .inr ⟨opId, now, met, log, memory⟩

theorem Current.live_unforced {c : WriteCoordinator V} {w t : World (V × List HandlerCall)}
    (hw : Current w) (h : Effect (journaled c) Unforced w t) {row : OpRow}
    (hrow : row ∈ t.db.opLog.rows) (hlive : row.isLive = true) : ¬ Overtaken t row := by
  intro hovertaken
  rcases h.row hrow with ⟨old, hold, p, rfl, hchanged⟩ | ⟨hqueued, _⟩
  · have hwas : old.isLive = true := by
      by_contra hdead
      rcases hchanged.settled (Bool.eq_false_iff.mpr hdead) with hp | ⟨hmet, _⟩
      · rw [hp] at hlive
        exact hdead hlive
      · exact hmet _ rfl
    rcases overtaken_before h hw.logged hovertaken with hbefore | ⟨b, hsel, hseq, hconflict⟩
    · exact hw.live old hold hwas hbefore
    · have hdead := settled_of_selectEligible hsel hold hseq hconflict
      exact absurd (hwas.symm.trans hdead) (by decide)
  · -- Nothing is later than the row that has just been queued.
    obtain ⟨b, hb, hseq, _⟩ := hovertaken
    have hnew := hqueued.seq
    rcases h.row hb with ⟨old, hold, p, rfl, _⟩ | ⟨hlast, _⟩
    · have hbound := w.db.opLog.seq_bound old hold
      dsimp only at hseq
      omega
    · have hsame := hlast.seq
      omega

theorem Current.live_effect {c : WriteCoordinator V} {w t : World (V × List HandlerCall)}
    (hw : Current w) (h : Effect (journaled c) Timely w t) {row : OpRow}
    (hrow : row ∈ t.db.opLog.rows) (hlive : row.isLive = true) : ¬ Overtaken t row := by
  rcases retried_or_unforced h with h | ⟨opId, now, hmet, hlog, hmemory⟩
  · exact hw.live_unforced h hrow hlive
  · intro hovertaken
    rcases mem_advance_rows (hlog ▸ hrow) with ⟨hold, _⟩ | ⟨old, hold, hstate, rfl⟩
    · exact hw.live row hold hlive (overtaken_of_retried (p := row.progress) hlog hmemory hovertaken)
    · have hbefore := overtaken_of_retried hlog hmemory hovertaken
      simp only [Bool.and_eq_true, Bool.or_eq_true, decide_eq_true_eq] at hstate
      rcases hstate.2 with hpartial | hfailed
      · exact hw.live old hold (by simp [OpRow.isLive, OpState.isLive, hpartial]) hbefore
      · exact hmet old hold (congrArg Move.retry hstate.1.symm) hfailed hbefore

theorem Current.effect {c : WriteCoordinator V} {w t : World (V × List HandlerCall)}
    (hw : Current w) (h : Effect (journaled c) Timely w t) : Current t := by
  have hlogged : ∀ {op : Operation}, (∃ row ∈ w.db.opLog.rows, row.operation = op) →
      ∃ row ∈ t.db.opLog.rows, row.operation = op := by
    rintro op ⟨row, hrow, rfl⟩
    obtain ⟨p, hp⟩ := h.kept hrow
    exact ⟨_, hp, rfl⟩
  have hsuccesses : w.memory.2.Pairwise fun earlier later =>
      Precedes t.db.opLog later.operation earlier.operation →
        ∀ id, earlier.succeededOn id = true → later.succeededOn id = false :=
    hw.successes.imp_of_mem fun hx _ hxy hprecedes => hxy (hprecedes.before h (hw.logged _ hx))
  refine ⟨?_, fun row hrow hlive => hw.live_effect h hrow hlive, ?_⟩
  · intro call hcall
    rcases h.journal with hj | ⟨r, hsel, hj⟩
    · exact hlogged (hw.logged call (hj ▸ hcall))
    · rcases List.mem_append.mp (hj ▸ hcall) with hc | hc
      · exact hlogged (hw.logged call hc)
      · cases List.mem_singleton.mp hc
        exact hlogged ⟨r, (live_of_selectEligible hsel).1, rfl⟩
  · rcases h.journal with hj | ⟨row, hsel, hj⟩ <;> rw [hj]
    · exact hsuccesses
    · refine List.pairwise_append.mpr ⟨hsuccesses, List.pairwise_singleton _ _, ?_⟩
      intro call hcall later hlater hprecedes id hsuccess
      cases List.mem_singleton.mp hlater
      obtain ⟨rowA, hrowA, rowB, hrowB, hopA, hopB, hseq⟩ :=
        hprecedes.before h (hw.logged call hcall)
      obtain ⟨hrow, hlive⟩ := live_of_selectEligible hsel
      cases row_unique hrowA hrow (congrArg Operation.opId hopA)
      rw [Bool.eq_false_iff]
      intro hlater
      have hid : id ∈ row.operation.targetIds := mem_targetIds_of_succeededOn hlater
      exact hw.live row hrow hlive
        ⟨rowB, hrowB, hseq, .inr ⟨id, hid, call, hcall, hopB.symm, hsuccess⟩⟩

/-- The selected row has not been overtaken, and is the only one that gets done meanwhile. -/
theorem Current.timely {c : WriteCoordinator V} {P : World (V × List HandlerCall) → Move → Prop}
    {w t : World (V × List HandlerCall)} (hw : Current w) (h : Effect (journaled c) P w t)
    {call : HandlerCall} (hcall : t.memory.2 = w.memory.2 ++ [call]) {a b : OpRow}
    (ha : a ∈ t.db.opLog.rows) (hop : a.operation = call.operation) (hb : b ∈ t.db.opLog.rows)
    (hseq : a.seq < b.seq) (hsupersedes : Supersedes b.operation a.operation) :
    b.progress.state ≠ .done := by
  intro hdone
  rcases h.journal with hj | ⟨row, hsel, hj⟩
  · rw [hj] at hcall
    exact List.cons_ne_nil _ _ (List.self_eq_append_right.mp hcall)
  · rw [hj] at hcall
    cases List.append_cancel_left hcall
    obtain ⟨hrow, hlive⟩ := live_of_selectEligible hsel
    obtain ⟨p, hp⟩ := h.kept hrow
    cases row_unique ha hp (congrArg Operation.opId hop)
    obtain ⟨old, hold, hsame, hopB, hstate | hselB⟩ := done_before h hb hdone
    · exact hw.live row hrow hlive
        ⟨old, hold, hsame ▸ hseq, .inl ⟨hstate, hopB ▸ hsupersedes⟩⟩
    · cases hsel.symm.trans hselB
      exact absurd hsame (Nat.ne_of_lt hseq)

/-- Runs that force no overtaken operation keep the order, at every point of every application. -/
theorem retries_keep_order (c : WriteCoordinator V) {moves : List Move} {w₀ : World V}
    (hstart : ∀ row ∈ w₀.db.opLog.rows, row.isLive = true → ¬ Overtaken (withJournal w₀) row)
    (htimely : Meets Timely (journaled c) moves (withJournal w₀)) (n : ℕ) :
    let w := run (journaled c) moves (withJournal w₀)
    InOrder w ((applyNext (journaled c)).stopped n w) := by
  intro w
  have hinit : Current (withJournal w₀) :=
    ⟨fun _ h => absurd h List.not_mem_nil, hstart, List.Pairwise.nil⟩
  have hw : Current w := run_keeps (fun _ _ hw h => hw.effect h) htimely hinit
  have hstopped := effect_stopped (journaled c) Timely n w
  refine ⟨(hw.effect hstopped).successes, fun call hcall a ha hop b hb hseq hsupersedes => ?_⟩
  exact hw.timely hstopped hcall ha hop hb hseq hsupersedes

end Orders

theorem exhausted_withoutRetry : WithoutRetry exhausted := by
  intro opId h
  simp [exhausted] at h

theorem earlier_conflicts_settled_exhausted :
    let t := (applyNext (journaled downAtFirst)).stopped 5
      (run (journaled downAtFirst) exhausted (withJournal newQueue))
    (∀ call ∈ t.memory.2, ∃ b ∈ t.db.opLog.rows, b.operation = call.operation ∧
      ∀ a ∈ t.db.opLog.rows, a.seq < b.seq → Conflicts a.operation b.operation →
        a.progress.state = .done ∨ a.progress.state = .failed) ∧
    t.memory.2.Pairwise fun earlier later =>
      Precedes t.db.opLog later.operation earlier.operation →
        ¬ Conflicts later.operation earlier.operation :=
  earlier_conflicts_settled downAtFirst exhausted_withoutRetry newQueue 5

theorem retries_keep_order_exhausted :
    let w := run (journaled downAtFirst) (exhausted ++ [.retry 1]) (withJournal newQueue)
    InOrder w ((applyNext (journaled downAtFirst)).stopped 7 w) := by
  refine retries_keep_order downAtFirst (fun row h => absurd h List.not_mem_nil) ?_ 7
  have hforced : ∀ m ∈ exhausted, ∀ w : World (ℕ × List HandlerCall), Timely w m := by
    rintro m hm w row - rfl
    exact absurd hm (exhausted_withoutRetry _)
  refine meets_append (meets_of_mem hforced _) ⟨?_, trivial⟩
  rintro row hrow - - ⟨b, hb, hseq, _⟩
  have hfirst : ∀ r ∈ (run (journaled downAtFirst) exhausted
      (withJournal newQueue)).db.opLog.rows, r.seq = 1 := by decide
  have hrow := hfirst row hrow
  have hb := hfirst b hb
  omega

/-- The failed upsert is retried after the id has been removed. -/
def forcedLate : List Move :=
  exhausted ++ [.enqueue (removalOf 2 7), .applyNext, .retry 1, .applyNext]

theorem forced_upsert_undoes_removal :
    let w := run (journaled downAtFirst) forcedLate (withJournal newQueue)
    ¬ InOrder w ((applyNext (journaled downAtFirst)).stopped 0 w) := by
  intro w h
  have hcalls : List.Sublist
      [⟨removalOf 2 7, .ok [(7, true)]⟩, ⟨upsertOf 1 7, .ok [(7, true)]⟩] w.memory.2 := by decide
  have hprecedes : Precedes w.db.opLog (upsertOf 1 7) (removalOf 2 7) := by
    refine ⟨w.db.opLog.rows.head (by decide), List.head_mem _,
      w.db.opLog.rows.getLast (by decide), List.getLast_mem _, ?_⟩
    decide
  have hpair := List.rel_of_pairwise_cons (h.successes.sublist hcalls) List.mem_cons_self
  exact absurd (hpair hprecedes 7 rfl) (by decide)

end StrataMemory.SchedulerOrder
