import StrataMemory.StoreRefinement

set_option autoImplicit false

namespace StrataMemory.WaitingQueue
open KeyedTables Records Tables Procedures Worlds Coordinator CoordinatorRuns Applications
open PendingRows Reorderings StoreRefinement Engine HandlerEffects

/-- The engine has queued it, for one of its stores. -/
def Served (e : MemoryEngine) (op : Operation) : Prop :=
  EngineBuilt op ∧ ∃ name ∈ e.vectorNames, op.target = some name

structure Ready (e : MemoryEngine) (w : World Memory) : Prop where
  waiting : ∀ row ∈ notDone w.db.opLog, Waiting row ∧ Served e row.operation
  fresh : ∀ row ∈ w.db.opLog.rows, row.operation.opId < w.operationIds
  faultless : ∀ n, w.memory.faults n = false

/-- What the stores hold once the queue is drained. -/
def pending (w : World Memory) : String → Contents :=
  replay act (unfinished w.db.opLog) (storesOf w.memory)

def backlog (w : World Memory) : ℕ := (notDone w.db.opLog).length

theorem pending_idle {w : World Memory} (h : backlog w = 0) : pending w = storesOf w.memory := by
  have hrows : notDone w.db.opLog = [] := List.length_eq_zero_iff.mp h
  unfold pending unfinished
  rw [hrows]
  rfl

structure SameTables (w t : World Memory) : Prop where
  canonical : t.db.canonical = w.db.canonical
  postings : t.db.postings = w.db.postings
  generation : t.memory.activeGeneration = w.memory.activeGeneration

theorem SameTables.refl (w : World Memory) : SameTables w w := ⟨rfl, rfl, rfl⟩

theorem SameTables.trans {w u t : World Memory} (h : SameTables w u) (h' : SameTables u t) :
    SameTables w t :=
  ⟨h'.canonical.trans h.canonical, h'.postings.trans h.postings,
    h'.generation.trans h.generation⟩

/-- The queue and the stores are the same; ids may have been drawn. -/
structure SameQueue (w t : World Memory) : Prop where
  log : t.db.opLog = w.db.opLog
  ids : w.operationIds ≤ t.operationIds
  stores : storesOf t.memory = storesOf w.memory
  faults : t.memory.faults = w.memory.faults

section SameQueue
variable {e : MemoryEngine} {w t : World Memory}

theorem SameQueue.ready (h : SameQueue w t) (hw : Ready e w) : Ready e t where
  waiting := h.log.symm ▸ hw.waiting
  fresh row hrow := Nat.lt_of_lt_of_le (hw.fresh row (h.log ▸ hrow)) h.ids
  faultless n := by rw [h.faults, hw.faultless]

theorem SameQueue.pending (h : SameQueue w t) : pending t = pending w := by
  unfold WaitingQueue.pending
  rw [h.log, h.stores]

theorem SameQueue.backlog (h : SameQueue w t) : backlog t = backlog w := by
  unfold WaitingQueue.backlog
  rw [h.log]

end SameQueue

structure Advanced (e : MemoryEngine) (n : ℕ) (w t : World Memory) : Prop where
  ready : Ready e t
  pending : pending t = pending w
  backlog : backlog t = backlog w - n
  tables : SameTables w t

section Draining
variable {e : MemoryEngine} {w t : World Memory}

theorem Advanced.trans {m n : ℕ} {u : World Memory} (h : Advanced e m w u) (h' : Advanced e n u t) :
    Advanced e (m + n) w t where
  ready := h'.ready
  pending := h'.pending.trans h.pending
  backlog := by
    have hfirst := h.backlog
    have hsecond := h'.backlog
    omega
  tables := h.tables.trans h'.tables

theorem frame_apply {c : Commit Memory} (hc : isQueueWork c = true) (w : World Memory) :
    (apply c w).db.canonical = w.db.canonical ∧ (apply c w).db.postings = w.db.postings ∧
      (apply c w).operationIds = w.operationIds := by
  cases c <;> first | exact ⟨rfl, rfl, rfl⟩ | cases hc

theorem frame_applyNext (c : WriteCoordinator Memory) (w : World Memory) :
    let t := (applyNext c).final w
    t.db.canonical = w.db.canonical ∧ t.db.postings = w.db.postings ∧
      t.operationIds = w.operationIds :=
  (applyNext_uses c).run
    (R := fun s t : World Memory => t.db.canonical = s.db.canonical ∧
      t.db.postings = s.db.postings ∧ t.operationIds = s.operationIds)
    (fun _ => ⟨rfl, rfl, rfl⟩)
    (fun _ _ _ h h' => ⟨h'.1.trans h.1, h'.2.1.trans h.2.1, h'.2.2.trans h.2.2⟩)
    (fun _ s hc => frame_apply hc s) w

theorem answer_served {op : Operation} (hop : Served e op) {m : Memory}
    (hm : ∀ n, m.faults n = false) : fullyAcked op (answer e.coordinator op m).1 = true ∧
      storesOf (answer e.coordinator op m).2 = act op (storesOf m) ∧
      (answer e.coordinator op m).2.faults = m.faults ∧
      (answer e.coordinator op m).2.activeGeneration = m.activeGeneration := by
  obtain ⟨hbuilt, name, hname, htarget⟩ := hop
  have hanswer : answer e.coordinator op m =
      ((applyToStore name op m).1, { (applyToStore name op m).2 with calls := m.calls + 1 }) := by
    have hhandler : e.coordinator.handlers name = some (makeHandler name) := if_pos hname
    unfold answer
    rw [htarget, Option.bind_some, hhandler]
    change makeHandler name op m = _
    unfold makeHandler
    rw [if_neg (by simp [hm])]
  rw [hanswer, act_target htarget]
  exact ⟨fullyAcked_applyToStore name hbuilt m, storesOf_applyToStore name op m,
    settings_applyToStore name op m⟩

theorem done_of_acked {V : Type} {c : WriteCoordinator V} {row : OpRow} {result : Except String Acks}
    {p : Progress} (h : Verdict c row result p) (hacked : fullyAcked row.operation result = true) :
    p.state = .done := by
  cases h with
  | done _ state => exact state
  | failed refused => exact absurd (hacked.symm.trans refused) (by decide)
  | deferred refused => exact absurd (hacked.symm.trans refused) (by decide)

def handled (e : MemoryEngine) (op : Operation) (m : Memory) : Memory :=
  (answer e.coordinator op m).2

/-- One application takes the first row, and there is one unless the queue is idle. -/
theorem applyNext_takes (hw : Ready e w) :
    (notDone w.db.opLog = [] ∧ (applyNext e.coordinator).run w = (.ok none, apply .readClock w)) ∨
      ∃ row rest t, notDone w.db.opLog = row :: rest ∧
        (applyNext e.coordinator).run w = (.ok (some row.operation.opId), t) ∧ Ready e t ∧
        notDone t.db.opLog = rest ∧ t.memory = handled e row.operation w.memory ∧
        storesOf t.memory = act row.operation (storesOf w.memory) ∧ SameTables w t := by
  have hhead : selectEligible w.db.opLog w.now = (notDone w.db.opLog).head? :=
    selectEligible_waiting fun row hrow => (hw.waiting row hrow).1
  have hframe := frame_applyNext e.coordinator w
  rcases applyNext_run e.coordinator w with ⟨hsel, hrun⟩ | ⟨row, t, p, hsel, hrun, hverdict, hlog, hmemory⟩
  · rw [hsel] at hhead
    exact .inl ⟨List.head?_eq_none_iff.mp hhead.symm, hrun⟩
  rw [hsel] at hhead
  obtain ⟨rest, hrows⟩ := List.head?_eq_some_iff.mp hhead.symm
  have hmem : ∀ r ∈ row :: rest, Waiting r ∧ Served e r.operation := hrows ▸ hw.waiting
  obtain ⟨hacked, hstores, hfaults, hgeneration⟩ :=
    answer_served (hmem row List.mem_cons_self).2 hw.faultless
  have hrest : notDone t.db.opLog = rest := by
    rw [hlog, notDone_advance hrows]
    simp [OpRow.isLive, OpState.isLive, done_of_acked hverdict hacked]
  rw [Proc.final, hrun] at hframe
  obtain ⟨hcanonical, hpostings, hids⟩ := hframe
  refine .inr ⟨row, rest, t, hrows, hrun, ⟨fun r hr => ?_, fun r hr => ?_, fun n => ?_⟩, hrest,
    hmemory, by rw [hmemory, hstores], ⟨hcanonical, hpostings, by rw [hmemory, hgeneration]⟩⟩
  · rw [hrest] at hr
    exact hmem r (List.mem_cons_of_mem _ hr)
  · rw [hlog] at hr
    obtain ⟨old, hold, _, hop, _⟩ := mem_advance hr
    rw [hop, show t.operationIds = w.operationIds from hids]
    exact hw.fresh old hold
  · rw [hmemory, hfaults, hw.faultless]

theorem applyNext_ready (hw : Ready e w) :
    (backlog w = 0 ∧ (applyNext e.coordinator).run w = (.ok none, apply .readClock w)) ∨
      ∃ opId t, (applyNext e.coordinator).run w = (.ok (some opId), t) ∧ Advanced e 1 w t := by
  rcases applyNext_takes hw with ⟨hrows, hrun⟩ | ⟨row, rest, t, hrows, hrun, hready, hrest, _, hstores, htables⟩
  · exact .inl ⟨List.length_eq_zero_iff.mpr hrows, hrun⟩
  · refine .inr ⟨_, t, hrun, hready, ?_, ?_, htables⟩
    · unfold pending unfinished
      rw [hrest, hrows, hstores]
      rfl
    · unfold backlog
      rw [hrest, hrows]
      rfl

theorem drain_ready (hw : Ready e w) (steps : ℕ) :
    Advanced e steps w ((drain e.coordinator steps).final w) := by
  induction steps generalizing w with
  | zero => exact ⟨hw, rfl, rfl, .refl w⟩
  | succ steps ih =>
    rcases applyNext_ready hw with ⟨hidle, hrun⟩ | ⟨opId, t, hrun, hstep⟩
    · have hfinal : (drain e.coordinator (steps + 1)).final w = apply .readClock w :=
        Proc.final_bind_ok hrun
      have hsame : SameQueue w (apply .readClock w) := ⟨rfl, Nat.le_refl _, rfl, rfl⟩
      rw [hfinal]
      exact ⟨hsame.ready hw, hsame.pending, by rw [hsame.backlog, hidle, Nat.zero_sub], rfl, rfl, rfl⟩
    · have hfinal : (drain e.coordinator (steps + 1)).final w = (drain e.coordinator steps).final t :=
        (Proc.final_bind_ok hrun).trans (Proc.final_bind_pure _ (· + 1) t)
      rw [hfinal, Nat.add_comm]
      exact hstep.trans (ih hstep.ready)

/-- A drain takes operations off the front of the queue, and each of them acts on the stores. -/
theorem drain_takes (hw : Ready e w) (steps : ℕ) :
    let t := (drain e.coordinator steps).final w
    let taken := (unfinished w.db.opLog).take steps
    unfinished t.db.opLog = (unfinished w.db.opLog).drop steps ∧
      t.memory = replay (handled e) taken w.memory ∧
      storesOf t.memory = replay act taken (storesOf w.memory) := by
  induction steps generalizing w with
  | zero => exact ⟨rfl, rfl, rfl⟩
  | succ steps ih =>
    rcases applyNext_takes hw with
      ⟨hrows, hrun⟩ | ⟨row, rest, t, hrows, hrun, hready, hrest, hmemory, hstores, _⟩
    · have hfinal : (drain e.coordinator (steps + 1)).final w = apply .readClock w :=
        Proc.final_bind_ok hrun
      have hnone : unfinished w.db.opLog = [] := congrArg (List.map OpRow.operation) hrows
      rw [hfinal, hnone]
      exact ⟨hnone, rfl, rfl⟩
    · have hfinal : (drain e.coordinator (steps + 1)).final w = (drain e.coordinator steps).final t :=
        (Proc.final_bind_ok hrun).trans (Proc.final_bind_pure _ (· + 1) t)
      obtain ⟨hleft, htaken, hacted⟩ := ih hready
      have hfirst : unfinished w.db.opLog = row.operation :: unfinished t.db.opLog := by
        unfold unfinished
        rw [hrows, hrest]
        rfl
      rw [hfinal, hfirst]
      exact ⟨hleft, htaken.trans (congrArg (replay (handled e) _) hmemory),
        hacted.trans (congrArg (replay act _) hstores)⟩

structure Queued (e : MemoryEngine) (op : Operation) (w t : World Memory) : Prop where
  ready : Ready e t
  pending : pending t = act op (pending w)
  backlog : backlog t = backlog w + 1
  tables : SameTables w t

theorem pending_enqueue {op : Operation}
    (hunused : op.opId ∉ w.db.opLog.rows.map fun r => r.operation.opId) :
    WaitingQueue.pending (apply (.enqueue op) w) = act op (WaitingQueue.pending w) := by
  change replay act ((notDone (w.db.opLog.append op w.now)).map OpRow.operation) _ = _
  rw [notDone_append hunused, List.map_append, replay_append]
  rfl

theorem unused_fresh (hw : Ready e w) {op : Operation} (hid : op.opId = w.operationIds) :
    op.opId ∉ w.db.opLog.rows.map fun r => r.operation.opId := by
  intro hmem
  obtain ⟨row, hrow, hsame⟩ := List.mem_map.mp hmem
  have hlt := hw.fresh row hrow
  rw [hsame, hid] at hlt
  exact Nat.lt_irrefl _ hlt

theorem unfinished_fresh (hw : Ready e w) {op : Operation} (hid : op.opId = w.operationIds) :
    unfinished (apply (.enqueue op) (apply .newOperationId w)).db.opLog =
      unfinished w.db.opLog ++ [op] := by
  change (notDone (w.db.opLog.append op w.now)).map OpRow.operation = _
  rw [notDone_append (unused_fresh hw hid), List.map_append]
  rfl

theorem queued_fresh (hw : Ready e w) {op : Operation} (hop : Served e op)
    (hid : op.opId = w.operationIds) : Queued e op w (apply (.enqueue op) (apply .newOperationId w)) := by
  have hfresh := unused_fresh hw hid
  have hrows : notDone (w.db.opLog.append op w.now) =
      notDone w.db.opLog ++ [⟨w.db.opLog.nextSeq, op, w.now, ⟨.pending, 0, none, none, w.now⟩⟩] :=
    notDone_append hfresh
  refine ⟨⟨fun row hrow => ?_, fun row hrow => ?_, hw.faultless⟩, pending_enqueue hfresh, ?_, rfl,
    rfl, rfl⟩
  · rcases List.mem_append.mp (hrows ▸ hrow) with hrow | hrow
    · exact hw.waiting row hrow
    · cases List.mem_singleton.mp hrow
      exact ⟨⟨rfl, rfl⟩, hop⟩
  · have hrow' : row ∈ (w.db.opLog.append op w.now).rows := hrow
    rw [rows_append hfresh] at hrow'
    rcases List.mem_append.mp hrow' with hrow | hrow
    · exact Nat.lt_succ_of_lt (hw.fresh row hrow)
    · cases List.mem_singleton.mp hrow
      exact hid ▸ Nat.lt_succ_self _
  · change (notDone (w.db.opLog.append op w.now)).length = _
    rw [hrows, List.length_append]
    rfl

end Draining
end StrataMemory.WaitingQueue
