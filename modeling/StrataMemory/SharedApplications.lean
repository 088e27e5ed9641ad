import StrataMemory.Interleavings
import StrataMemory.SharedViews
import StrataMemory.WaitingQueue

set_option autoImplicit false

namespace StrataMemory.SharedApplications
open KeyedTables Records Tables Procedures Worlds Coordinator CoordinatorRuns Applications
open PendingRows Reorderings StoreRefinement WaitingQueue Engine Interleavings

/-- The adapters answer, no operation id is drawn twice, and the queue can be carried out. -/
structure Servable (e : MemoryEngine) (w : World Memory) : Prop where
  faultless : ∀ n, w.memory.faults n = false
  fresh : ∀ row ∈ w.db.opLog.rows, row.operation.opId < w.operationIds
  served : ∀ row ∈ notDone w.db.opLog, Served e row.operation

def opIds (w : World Memory) : List OpId := w.db.opLog.rows.map fun r => r.operation.opId

/-- A live row has the `seq` and the operation, and may be taken before those ahead of it. -/
def Chosen (seq : ℕ) (op : Operation) (log : OpLog) : Prop :=
  ∃ before row after, notDone log = before ++ row :: after ∧ row.seq = seq ∧ row.operation = op ∧
    ∀ b ∈ before.map OpRow.operation, Function.Commute (act b) (act op)

/-- No text has moved: not in the tables, and not in what the queue will leave. -/
structure Quiet (e : MemoryEngine) (w t : World Memory) : Prop where
  servable : Servable e t
  pending : pending t = pending w
  tables : SameTables w t
  opIds : opIds t = opIds w
  drawn : w.operationIds ≤ t.operationIds

variable {ι : Type} {e : MemoryEngine} {i j : ι} {m : Moment ι (World Memory) (Commit Memory)}
  {c : Commit Memory}

inductive QueueStep (e : MemoryEngine) (i : ι) (m : Moment ι (World Memory) (Commit Memory)) :
    Commit Memory → Prop where
  | acquire : QueueStep e i m .acquire
  | clock : QueueStep e i m .readClock
  | ack (id : RecordId) (name : String) (opId : OpId) (success : Bool) :
      QueueStep e i m (.recordIndexAck id name opId success)
  | release (held : m.holder = some i) : QueueStep e i m .release
  | start {seq : ℕ} {op : Operation} (held : m.holder = some i)
      (chosen : Chosen seq op m.state.db.opLog) : QueueStep e i m (.setOpState seq .inProgress)
  | handle {seq : ℕ} {op : Operation} (held : m.holder = some i)
      (chosen : Chosen seq op m.state.db.opLog) :
      QueueStep e i m (.memory fun v => (answer e.coordinator op v).2)
  | finish {seq : ℕ} {op : Operation} (held : m.holder = some i)
      (chosen : Chosen seq op m.state.db.opLog)
      (applied : act op (storesOf m.state.memory) = storesOf m.state.memory) (acks : Acks) :
      QueueStep e i m (.finish seq acks .done)

inductive Aside (e : MemoryEngine) (w : World Memory) : Commit Memory → Prop where
  | table {c : Commit Memory} (unlocked : Locks.takes c = false ∧ Locks.frees c = false)
      (log : (apply c w).db.opLog = w.db.opLog) (memory : (apply c w).memory = w.memory)
      (drawn : w.operationIds ≤ (apply c w).operationIds) : Aside e w c
  | enqueue {op : Operation} (served : Served e op) (drawn : op.opId < w.operationIds)
      (unused : op.opId ∉ opIds w) : Aside e w (.enqueue op)

/-- What `j` may issue between the moves of `i`: `i` itself only applies the queue. -/
def May (e : MemoryEngine) (i j : ι) (m : Moment ι (World Memory) (Commit Memory))
    (c : Commit Memory) : Prop :=
  QueueStep e j m c ∨ (j ≠ i ∧ Aside e m.state c)

def Issued (e : MemoryEngine) (i : ι) (m n : Moment ι (World Memory) (Commit Memory)) : Prop :=
  n = m ∨ ∃ c, m.blocks c = false ∧ (QueueStep e i m c ∨ Aside e m.state c) ∧ n = m.commit i c

theorem Quiet.refl {w : World Memory} (hw : Servable e w) : Quiet e w w :=
  ⟨hw, rfl, .refl w, rfl, Nat.le_refl _⟩

theorem Servable.advance {w t : World Memory} (h : Servable e w) {seq : ℕ} {op : Operation}
    (hchosen : Chosen seq op w.db.opLog)
    (hlog : ∃ f, t.db.opLog = w.db.opLog.advance (fun r => r.seq = seq) f)
    (hmemory : t.memory = w.memory) (hids : t.operationIds = w.operationIds) : Servable e t where
  faultless := by rw [hmemory]; exact h.faultless
  fresh row hrow := by
    obtain ⟨f, hlog⟩ := hlog
    rw [hlog] at hrow
    obtain ⟨old, hold, _, hop, _⟩ := mem_advance hrow
    rw [hop, hids]
    exact h.fresh old hold
  served r hr := by
    obtain ⟨f, hlog⟩ := hlog
    obtain ⟨before, row, after, hrows, rfl, _⟩ := hchosen
    have hserved : ∀ r ∈ before ++ row :: after, Served e r.operation := hrows ▸ h.served
    rw [hlog, notDone_advance_at hrows] at hr
    simp only [List.mem_append, List.mem_filter, List.mem_singleton] at hr
    rcases hr with (hr | ⟨rfl, _⟩) | hr
    · exact hserved r (by simp [hr])
    · exact hserved row (by simp)
    · exact hserved r (by simp [hr])

theorem QueueStep.quiet (h : QueueStep e i m c) (hm : Servable e m.state) :
    Quiet e m.state (apply c m.state) := by
  cases h with
  | acquire | clock | ack | release =>
    exact ⟨⟨hm.faultless, hm.fresh, hm.served⟩, rfl, ⟨rfl, rfl, rfl⟩, rfl, Nat.le_refl _⟩
  | start held hchosen =>
    let f : Progress → Progress := fun p =>
      { p with state := .inProgress, updatedAt := m.state.now }
    refine ⟨hm.advance hchosen ⟨f, rfl⟩ rfl rfl, ?_, ⟨rfl, rfl, rfl⟩, opIds_advance _ _ f,
      Nat.le_refl _⟩
    obtain ⟨before, row, after, hrows, rfl, _⟩ := hchosen
    obtain ⟨hrow, hlive⟩ : row ∈ m.state.db.opLog.rows ∧ row.isLive = true :=
      List.mem_filter.mp (hrows ▸ by simp : row ∈ notDone m.state.db.opLog)
    unfold WaitingQueue.pending
    congr 1
    refine unfinished_advance fun r hr hseq => ?_
    rw [seq_unique hrow hr (of_decide_eq_true hseq), hlive]
    rfl
  | handle held hchosen =>
    obtain ⟨before, row, after, hrows, _, rfl, hcommute⟩ := hchosen
    have hlive : row ∈ notDone m.state.db.opLog := hrows ▸ by simp
    obtain ⟨_, hstores, hfaults, hgeneration⟩ := answer_served (hm.served row hlive) hm.faultless
    refine ⟨⟨fun n => ?_, hm.fresh, hm.served⟩, ?_, ⟨rfl, rfl, hgeneration⟩, rfl, Nat.le_refl _⟩
    · exact (congrFun hfaults n).trans (hm.faultless n)
    · change replay act (unfinished m.state.db.opLog)
        (storesOf (answer e.coordinator row.operation m.state.memory).2) = _
      unfold WaitingQueue.pending
      rw [hstores, unfinished_split hrows]
      exact replay_redone hcommute (act_idempotent _) _ _
  | finish held hchosen happlied acks =>
    let f : Progress → Progress := fun p =>
      { p with state := .done, ackState := some (.acks acks), updatedAt := m.state.now }
    refine ⟨hm.advance hchosen ⟨f, rfl⟩ rfl rfl, ?_, ⟨rfl, rfl, rfl⟩, opIds_advance _ _ f,
      Nat.le_refl _⟩
    obtain ⟨before, row, after, hrows, rfl, rfl, hcommute⟩ := hchosen
    have hrow : row ∈ m.state.db.opLog.rows :=
      (List.mem_filter.mp (hrows ▸ by simp : row ∈ notDone m.state.db.opLog)).1
    have hdone : unfinished (apply (.finish row.seq acks .done) m.state).db.opLog =
        before.map OpRow.operation ++ after.map OpRow.operation := by
      change unfinished (m.state.db.opLog.advance _ f) = _
      rw [advance_row hrow]
      exact unfinished_settled hrows rfl
    change replay act (unfinished (apply _ m.state).db.opLog) (storesOf m.state.memory) = _
    unfold WaitingQueue.pending
    rw [hdone, unfinished_split hrows, ← replay_taken hcommute, happlied]

theorem Aside.servable {w : World Memory} (h : Aside e w c) (hw : Servable e w) :
    Servable e (apply c w) := by
  cases h with
  | table unlocked log memory drawn =>
    refine ⟨by rw [memory]; exact hw.faultless, fun row hrow => ?_, by rw [log]; exact hw.served⟩
    rw [log] at hrow
    exact Nat.lt_of_lt_of_le (hw.fresh row hrow) drawn
  | enqueue served drawn unused =>
    rename_i op
    refine ⟨hw.faultless, fun row hrow => ?_, fun row hrow => ?_⟩
    · change row ∈ (w.db.opLog.append op w.now).rows at hrow
      rw [rows_append unused] at hrow
      rcases List.mem_append.mp hrow with hrow | hrow
      · exact hw.fresh row hrow
      · cases List.mem_singleton.mp hrow
        exact drawn
    · change row ∈ notDone (w.db.opLog.append op w.now) at hrow
      rw [notDone_append unused] at hrow
      rcases List.mem_append.mp hrow with hrow | hrow
      · exact hw.served row hrow
      · cases List.mem_singleton.mp hrow
        exact served

theorem May.servable (h : May e i j m c) (hm : Servable e m.state) : Servable e (apply c m.state) := by
  rcases h with h | ⟨_, h⟩
  · exact (h.quiet hm).servable
  · exact h.servable hm

/-- The others leave the holder of the lock the lock, the stores and the rows it has seen. -/
theorem May.spares (h : May e i j m c) (hj : j ≠ i) (hfree : m.blocks c = false)
    (hheld : m.holder = some i) : (m.commit j c).holder = some i ∧
      (apply c m.state).memory = m.state.memory ∧
      ∃ more, notDone (apply c m.state).db.opLog = notDone m.state.db.opLog ++ more := by
  rcases h with h | ⟨_, h⟩
  · cases h with
    | acquire =>
      have hblocked : m.blocks (.acquire : Commit Memory) = true := by
        simp [Moment.blocks, Locks.takes, hheld]
      exact absurd (hblocked.symm.trans hfree) (by decide)
    | clock | ack => exact ⟨hheld, rfl, [], (List.append_nil _).symm⟩
    | release held | start held | handle held | finish held =>
      exact absurd (Option.some.inj (held.symm.trans hheld)) hj
  · cases h with
    | table unlocked log memory drawn =>
      refine ⟨?_, memory, [], by rw [log, List.append_nil]⟩
      simp [Moment.commit, unlocked, hheld]
    | enqueue served drawn unused => exact ⟨hheld, rfl, _, notDone_append unused⟩

theorem Issued.rely {n : Moment ι (World Memory) (Commit Memory)} (h : Issued e i m n)
    (hij : i ≠ j) : Rely (May e j) j m n := by
  rcases h with rfl | ⟨c, hfree, hc, rfl⟩
  · exact .refl
  · exact .single (.commit hij hfree (hc.imp id fun h => ⟨hij, h⟩))

def Holds (e : MemoryEngine) (i : ι) (P : OpLog → (String → Contents) → Prop)
    (m : Moment ι (World Memory) (Commit Memory)) : Prop :=
  Servable e m.state ∧ m.holder = some i ∧ P m.state.db.opLog (storesOf m.state.memory)

def Idle (e : MemoryEngine) (m : Moment ι (World Memory) (Commit Memory)) : Prop :=
  Servable e m.state

def Grows (P : OpLog → (String → Contents) → Prop) : Prop :=
  ∀ log grown stores, (∃ more, notDone grown = notDone log ++ more) → P log stores → P grown stores

theorem stable_idle : Stable (May e i) i (Idle e) :=
  fun _ _ _ _ _ hc hm => hc.servable hm

theorem stable_holds {P : OpLog → (String → Contents) → Prop} (hP : Grows P) :
    Stable (May e i) i (Holds e i P) := by
  intro m j c hj hfree hc hm
  obtain ⟨hheld, hmemory, hmore⟩ := hc.spares hj hfree hm.2.1
  refine ⟨hc.servable hm.1, hheld, ?_⟩
  change P (apply c m.state).db.opLog (storesOf (apply c m.state).memory)
  rw [hmemory]
  exact hP _ _ _ hmore hm.2.2

def Nothing (_ : OpLog) (_ : String → Contents) : Prop := True

def Selected (seq : ℕ) (op : Operation) (log : OpLog) (_ : String → Contents) : Prop :=
  Chosen seq op log

def Taken (seq : ℕ) (op : Operation) (log : OpLog) (stores : String → Contents) : Prop :=
  Chosen seq op log ∧ act op stores = stores

theorem Chosen.grow {seq : ℕ} {op : Operation} {log grown : OpLog} (h : Chosen seq op log)
    (hgrown : ∃ more, notDone grown = notDone log ++ more) : Chosen seq op grown := by
  obtain ⟨before, row, after, hrows, hseq, hop, hcommute⟩ := h
  obtain ⟨more, hmore⟩ := hgrown
  exact ⟨before, row, after ++ more, by simp [hmore, hrows], hseq, hop, hcommute⟩

theorem Chosen.start {seq : ℕ} {op : Operation} {log : OpLog} (h : Chosen seq op log)
    {f : Progress → Progress} (hf : ∀ p, (f p).state = .inProgress) :
    Chosen seq op (log.advance (fun r => r.seq = seq) f) := by
  obtain ⟨before, row, after, hrows, rfl, hop, hcommute⟩ := h
  refine ⟨before, { row with progress := f row.progress }, after, ?_, rfl, hop, hcommute⟩
  rw [notDone_advance_at hrows]
  simp [OpRow.isLive, OpState.isLive, hf]

theorem grows_nothing : Grows Nothing := fun _ _ _ _ h => h

theorem grows_selected (seq : ℕ) (op : Operation) : Grows (Selected seq op) :=
  fun _ _ _ hmore h => h.grow hmore

theorem grows_taken (seq : ℕ) (op : Operation) : Grows (Taken seq op) :=
  fun _ _ _ hmore h => ⟨h.1.grow hmore, h.2⟩

theorem outline_held {E : Moment ι (World Memory) (Commit Memory) → Prop}
    {P Q : OpLog → (String → Contents) → Prop} (hP : Grows P) (hQ : Grows Q)
    (hstep : ∀ m, Holds e i P m → QueueStep e i m c ∧ (m.commit i c).holder = some i ∧
      Q (apply c m.state).db.opLog (storesOf (apply c m.state).memory)) :
    Outline (May e i) i E (Holds e i P) (commit c) fun _ => Holds e i Q := by
  refine Outline.perform (stable_holds hP) (fun m hm _ => ?_) (stable_holds hQ)
  obtain ⟨hmay, hheld, hq⟩ := hstep m hm
  exact ⟨.inl hmay, (hmay.quiet hm.1).servable, hheld, hq⟩

theorem callHandler_served {op : Operation} (hop : Served e op) :
    callHandler e.coordinator op = Proc.performing
      (.memory fun v => (answer e.coordinator op v).2) fun w => (answer e.coordinator op w.memory).1 := by
  obtain ⟨_, name, hname, htarget⟩ := hop
  have hhandler : e.coordinator.handlers name = some (makeHandler name) := if_pos hname
  unfold callHandler answer
  rw [htarget, Option.bind_some, hhandler]
  rfl

section Outlines
variable {E : Moment ι (World Memory) (Commit Memory) → Prop}

theorem outline_callHandler {seq : ℕ} {op : Operation} (hop : Served e op) :
    Outline (May e i) i E (Holds e i (Selected seq op)) (callHandler e.coordinator op)
      fun result m => fullyAcked op result = true ∧ Holds e i (Taken seq op) m := by
  rw [callHandler_served hop]
  refine Outline.performing (stable_holds (grows_selected seq op)) (fun m hm _ => ?_) fun result =>
    fun m j c hj hfree hc hm => ⟨hm.1, stable_holds (grows_taken seq op) m j c hj hfree hc hm.2⟩
  obtain ⟨hacked, hstores, _, _⟩ := answer_served hop hm.1.faultless
  have hmay : QueueStep e i m (.memory fun v => (answer e.coordinator op v).2) :=
    .handle hm.2.1 hm.2.2
  refine ⟨.inl hmay, hacked, (hmay.quiet hm.1).servable, hm.2.1, hm.2.2, ?_⟩
  change act op (storesOf (answer e.coordinator op m.state.memory).2) =
    storesOf (answer e.coordinator op m.state.memory).2
  rw [hstores]
  exact act_idempotent op _

theorem outline_runOp {row : OpRow} (hrow : Served e row.operation) :
    Outline (May e i) i E (Holds e i (Selected row.seq row.operation)) (runOp e.coordinator row)
      fun _ => Holds e i Nothing := by
  have htaken := grows_taken row.seq row.operation
  have hacks : ∀ acks : Acks, Outline (May e i) i E (Holds e i (Taken row.seq row.operation))
      (recordAcks row.operation acks) fun _ => Holds e i (Taken row.seq row.operation) := fun acks =>
    Outline.forM (I := fun _ => Holds e i (Taken row.seq row.operation))
      (fun _ _ => outline_held htaken htaken fun m hm => ⟨.ack _ _ _ _, hm.2.1, hm.2.2⟩)
      (stable_holds htaken) _
  rw [runOp_eq]
  refine (outline_callHandler hrow).bind fun result => ?_
  rintro m ⟨hacked, hm⟩
  cases result with
  | error reason => cases hacked
  | ok acks =>
    refine ((hacks acks).bind fun _ => ?_) m hm
    have hclosing : closing e.coordinator row (.ok acks) = .finish row.seq acks .done :=
      if_pos hacked
    rw [hclosing]
    exact outline_held htaken grows_nothing fun m hm =>
      ⟨.finish hm.2.1 hm.2.2.1 hm.2.2.2 acks, hm.2.1, trivial⟩

/-- What the selection establishes while the lock is held. -/
def Selection (e : MemoryEngine) (i : ι) :
    Option OpRow → Moment ι (World Memory) (Commit Memory) → Prop
  | none, m => Holds e i Nothing m
  | some row, m => Served e row.operation ∧ Holds e i (Selected row.seq row.operation) m

theorem selection {now : Time} (hm : Holds e i Nothing m) :
    Selection e i (selectEligible m.state.db.opLog now) m := by
  cases hsel : selectEligible m.state.db.opLog now with
  | none => exact hm
  | some row =>
    obtain ⟨hrow, hlive⟩ := live_of_selectEligible hsel
    obtain ⟨before, after, hrows, hcommute⟩ := selected_commutes
      (fun r hr => (hm.1.served r hr).1) hsel
    exact ⟨hm.1.served row (List.mem_filter.mpr ⟨hrow, hlive⟩), hm.1, hm.2.1, before, row, after,
      hrows, rfl, rfl, hcommute⟩

theorem stable_selection (selected : Option OpRow) : Stable (May e i) i (Selection e i selected) := by
  cases selected with
  | none => exact stable_holds grows_nothing
  | some row =>
    exact fun m j c hj hfree hc hm =>
      ⟨hm.1, stable_holds (grows_selected _ _) m j c hj hfree hc hm.2⟩

theorem outline_applySelected (selected : Option OpRow) :
    Outline (May e i) i E (Selection e i selected) (applySelected e.coordinator selected)
      fun _ => Holds e i Nothing := by
  have hnothing : Stable (May e i) i (Holds e i Nothing) := stable_holds grows_nothing
  cases selected with
  | none => exact Outline.pure hnothing fun _ hm => hm
  | some row =>
    rintro m ⟨hserved, hm⟩
    have hstart : Outline (May e i) i E (Holds e i (Selected row.seq row.operation))
        (commit (.setOpState row.seq .inProgress))
        fun _ => Holds e i (Selected row.seq row.operation) := by
      refine outline_held (grows_selected _ _) (grows_selected _ _) fun m hm => ?_
      exact ⟨.start hm.2.1 hm.2.2, hm.2.1, hm.2.2.start fun _ => rfl⟩
    refine (hstart.bind fun _ => (outline_runOp hserved).bind fun _ => ?_) m hm
    exact Outline.pure hnothing fun _ hm => hm

theorem outline_applyNext :
    Outline (May e i) i E (Idle e) (applyNext e.coordinator) fun _ => Idle e := by
  have hnothing : Stable (May e i) i (Holds e i Nothing) := stable_holds grows_nothing
  have hacquire : Outline (May e i) i E (Idle e) (commit .acquire) fun _ => Holds e i Nothing :=
    Outline.perform stable_idle (fun m hm _ =>
      have hmay : QueueStep e i m .acquire := .acquire
      ⟨.inl hmay, (hmay.quiet hm).servable, rfl, trivial⟩) hnothing
  have hclock : Outline (May e i) i E (Holds e i Nothing) nowMs fun _ => Holds e i Nothing :=
    Outline.performing hnothing (fun m hm _ =>
      have hmay : QueueStep e i m .readClock := .clock
      ⟨.inl hmay, (hmay.quiet hm.1).servable, hm.2.1, trivial⟩) fun _ => hnothing
  have hselect : ∀ now, Outline (May e i) i E (Holds e i Nothing)
      (query fun db => selectEligible db.opLog now) (Selection e i) := fun now =>
    Outline.read hnothing (fun m hm => selection hm) stable_selection
  have hrelease : Outline (May e i) i E (Holds e i Nothing) (commit .release) fun _ => Idle e :=
    Outline.perform hnothing (fun m hm _ =>
      ⟨.inl (.release hm.2.1), ((QueueStep.release hm.2.1).quiet hm.1).servable⟩) stable_idle
  refine hacquire.bind fun _ => hclock.bind fun now => (hselect now).bind fun selected => ?_
  refine (outline_applySelected selected).bind fun _ => hrelease.bind fun _ => ?_
  exact Outline.pure stable_idle fun _ hm => hm

theorem outline_drain (steps : ℕ) :
    Outline (May e i) i E (Idle e) (drain e.coordinator steps) fun _ => Idle e := by
  induction steps with
  | zero => exact Outline.pure stable_idle fun _ hm => hm
  | succ steps ih =>
    refine outline_applyNext.bind fun applied => ?_
    cases applied with
    | none => exact Outline.pure stable_idle fun _ hm => hm
    | some _ => exact ih.bind fun _ => Outline.pure stable_idle fun _ hm => hm

end Outlines

end StrataMemory.SharedApplications
