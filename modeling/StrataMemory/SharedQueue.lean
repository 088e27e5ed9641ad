import StrataMemory.SharedCommits

set_option autoImplicit false

namespace StrataMemory.SharedQueue
open KeyedTables Records Tables Procedures Worlds Coordinator PendingRows
open HandlerEffects Engine Interleavings SharedViews VectorStore

variable {base : OpId} {x : RecordId} {i : Party} {E : Shared → Prop}

def Closed (x : RecordId) (i : Party) (P : View → Prop) : Prop :=
  ∀ v u, Around x i v u → P v → P u

theorem Closed.and {P P' : View → Prop} (h : Closed x i P) (h' : Closed x i P') :
    Closed x i fun v => P v ∧ P' v :=
  fun v u hvu hv => ⟨h v u hvu hv.1, h' v u hvu hv.2⟩

theorem outline_commit {P Q : View → Prop} {c : Commit Memory} (hP : Closed x i P)
    (hQ : Closed x i Q)
    (hstep : ∀ m, Sound base m → P (view x m) → m.blocks c = false →
      May base x i m c ∧ Q (view x (m.commit i c))) :
    Outline (May base x) i E (At base x P) (commit c) fun _ => At base x Q :=
  Outline.perform (stable_at hP)
    (fun m hm hfree => ⟨(hstep m hm.1 hm.2 hfree).1,
      hm.1.commit (hstep m hm.1 hm.2 hfree).1, (hstep m hm.1 hm.2 hfree).2⟩) (stable_at hQ)

theorem outline_unseen {P : View → Prop} {c : Commit Memory} (hP : Closed x i P)
    (hstep : ∀ m, Sound base m → P (view x m) → May base x i m c ∧
      view x (m.commit i c) = view x m) :
    Outline (May base x) i E (At base x P) (commit c) fun _ => At base x P :=
  outline_commit hP hP fun m hm hv _ =>
    ⟨(hstep m hm hv).1, by rw [(hstep m hm hv).2]; exact hv⟩

theorem outline_clock {P : View → Prop} (hP : Closed x i P) :
    Outline (May base x) i E (At base x P) nowMs fun _ => At base x P := by
  refine Outline.performing (stable_at hP) (fun m hm _ => ?_) fun _ => stable_at hP
  have hclock : WriterStep i m .readClock := .clock
  have hmay : May base x i m .readClock := by
    cases i with
    | update => exact UpdateStep.writer hclock
    | deletion => exact DeletionStep.writer hclock
  exact ⟨hmay, hm.1.commit hmay, hm.2⟩

theorem may_writer {m : Shared} {c : Commit Memory} (h : WriterStep i m c) : May base x i m c := by
  cases i with
  | update => exact UpdateStep.writer h
  | deletion => exact DeletionStep.writer h

theorem outline_draw {P : View → Prop} (hP : Closed x i P) :
    Outline (May base x) i E (At base x P) newOperationId
      fun a m => Drawn base i a m ∧ At base x P m := by
  refine Outline.performing (stable_at hP) (fun m hm _ => ?_) fun a =>
    fun m j c hj hfree hc hm => ⟨hm.1.other hj hc, stable_at hP m j c hj hfree hc hm.2⟩
  have hmay : May base x i m .newOperationId := by
    cases i with
    | update => exact UpdateStep.draw
    | deletion => exact DeletionStep.draw
  refine ⟨hmay, ⟨?_, fun hused => ?_⟩, hm.1.commit hmay, hm.2⟩
  · exact if_pos (by rw [decide_eq_true hm.1.drawn]; rfl)
  · obtain ⟨row, hrow, hid⟩ := List.mem_map.mp hused
    exact Nat.lt_irrefl _ (hid ▸ hm.1.known row hrow)

theorem outline_enqueue (op : Operation) {P Q : View → Prop} (hP : Closed x i P)
    (hQ : Closed x i Q)
    (hstep : ∀ m, Sound base m → Drawn base i op.opId m → P (view x m) →
      May base x i m (.enqueue op) ∧ Q (view x (m.commit i (.enqueue op)))) :
    Outline (May base x) i E (fun m => Drawn base i op.opId m ∧ At base x P m) (enqueue op)
      fun _ => At base x Q := by
  have hcommit : Outline (May base x) i E (fun m => Drawn base i op.opId m ∧ At base x P m)
      (commit (.enqueue op)) fun _ => At base x Q := by
    refine Outline.perform (fun m j c hj hfree hc hm => ?_) (fun m hm _ => ?_) (stable_at hQ)
    · exact ⟨hm.1.other hj hc, stable_at hP m j c hj hfree hc hm.2⟩
    · obtain ⟨hmay, hq⟩ := hstep m hm.2.1 hm.1 hm.2.2
      exact ⟨hmay, hm.2.1.commit hmay, hq⟩
  exact hcommit.bind fun _ => Outline.pure (stable_at hQ) fun _ hm => hm

theorem Outline.given {α : Type} {q : Prop} {P : Shared → Prop} {p : Prog Memory α}
    {Q : α → Shared → Prop} (h : q → Outline (May base x) i E P p Q) :
    Outline (May base x) i E (fun m => q ∧ P m) p Q :=
  fun m hm => h hm.1 m hm.2

theorem stable_given {q : Prop} {P : Shared → Prop} (hP : Stable (May base x) i P) :
    Stable (May base x) i fun m => q ∧ P m :=
  fun m j c hj hfree hc hm => ⟨hm.1, hP m j c hj hfree hc hm.2⟩

def Ready (i : Party) (v : View) : Prop := v.holder = some i ∧ ∀ row ∈ v.live, Waiting row

def Working (i : Party) (seq : ℕ) (op : Operation) (v : View) : Prop :=
  v.holder = some i ∧ ∃ row rest, v.live = row :: rest ∧ row.seq = seq ∧ row.operation = op ∧
    ∀ r ∈ rest, Waiting r

def Applied (i : Party) (seq : ℕ) (op : Operation) (v : View) : Prop :=
  Working i seq op v ∧ ∀ id, presentAfter op id (v.present id) = v.present id

theorem closed_ready : Closed x i (Ready i) := by
  intro v u hvu hv
  obtain ⟨hholder, _, more, hlive, hmore⟩ := hvu.spares hv.1
  refine ⟨hholder, fun row hrow => ?_⟩
  rw [hlive] at hrow
  exact (List.mem_append.mp hrow).elim (hv.2 row) (hmore row)

theorem closed_working (seq : ℕ) (op : Operation) : Closed x i (Working i seq op) := by
  rintro v u hvu ⟨hheld, row, rest, hfront, hseq, hop, hrest⟩
  obtain ⟨hholder, _, more, hlive, hmore⟩ := hvu.spares hheld
  refine ⟨hholder, row, rest ++ more, ?_, hseq, hop, fun r hr => ?_⟩
  · rw [hlive, hfront, List.cons_append]
  · exact (List.mem_append.mp hr).elim (hrest r) (hmore r)

theorem closed_applied (seq : ℕ) (op : Operation) : Closed x i (Applied i seq op) := by
  rintro v u hvu ⟨hworking, happlied⟩
  refine ⟨closed_working seq op v u hvu hworking, ?_⟩
  rw [(hvu.spares hworking.1).2.1]
  exact happlied

/-- Whether the store has the id once the queue has been applied. -/
def outcome (live : List OpRow) (id : RecordId) (present : Bool) : Bool :=
  live.foldl (fun b row => presentAfter row.operation id b) present

/-- Within `f` applications the queue is empty and the store has the ids, or has none of
them. -/
def Settles (ids : List RecordId) (b : Bool) (f : ℕ) (v : View) : Prop :=
  (∀ id ∈ ids, outcome v.live id (v.present id) = b) ∧ v.live.length < f

def Settled (ids : List RecordId) (b : Bool) (v : View) : Prop :=
  v.live = [] ∧ ∀ id ∈ ids, v.present id = b

theorem outcome_concat (live : List OpRow) (row : OpRow) (id : RecordId) (present : Bool) :
    outcome (live ++ [row]) id present =
      presentAfter row.operation id (outcome live id present) := by
  unfold outcome
  rw [List.foldl_append]
  rfl

theorem outcome_queue {v u : View} (h : QueueMove v u) (id : RecordId) :
    outcome u.live id (u.present id) = outcome v.live id (v.present id) := by
  cases h with
  | lock => rfl
  | start front p =>
    rw [front]
    rfl
  | handle front =>
    change outcome v.live id (presentAfter _ id (v.present id)) = _
    rw [front]
    change outcome _ id (presentAfter _ id (presentAfter _ id (v.present id))) = _
    rw [presentAfter_again]
    rfl
  | finish front applied =>
    rw [front]
    change _ = outcome _ id (presentAfter _ id (v.present id))
    rw [applied id]

section Settling
variable {ids : List RecordId} {b : Bool} {f : ℕ} {v u : View}

theorem Settles.queue (h : Settles ids b f v) (hvu : QueueMove v u) : Settles ids b f u :=
  ⟨fun id hid => (outcome_queue hvu id).trans (h.1 id hid), hvu.length_le.trans_lt h.2⟩

theorem Settles.finish {row : OpRow} {rest : List OpRow} (h : Settles ids b (f + 1) v)
    (front : v.live = row :: rest)
    (applied : ∀ id, presentAfter row.operation id (v.present id) = v.present id) :
    Settles ids b f { v with live := rest } := by
  refine ⟨(h.queue (.finish front applied)).1, ?_⟩
  have hlength := h.2
  rw [front, List.length_cons] at hlength
  exact Nat.lt_of_succ_lt_succ hlength

theorem Settles.empty (h : Settles ids b f v) (hlive : v.live = []) : Settled ids b v := by
  refine ⟨hlive, fun id hid => ?_⟩
  have houtcome := h.1 id hid
  rw [hlive] at houtcome
  exact houtcome

theorem Settled.queue (h : Settled ids b v) (hvu : QueueMove v u) : Settled ids b u := by
  cases hvu with
  | lock => exact h
  | start front p => exact absurd (front.symm.trans h.1) (List.cons_ne_nil _ _)
  | handle front => exact absurd (front.symm.trans h.1) (List.cons_ne_nil _ _)
  | finish front applied => exact absurd (front.symm.trans h.1) (List.cons_ne_nil _ _)

end Settling

theorem served_acks {op : Operation} (h : Served op) {v : Memory}
    (hfaults : v.faults = fun _ => false) : ∃ acks, (makeHandler "hot" op v).1 = .ok acks ∧
      (op.targetIds.all fun rid => acks.get rid) = true := by
  unfold makeHandler
  rw [hfaults, if_neg Bool.false_ne_true]
  dsimp only [applyToStore]
  rcases h.2 with htype | ⟨htype, hrecords⟩
  · rw [htype]
    exact ⟨_, rfl, List.all_eq_true.mpr fun id hid => get_acks hid⟩
  · rw [htype]
    refine ⟨_, rfl, List.all_eq_true.mpr fun id hid => ?_⟩
    obtain ⟨rec, hrec, rfl⟩ := hrecords id hid
    have hacks : op.records.map (fun r => (r.id, true)) =
        (op.records.map VectorRecord.id).map fun i => (i, true) := by
      rw [List.map_map]
      rfl
    change Acks.get (op.records.map fun r => (r.id, true)) rec.id = true
    rw [hacks]
    exact get_acks (List.mem_map_of_mem hrec)

/-- What can be carried through a drain: `Φ (f + 1)` before an application that takes
something off the queue, `Φ f` after it, and `Ψ` when the queue is found empty. -/
structure DrainFacts (x : RecordId) (i : Party) (Φ : ℕ → View → Prop) (Ψ : View → Prop) : Prop where
  closed : ∀ f, Closed x i (Φ f)
  closedEmpty : Closed x i Ψ
  lock : ∀ f v holder, Φ f v → Φ f { v with holder := holder }
  lockEmpty : ∀ v holder, Ψ v → Ψ { v with holder := holder }
  start : ∀ f v row rest p, v.live = row :: rest → Φ f v →
    Φ f { v with live := { row with progress := p } :: rest }
  handle : ∀ f v row rest, v.live = row :: rest → Φ f v →
    Φ f { v with present := fun id => presentAfter row.operation id (v.present id) }
  finish : ∀ f v row rest, v.live = row :: rest →
    (∀ id, presentAfter row.operation id (v.present id) = v.present id) → Φ (f + 1) v →
    Φ f { v with live := rest }
  empty : ∀ f v, v.live = [] → Φ f v → Ψ v
  spent : ∀ v, Φ 0 v → Ψ v

theorem drainFacts_settles {K : View → Prop} {W : (View → Prop) → View → Prop}
    {ids : List RecordId} {b : Bool} (hK : Closed x i K)
    (hqueue : ∀ v u, QueueMove v u → K v → K u)
    (hW : ∀ (F G : View → Prop) v u, u.contents = v.contents → u.removed = v.removed →
      (F v → G u) → W F v → W G u)
    (hclosed : ∀ f, Closed x i (W (Settles ids b f))) (hclosed' : Closed x i (W (Settled ids b))) :
    DrainFacts x i (fun f v => K v ∧ W (Settles ids b f) v)
      fun v => K v ∧ W (Settled ids b) v where
  closed f := hK.and (hclosed f)
  closedEmpty := hK.and hclosed'
  lock _ v holder hv := ⟨hqueue v _ (.lock holder) hv.1, hW _ _ v _ rfl rfl
    (fun h => h.queue (.lock holder)) hv.2⟩
  lockEmpty v holder hv := ⟨hqueue v _ (.lock holder) hv.1, hW _ _ v _ rfl rfl
    (fun h => h.queue (.lock holder)) hv.2⟩
  start _ v _ _ p front hv := ⟨hqueue v _ (.start front p) hv.1, hW _ _ v _ rfl rfl
    (fun h => h.queue (.start front p)) hv.2⟩
  handle _ v _ _ front hv := ⟨hqueue v _ (.handle front) hv.1, hW _ _ v _ rfl rfl
    (fun h => h.queue (.handle front)) hv.2⟩
  finish _ v _ _ front applied hv := ⟨hqueue v _ (.finish front applied) hv.1, hW _ _ v _ rfl rfl
    (fun h => h.finish front applied) hv.2⟩
  empty _ v hlive hv := ⟨hv.1, hW _ _ v v rfl rfl (fun h => h.empty hlive) hv.2⟩
  spent v hv := ⟨hv.1, hW _ _ v v rfl rfl (fun h => absurd h.2 (Nat.not_lt_zero _)) hv.2⟩

def Left (Φ : ℕ → View → Prop) (Ψ : View → Prop) (f : ℕ) : Option OpId → View → Prop
  | none => Ψ
  | some _ => Φ f

section Drains
variable {Φ : ℕ → View → Prop} {Ψ : View → Prop} {e : MemoryEngine}

theorem DrainFacts.closedLeft (h : DrainFacts x i Φ Ψ) (f : ℕ) (r : Option OpId) :
    Closed x i (Left Φ Ψ f r) := by
  cases r with
  | none => exact h.closedEmpty
  | some _ => exact h.closed f

theorem DrainFacts.runOp (h : DrainFacts x i Φ Ψ) (hnames : e.vectorNames = ["hot"]) (f : ℕ)
    {row : OpRow} (hserved : Served row.operation) :
    Outline (May base x) i E
      (At base x fun v => Working i row.seq row.operation v ∧ Φ (f + 1) v)
      (runOp e.coordinator row) fun _ => At base x fun v => Ready i v ∧ Φ f v := by
  let op := row.operation
  have hworking := (closed_working (x := x) row.seq op).and (h.closed (f + 1))
  have happlied := (closed_applied (x := x) row.seq op).and (h.closed (f + 1))
  have hcall : callHandler e.coordinator op = invoke (makeHandler "hot") op := by
    have hhandler : e.coordinator.handlers "hot" = some (makeHandler "hot") :=
      if_pos (hnames ▸ List.mem_cons_self)
    unfold callHandler
    rw [hserved.1, Option.bind_some, hhandler]
  let M : Except String Acks → Shared → Prop := fun result m =>
    (∃ acks, result = .ok acks ∧ (op.targetIds.all fun rid => acks.get rid) = true) ∧
      At base x (fun v => Applied i row.seq op v ∧ Φ (f + 1) v) m
  have hinvoke : Outline (May base x) i E (At base x fun v => Working i row.seq op v ∧ Φ (f + 1) v)
      (invoke (makeHandler "hot") op) M := by
    refine Outline.performing (stable_at hworking) (fun m hm _ => ?_) fun result => ?_
    · obtain ⟨hsound, ⟨hheld, front, rest, hfront, hseq, hop, hrest⟩, hΦ⟩ := hm
      have hmay : May base x i m (.memory fun v => (makeHandler "hot" op v).2) :=
        may_writer (.handle hheld ⟨front, rest, hfront, hseq, hop⟩)
      refine ⟨hmay, served_acks hserved hsound.faults, hsound.commit hmay, ?_⟩
      rw [view_handle hsound]
      refine ⟨⟨⟨hheld, front, rest, hfront, hseq, hop, hrest⟩, fun id => ?_⟩, ?_⟩
      · exact presentAfter_again op id _
      · rw [← hop]
        exact h.handle _ _ front rest hfront hΦ
    · exact fun m j c hj hfree hc hm => ⟨hm.1, stable_at happlied m j c hj hfree hc hm.2⟩
  have hacks : ∀ acks : Acks, Outline (May base x) i E
      (At base x fun v => Applied i row.seq op v ∧ Φ (f + 1) v) (recordAcks op acks)
      fun _ => At base x fun v => Applied i row.seq op v ∧ Φ (f + 1) v := fun acks =>
    Outline.forM (I := fun _ => At base x fun v => Applied i row.seq op v ∧ Φ (f + 1) v)
      (fun rid _ => outline_unseen happlied fun m _ _ => ⟨may_writer (.ack _ _ _ _), rfl⟩)
      (stable_at happlied) _
  have hfinish : ∀ acks : Acks, Outline (May base x) i E
      (At base x fun v => Applied i row.seq op v ∧ Φ (f + 1) v) (commit (.finish row.seq acks .done))
      fun _ => At base x fun v => Ready i v ∧ Φ f v := by
    intro acks
    refine outline_commit happlied (closed_ready.and (h.closed f)) fun m hsound hv _ => ?_
    obtain ⟨⟨⟨hheld, front, rest, hfront, hseq, hop, hrest⟩, hdone⟩, hΦ⟩ := hv
    refine ⟨may_writer (.finish hheld ⟨front, rest, hfront, hseq, hop⟩ hdone acks), ?_⟩
    rw [← hseq, view_finish hfront]
    exact ⟨⟨hheld, hrest⟩, h.finish f _ front rest hfront (hop ▸ hdone) hΦ⟩
  unfold Coordinator.runOp
  dsimp only
  rw [hcall]
  refine hinvoke.bind fun result => ?_
  rintro m ⟨⟨acks, rfl, hall⟩, hm⟩
  dsimp only
  rw [if_pos hall]
  exact ((hacks acks).bind fun _ => hfinish acks) m hm

def Chosen (i : Party) (Φ : ℕ → View → Prop) (Ψ : View → Prop) (f : ℕ) (selected : Option OpRow)
    (v : View) : Prop :=
  match selected with
  | none => Ready i v ∧ Ψ v
  | some row => Working i row.seq row.operation v ∧ Φ (f + 1) v

theorem DrainFacts.chosen (h : DrainFacts x i Φ Ψ) {f : ℕ} {m : Shared} (hsound : Sound base m)
    (hready : Ready i (view x m)) (hΦ : Φ (f + 1) (view x m)) :
    (∀ row, (notDone m.state.db.opLog).head? = some row → Served row.operation) ∧
      Chosen i Φ Ψ f (notDone m.state.db.opLog).head? (view x m) := by
  have hwaiting : ∀ row ∈ notDone m.state.db.opLog, Waiting row := hready.2
  have hserved := hsound.served
  cases hlive : notDone m.state.db.opLog with
  | nil =>
    refine ⟨fun row hrow => ?_, hready, h.empty _ _ hlive hΦ⟩
    cases hrow
  | cons row rest =>
    rw [hlive] at hwaiting hserved
    refine ⟨fun r hr => ?_, ⟨hready.1, row, rest, hlive, rfl, rfl, fun r hr => ?_⟩, hΦ⟩
    · cases hr
      exact hserved row List.mem_cons_self
    · exact hwaiting r (List.mem_cons_of_mem _ hr)

theorem DrainFacts.applySelected (h : DrainFacts x i Φ Ψ) (hnames : e.vectorNames = ["hot"])
    (f : ℕ) (selected : Option OpRow) (hserved : ∀ row, selected = some row → Served row.operation) :
    Outline (May base x) i E (At base x (Chosen i Φ Ψ f selected))
      (applySelected e.coordinator selected)
      fun r => At base x fun v => Ready i v ∧ Left Φ Ψ f r v := by
  cases selected with
  | none =>
    exact Outline.pure (stable_at (closed_ready.and h.closedEmpty)) fun _ hm => hm
  | some row =>
    have hworking := (closed_working (x := x) (i := i) row.seq row.operation).and (h.closed (f + 1))
    have hstart : Outline (May base x) i E (At base x (Chosen i Φ Ψ f (some row)))
        (commit (.setOpState row.seq .inProgress))
        fun _ => At base x fun v => Working i row.seq row.operation v ∧ Φ (f + 1) v := by
      refine outline_commit hworking hworking fun m hsound hv _ => ?_
      obtain ⟨⟨hheld, front, rest, hfront, hseq, hop, hrest⟩, hΦ⟩ := hv
      refine ⟨may_writer (.start hheld ⟨front, rest, hfront, hseq, hop⟩), ?_⟩
      rw [← hseq, view_start hfront]
      exact ⟨⟨hheld, _, rest, rfl, rfl, hop, hrest⟩, h.start _ _ front rest _ hfront hΦ⟩
    refine hstart.bind fun _ => (h.runOp hnames f (hserved row rfl)).bind fun _ => ?_
    exact Outline.pure (stable_at (closed_ready.and (h.closed f))) fun _ hm => hm

theorem DrainFacts.applyNext (h : DrainFacts x i Φ Ψ) (hnames : e.vectorNames = ["hot"]) (f : ℕ) :
    Outline (May base x) i E (At base x (Φ (f + 1))) (applyNext e.coordinator)
      fun r => At base x (Left Φ Ψ f r) := by
  have hready := (closed_ready (x := x) (i := i)).and (h.closed (f + 1))
  have hacquire : Outline (May base x) i E (At base x (Φ (f + 1))) (commit .acquire)
      fun _ => At base x fun v => Ready i v ∧ Φ (f + 1) v := by
    refine outline_commit (h.closed (f + 1)) hready fun m hsound hv hfree => ?_
    have hholder : m.holder = none :=
      Option.not_isSome_iff_eq_none.mp (Bool.eq_false_iff.mp hfree)
    exact ⟨may_writer .acquire, ⟨rfl, hsound.free hholder⟩, h.lock _ _ (some i) hv⟩
  let M : Option OpRow → Shared → Prop := fun selected m =>
    (∀ row, selected = some row → Served row.operation) ∧ At base x (Chosen i Φ Ψ f selected) m
  have hchosen : ∀ selected, Closed x i (Chosen i Φ Ψ f selected) := fun selected => by
    cases selected with
    | none => exact closed_ready.and h.closedEmpty
    | some row => exact (closed_working row.seq row.operation).and (h.closed (f + 1))
  have hselect : ∀ now, Outline (May base x) i E (At base x fun v => Ready i v ∧ Φ (f + 1) v)
      (query fun db => selectEligible db.opLog now) M := by
    intro now
    refine Outline.read (stable_at hready) (fun m hm => ?_) fun selected => ?_
    · obtain ⟨hsound, hv, hΦ⟩ := hm
      change M (selectEligible m.state.db.opLog now) m
      have hwaiting : ∀ row ∈ notDone m.state.db.opLog, Waiting row := hv.2
      obtain ⟨hserved, hchoice⟩ := h.chosen hsound hv hΦ
      rw [selectEligible_waiting hwaiting]
      exact ⟨hserved, hsound, hchoice⟩
    · exact fun m j c hj hfree hc hm =>
        ⟨hm.1, stable_at (hchosen selected) m j c hj hfree hc hm.2⟩
  have hrelease : ∀ r, Outline (May base x) i E (At base x fun v => Ready i v ∧ Left Φ Ψ f r v)
      (commit .release) fun _ => At base x (Left Φ Ψ f r) := by
    intro r
    refine outline_commit (closed_ready.and (h.closedLeft f r)) (h.closedLeft f r)
      fun m _ hv _ => ⟨may_writer (.release hv.1.1 hv.1.2), ?_⟩
    cases r with
    | none => exact h.lockEmpty _ none hv.2
    | some _ => exact h.lock _ _ none hv.2
  refine hacquire.bind fun _ => (outline_clock hready).bind fun now => ?_
  refine (hselect now).bind fun selected => ?_
  rintro m ⟨hserved, hm⟩
  refine ((h.applySelected hnames f selected hserved).bind fun r => ?_) m hm
  exact (hrelease r).bind fun _ => Outline.pure (stable_at (h.closedLeft f r)) fun _ hm => hm

theorem DrainFacts.drain (h : DrainFacts x i Φ Ψ) (hnames : e.vectorNames = ["hot"]) (f : ℕ) :
    Outline (May base x) i E (At base x (Φ f)) (drain e.coordinator f) fun _ => At base x Ψ := by
  induction f with
  | zero =>
    exact Outline.pure (stable_at h.closedEmpty) fun m hm => ⟨hm.1, h.spent _ hm.2⟩
  | succ f ih =>
    refine (h.applyNext hnames f).bind fun r => ?_
    cases r with
    | none => exact Outline.pure (stable_at h.closedEmpty) fun _ hm => hm
    | some _ => exact ih.bind fun _ => Outline.pure (stable_at h.closedEmpty) fun _ hm => hm

end Drains
end StrataMemory.SharedQueue
