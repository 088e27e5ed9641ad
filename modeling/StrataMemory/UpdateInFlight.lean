import StrataMemory.SharedQueue

set_option autoImplicit false

/-! The thread that updates: it writes the row, the posting and the upsert in this order,
each once, or it finds no row. -/
namespace StrataMemory.UpdateInFlight
open KeyedTables Records Tables Procedures Worlds Coordinator
open Engine Gateway Interleavings SharedViews SharedQueue

variable {base : OpId} {x : RecordId}

def Count (k : ℕ) (v : View) : Prop := v.contents = k

def Unanswered (F : View → Prop) (v : View) : Prop := v.removed = false → F v

/-- The update has written nothing, or everything, and then `x` is in the store unless
a removal has been queued since. -/
def Over (x : RecordId) (v : View) : Prop :=
  (v.contents = 0 ∨ v.contents = 3) ∧ Unanswered (Settled [x] true) v

theorem closed_count (k : ℕ) : Closed x .update (Count k) := fun _ _ hvu hv => hvu.1.trans hv

theorem closed_unanswered {F : View → Prop} (hqueue : ∀ v u, QueueMove v u → F v → F u)
    (hsame : ∀ v u, u.live = v.live → u.present = v.present → F v → F u) :
    Closed x .update (Unanswered F) := by
  intro v u hvu hv hremoved
  obtain ⟨hbefore, hquiet⟩ := hvu.2.2 hremoved
  rcases hquiet with ⟨hlive, hpresent⟩ | hmove
  · exact hsame v u hlive hpresent (hv hbefore)
  · exact hqueue v u hmove (hv hbefore)

theorem closed_settles (f : ℕ) : Closed x .update (Unanswered (Settles [x] true f)) := by
  refine closed_unanswered (fun _ _ hvu h => h.queue hvu) fun v u hlive hpresent h => ?_
  unfold Settles
  rw [hlive, hpresent]
  exact h

theorem closed_settled : Closed x .update (Unanswered (Settled [x] true)) := by
  refine closed_unanswered (fun _ _ hvu h => h.queue hvu) fun v u hlive hpresent h => ?_
  unfold Settled
  rw [hlive, hpresent]
  exact h

theorem closed_over : Closed x .update (Over x) := fun v u hvu hv => by
  refine ⟨?_, closed_settled v u hvu hv.2⟩
  rw [hvu.1]
  exact hv.1

abbrev UpdateOutline {α : Type} (base : OpId) (x : RecordId) (P : Shared → Prop)
    (p : Prog Memory α) (Q : α → Shared → Prop) : Prop :=
  Outline (May base x) .update (At base x (Over x)) P p Q

theorem update_removePostings :
    UpdateOutline base x (At base x (Count 0)) (CanonicalStore.removePostings [x])
      fun _ => At base x (Count 0) :=
  outline_commit (closed_count 0) (closed_count 0) fun _ _ hv _ => ⟨UpdateStep.unpost, hv⟩

theorem update_withContent (p : Platform) (old : MemoryRecord) (text : String) (hold : old.id = x) :
    UpdateOutline base x (At base x (Count 0)) (CanonicalStore.withContent p old text)
      fun updated m => updated.id = x ∧ At base x (Count 0) m := by
  refine (outline_clock (closed_count 0)).bind fun now => ?_
  exact Outline.pure (stable_given (stable_at (closed_count 0))) fun m hm => ⟨hold, hm⟩

theorem update_write {r : MemoryRecord} (hr : r.id = x) :
    UpdateOutline base x (At base x (Count 0)) (CanonicalStore.write r)
      fun written m => written.id = x ∧ At base x (Count 1) m := by
  have hstable : ∀ written : MemoryRecord, Stable (May base x) .update
      fun m => written.id = x ∧ At base x (Count 1) m := fun _ =>
    stable_given (stable_at (closed_count 1))
  have hwrite : UpdateOutline base x (At base x (Count 0)) (commit (.write r))
      fun _ => At base x (Count 1) :=
    outline_commit (closed_count 0) (closed_count 1) fun m _ hv _ =>
      ⟨UpdateStep.write hr hv, congrArg (· + 1) hv⟩
  refine hwrite.bind fun _ => Outline.bind (M := fun found m =>
    (found.getD r).id = x ∧ At base x (Count 1) m) (Outline.read (stable_at (closed_count 1))
      (fun m hm => ⟨?_, hm⟩) fun found => hstable (found.getD r)) fun found => ?_
  · change ((m.state.db.readOne r.id).getD r).id = x
    cases hrow : m.state.db.readOne r.id with
    | none => exact hr
    | some row => exact (Db.readOne_id hrow).trans hr
  · exact Outline.pure (hstable _) fun _ hm => hm

theorem update_index {r : MemoryRecord} (hr : r.id = x) :
    UpdateOutline base x (At base x (Count 1)) (CanonicalStore.index r)
      fun _ => At base x (Count 2) := by
  subst hr
  exact outline_commit (closed_count 1) (closed_count 2) fun m _ hv _ =>
    ⟨UpdateStep.post _ hv, congrArg (· + 1) hv⟩

theorem update_enqueue {e : MemoryEngine} (hnames : e.vectorNames = ["hot"]) {r : MemoryRecord}
    (hr : r.id = x) (generation : ℤ) :
    UpdateOutline base x (At base x (Count 2)) (e.enqueueVectorUpsert r generation)
      fun _ => At base x fun v => Count 3 v ∧ Unanswered (Settles [x] true maxSteps) v := by
  subst hr
  have hcount := closed_count (x := r.id) 2
  have hqueued := (closed_count (x := r.id) 3).and (closed_settles maxSteps)
  have hdone : UpdateOutline base r.id
      (At base r.id fun v => Count 3 v ∧ Unanswered (Settles [r.id] true maxSteps) v)
      (pure () : Prog Memory Unit)
      fun _ => At base r.id fun v => Count 3 v ∧ Unanswered (Settles [r.id] true maxSteps) v :=
    Outline.pure (stable_at hqueued) fun _ hm => hm
  refine Outline.bind (M := fun _ => At base r.id (Count 2))
    (Outline.read (stable_at hcount) (fun _ hm => hm) fun _ => stable_at hcount) fun embedder => ?_
  unfold MemoryEngine.enqueueUpserts
  rw [hnames]
  let op : OpId → Operation := fun a => ⟨.upsertIndex, [r.id], some "hot",
    some [MemoryEngine.vectorRecord embedder r generation], some generation, a⟩
  have hserved : ∀ a, Served (op a) := fun a => by
    refine ⟨rfl, .inr ⟨rfl, fun id hid => ⟨_, List.mem_singleton.mpr rfl, ?_⟩⟩⟩
    exact (List.mem_singleton.mp hid).symm
  have hqueue : ∀ a, UpdateOutline base r.id (fun m => Drawn base .update (op a).opId m ∧
      At base r.id (Count 2) m) (enqueue (op a))
      fun _ => At base r.id fun v => Count 3 v ∧ Unanswered (Settles [r.id] true maxSteps) v := by
    refine fun a => outline_enqueue (op a) hcount hqueued fun m hsound hdrawn hv => ?_
    have hroom := hsound.room
    have hfew := hsound.few
    refine ⟨UpdateStep.enqueue hv (hserved a) hdrawn, congrArg (· + 1) hv, fun _ => ?_⟩
    unfold Settles
    rw [show (view r.id (m.commit .update (.enqueue (op a)))).live = _ from
      PendingRows.notDone_append hdrawn.unused]
    refine ⟨fun id hid => ?_, ?_⟩
    · cases List.mem_singleton.mp hid
      rw [outcome_concat]
      change (([MemoryEngine.vectorRecord embedder r generation].any fun rec => rec.id = r.id) ||
        _) = true
      simp [MemoryEngine.vectorRecord]
    · have hcontents : contents m.history = 2 := hv
      rw [List.length_append, List.length_singleton]
      omega
  refine Outline.bind (M := fun _ => At base r.id fun v => Count 3 v ∧
    Unanswered (Settles [r.id] true maxSteps) v) ?_ fun _ => hdone
  exact (outline_draw hcount).bind fun a => (hqueue a).bind fun _ => hdone

theorem update_drain {e : MemoryEngine} (hnames : e.vectorNames = ["hot"]) :
    UpdateOutline base x
      (At base x fun v => Count 3 v ∧ Unanswered (Settles [x] true maxSteps) v)
      (runUntilIdle e.coordinator)
      fun _ => At base x fun v => Count 3 v ∧ Unanswered (Settled [x] true) v := by
  have hfacts : DrainFacts x .update
      (fun f v => Count 3 v ∧ Unanswered (Settles [x] true f) v)
      fun v => Count 3 v ∧ Unanswered (Settled [x] true) v :=
    drainFacts_settles (closed_count 3) (fun _ _ hvu hv => hvu.contents_eq.trans hv)
      (fun _ _ _ _ _ heq hFG hv hremoved => hFG (hv (heq.symm.trans hremoved)))
      closed_settles closed_settled
  exact hfacts.drain hnames maxSteps

theorem update_writeMemory {e : MemoryEngine} (hnames : e.vectorNames = ["hot"])
    {r : MemoryRecord} (hr : r.id = x) :
    UpdateOutline base x (At base x (Count 0)) (e.writeMemory r) fun _ => At base x (Over x) := by
  refine Outline.bind (M := fun _ => At base x (Count 0)) (Outline.read (stable_at (closed_count 0))
    (fun _ hm => hm) fun _ => stable_at (closed_count 0)) fun active => ?_
  refine (update_write hr).bind fun written => Outline.given fun hwritten => ?_
  refine (update_index hwritten).bind fun _ => ?_
  refine (update_enqueue hnames hwritten _).bind fun _ => ?_
  refine (update_drain hnames).bind fun _ => ?_
  exact Outline.pure (stable_at closed_over) fun _ hm => ⟨hm.1, .inr hm.2.1, hm.2.2⟩

theorem update_outline {s : Strata} (hnames : s.engine.vectorNames = ["hot"]) (content : String) :
    UpdateOutline base x (At base x (Count 0)) (discard (s.updateMemory x (some content)))
      fun _ => At base x (Over x) := by
  have hover : Stable (May base x) .update (At base x (Over x)) := stable_at closed_over
  have hzero : ∀ m, At base x (Count 0) m → At base x (Over x) m := by
    refine fun m hm => ⟨hm.1, .inl hm.2, fun hremoved => ?_⟩
    have hthree := hm.1.late hremoved
    rw [show contents m.history = 0 from hm.2] at hthree
    cases hthree
  have hread : UpdateOutline base x (At base x (Count 0)) (CanonicalStore.readOne x)
      fun found m => (∀ old, found = some old → old.id = x) ∧ At base x (Count 0) m :=
    Outline.read (stable_at (closed_count 0)) (fun m hm => ⟨fun _ hold => Db.readOne_id hold, hm⟩)
      fun _ => stable_given (stable_at (closed_count 0))
  have hfail : ∀ (e : PyError), UpdateOutline base x (At base x (Over x))
      (raise e : Prog Memory MemoryRecord) fun _ => At base x (Over x) := fun e =>
    Outline.fail hover
  have hsummary : UpdateOutline base x (At base x (Over x)) (summary x)
      fun _ => At base x (Over x) := by
    refine Outline.bind (M := fun _ => At base x (Over x)) (Outline.read hover (fun _ hm => hm)
      fun _ => hover) fun found => ?_
    cases found with
    | none => exact hfail _
    | some r => exact Outline.pure hover fun _ hm => hm
  have hupdate : UpdateOutline base x (At base x (Count 0)) (s.updateMemory x (some content))
      fun _ => At base x (Over x) := by
    refine hread.bind fun found => Outline.given fun hid => ?_
    cases found with
    | none => exact (hfail .keyError).weaken hzero
    | some old =>
      refine update_removePostings.bind fun _ => ?_
      refine (update_withContent _ old content (hid old rfl)).bind fun updated =>
        Outline.given fun hupdated => ?_
      exact (update_writeMemory hnames hupdated).bind fun _ => hsummary
  exact hupdate.bind fun _ => Outline.pure hover fun _ hm => hm

end StrataMemory.UpdateInFlight
