import StrataMemory.IndexAgreement

set_option autoImplicit false

namespace StrataMemory.SettledFlows
open KeyedTables Records Tables Procedures Worlds CommitEffects Coordinator CoordinatorRuns
open SurfaceRounds CanonicalStore ManagedSurfaces DeletionFlows DeletionMachine DeletionInvariants FlowInvariants
open Reorderings StoreRefinement WaitingQueue IndexAgreement VectorStore Engine Gateway NodeRuns

section Units
variable {e : MemoryEngine} {P : RecordId → Prop} {V : String → RecordId → Prop}
  {w t : World Memory}

theorem Agrees.removal (h : Agrees e P V w) {op : Operation} (hop : op.opType = .removeIndex)
    {name : String} (htarget : op.target = some name) (hqueued : Queued e op w t) :
    Agrees e P V t where
  ready := hqueued.ready
  posting := by
    rw [textOf_same hqueued.tables.canonical, hqueued.tables.postings]
    exact h.posting
  vector := by
    rw [textOf_same hqueued.tables.canonical, hqueued.tables.generation, hqueued.pending]
    exact h.vector.remove hop htarget

theorem served_removal {name : String} (hname : name ∈ e.vectorNames) (ids : List RecordId)
    (opId : OpId) : Served e ⟨.removeIndex, ids, some name, none, none, opId⟩ := by
  refine ⟨⟨.inr rfl, fun htype => ?_⟩, name, hname, rfl⟩
  cases htype

theorem level_removePostings (texts : Texts) (ids : List RecordId) :
    (CanonicalStore.removePostings ids : Prog Memory Unit).Preserves fun w =>
      Level e P V w ∧ textOf w.db = texts := by
  unfold CanonicalStore.removePostings
  split
  · exact Proc.Preserves.pure _
  · refine Proc.Preserves.perform fun w hw => ⟨?_, hw.2⟩
    refine hw.1.recede ⟨rfl, Nat.le_refl _, rfl, rfl⟩ rfl (fun _ _ h => h) fun id x hx => ?_
    have hx' : (w.db.postings.eraseAll ids).get? id = some x := hx
    rw [Table.get?_eraseAll] at hx'
    split at hx'
    · cases hx'
    · exact hx'

theorem level_remove (texts : Texts) (ids : List RecordId) : ∀ s ∈ e.registry,
    (s.remove ids).Preserves fun w => Level e P V w ∧ textOf w.db = texts := by
  intro s hs
  rcases List.mem_append.mp hs with hs | hs
  · rcases List.mem_cons.mp hs with rfl | hs
    · exact (level_removePostings texts ids).bind fun _ => Proc.Preserves.read _
    · obtain ⟨name, hname, rfl⟩ := List.mem_map.mp hs
      intro w hw
      let op : Operation := ⟨.removeIndex, ids, some name, none, none, w.operationIds⟩
      let queued := apply (.enqueue op) (apply .newOperationId w)
      have hqueued : Queued e op w queued := queued_fresh hw.1.ready (served_removal hname ids _) rfl
      have hdrained := drain_ready hqueued.ready maxSteps
      have hbacklog : backlog queued ≤ maxSteps := by
        rw [hqueued.backlog, hw.1.idle]
        decide
      change Level e P V (Proc.final (ManagedSurface.remove _ ids) w) ∧ textOf _ = _
      rw [MemoryEngine.vectorSurface, coordinated_remove_final]
      refine ⟨(Agrees.removal hw.1.toAgrees rfl rfl hqueued).advance hbacklog hdrained, ?_⟩
      rw [textOf_same hdrained.tables.canonical]
      exact hw.2
  · cases List.mem_singleton.mp hs
    refine Proc.Preserves.bind (Proc.Preserves.perform fun w hw => ⟨?_, hw.2⟩) fun _ =>
      Proc.Preserves.read _
    exact hw.1.recede ⟨rfl, Nat.le_refl _, rfl, rfl⟩ rfl (fun _ _ h => h) fun _ _ h => h

theorem level_purge (texts : Texts) (ids : List RecordId) :
    (purge e.registry ids).Preserves fun w => Level e P V w ∧ textOf w.db = texts :=
  preserves_purgeInto (level_remove texts ids) ∅

/-- The body of the loop of `_enqueue_vector_upsert`. -/
def upsertInto (embedder : Embedder) (r : MemoryRecord) (generation : ℤ) (name : String) :
    Prog Memory Unit := do
  let opId ← newOperationId
  let _ ← enqueue ⟨.upsertIndex, [r.id], some name,
    some [MemoryEngine.vectorRecord embedder r generation], some generation, opId⟩

theorem Agrees.upsert (h : Agrees e P V w) (embedder : Embedder) {r : MemoryRecord}
    (hrow : textOf w.db r.id = some (r.content, r.contentHash)) {name : String} {opId : OpId}
    (hqueued : Queued e ⟨.upsertIndex, [r.id], some name,
      some [MemoryEngine.vectorRecord embedder r w.memory.activeGeneration],
      some w.memory.activeGeneration, opId⟩ w t) :
    Agrees e P (fun other id => V other id ∧ ¬ (other = name ∧ id = r.id)) t where
  ready := hqueued.ready
  posting := by
    rw [textOf_same hqueued.tables.canonical, hqueued.tables.postings]
    exact h.posting
  vector := by
    rw [textOf_same hqueued.tables.canonical, hqueued.tables.generation, hqueued.pending]
    let rec_ := MemoryEngine.vectorRecord embedder r w.memory.activeGeneration
    have hrow' : textOf w.db rec_.id = some (r.content, r.contentHash) := hrow
    exact h.vector.upsert rfl rfl rfl rfl hrow' rfl

theorem upserts_queued (embedder : Embedder) {r : MemoryRecord} {names : List String}
    (hnames : ∀ name ∈ names, name ∈ e.vectorNames) (h : Agrees e P V w)
    (hrow : textOf w.db r.id = some (r.content, r.contentHash)) :
    let u := (names.forM (upsertInto embedder r w.memory.activeGeneration)).final w
    Agrees e P (fun name id => V name id ∧ ¬ (name ∈ names ∧ id = r.id)) u ∧
      backlog u = backlog w + names.length ∧ SameTables w u := by
  induction names generalizing w V with
  | nil =>
    refine ⟨⟨h.ready, h.posting, fun name id hid => ?_⟩, rfl, .refl w⟩
    exact h.vector name id fun hv => hid ⟨hv, fun hmem => absurd hmem.1 List.not_mem_nil⟩
  | cons name names ih =>
    let op : Operation := ⟨.upsertIndex, [r.id], some name,
      some [MemoryEngine.vectorRecord embedder r w.memory.activeGeneration],
      some w.memory.activeGeneration, w.operationIds⟩
    let v := apply (.enqueue op) (apply .newOperationId w)
    have hserved : Served e op :=
      ⟨⟨.inl rfl, fun _ _ => Iff.rfl⟩, name, hnames name List.mem_cons_self, rfl⟩
    have hqueued : Queued e op w v := queued_fresh h.ready hserved rfl
    have hv := Agrees.upsert h embedder hrow hqueued
    have hrow' : textOf v.db r.id = some (r.content, r.contentHash) := hrow
    obtain ⟨hu, hbacklog, htables⟩ := ih (fun n hn => hnames n (List.mem_cons_of_mem _ hn)) hv hrow'
    refine ⟨⟨hu.ready, hu.posting, fun other id hid => ?_⟩, ?_, hqueued.tables.trans htables⟩
    · refine hu.vector other id fun hkept => hid ⟨hkept.1.1, fun hmem => ?_⟩
      rcases List.mem_cons.mp hmem.1 with hname | hname
      · exact hkept.1.2 ⟨hname, hmem.2⟩
      · exact hkept.2 ⟨hname, hmem.2⟩
    · refine hbacklog.trans ?_
      rw [hqueued.backlog, List.length_cons]
      omega

theorem enqueueUpserts_returns (e : MemoryEngine) (embedder : Embedder) (r : MemoryRecord)
    (generation : ℤ) : (e.enqueueUpserts embedder r generation).Returns :=
  Proc.Returns.forM _ _ fun _ _ => (Proc.Returns.performing _ _).bind fun _ =>
    ((Proc.Returns.perform _).bind fun _ => Proc.Returns.pure _).bind fun _ => Proc.Returns.pure _

theorem upserts_run (e : MemoryEngine) (r : MemoryRecord) (generation : ℤ) (w : World Memory) :
    (e.enqueueVectorUpsert r generation).run w = (.ok (),
      (e.vectorNames.forM (upsertInto w.memory.embedder r generation)).final w) := by
  obtain ⟨_, hrun⟩ := (enqueueUpserts_returns e w.memory.embedder r generation).run w
  exact hrun

theorem level_upsert (hstores : e.vectorNames.length ≤ maxSteps) {r : MemoryRecord} {id : RecordId}
    (hid : r.id = id) (h : Level e P (fun name x => name ∉ e.vectorNames ∨ x = id) w)
    (hrow : textOf w.db r.id = some (r.content, r.contentHash)) :
    Level e P (fun name _ => name ∉ e.vectorNames)
      ((e.enqueueVectorUpsert r w.memory.activeGeneration >>= fun _ =>
        runUntilIdle e.coordinator >>= fun _ => pure r : Prog Memory MemoryRecord).final w) := by
  obtain ⟨hu, hbacklog, _⟩ :=
    upserts_queued w.memory.embedder (fun _ hname => hname) h.toAgrees hrow
  let u := (e.vectorNames.forM (upsertInto w.memory.embedder r w.memory.activeGeneration)).final w
  rw [Proc.final_bind_ok (upserts_run e r _ w), Proc.final_bind_pure, runUntilIdle]
  have hlevel : Agrees e P (fun name _ => name ∉ e.vectorNames) u := by
    refine ⟨hu.ready, hu.posting, fun name x hname => hu.vector name x ?_⟩
    rintro ⟨hout | hx, hmem⟩
    · exact hname hout
    · exact hmem ⟨not_not.mp hname, hx.trans hid.symm⟩
  exact hlevel.advance (by rw [hbacklog, h.idle]; omega) (drain_ready hu.ready maxSteps)

theorem settled_upsert (hstores : e.vectorNames.length ≤ maxSteps) {r : MemoryRecord} {id : RecordId}
    (hid : r.id = id)
    (h : Level e (fun x => x = id ∧ x ≠ r.id) (fun name x => name ∉ e.vectorNames ∨ x = id) w)
    (hrow : textOf w.db r.id = some (r.content, r.contentHash)) :
    Settled e ((e.enqueueVectorUpsert r w.memory.activeGeneration >>= fun _ =>
      runUntilIdle e.coordinator >>= fun _ => pure r : Prog Memory MemoryRecord).final w) where
  toAgrees := by
    have hlevel := level_upsert hstores hid h hrow
    refine ⟨hlevel.ready, fun x _ => hlevel.posting x ?_, hlevel.vector⟩
    rintro ⟨hx, hne⟩
    exact hne (hx.trans hid.symm)
  idle := (level_upsert hstores hid h hrow).idle

end Units

section Flows
variable {s : Strata}

theorem settled_of_same {e : MemoryEngine} {w t : World Memory} (hw : Settled e w)
    (hqueue : SameQueue w t) (htables : SameTables w t) : Settled e t := by
  refine hw.recede hqueue htables.generation ?_ ?_
  · rw [textOf_same htables.canonical]
    exact fun _ _ h => h
  · rw [htables.postings]
    exact fun _ _ h => h

theorem settled_writeRecord (hstores : s.engine.vectorNames.length ≤ maxSteps) (r : MemoryRecord) :
    (s.engine.writeMemory r none).Preserves (Settled s.engine) := by
  intro w hw
  obtain ⟨written, hwrite, hrow, hid⟩ := write_run r w
  have hindex : (index written : Prog Memory Unit).run (apply (.write r) w) =
      (.ok (), apply (.indexPosting written.id written.content) (apply (.write r) w)) := rfl
  have hposted := (hw.write r).index (textOf_row hrow)
  unfold MemoryEngine.writeMemory
  rw [Proc.final_bind_ok (Proc.run_read _ w), Proc.final_bind_ok hwrite, Proc.final_bind_ok hindex]
  exact settled_upsert hstores hid hposted (textOf_row hrow)

theorem level_setStatus {e : MemoryEngine} {P : RecordId → Prop} {V : String → RecordId → Prop}
    (texts : Texts) (id : RecordId) (status : Status) :
    (CanonicalStore.setStatus id status : Prog Memory Unit).Preserves fun w =>
      Level e P V w ∧ textOf w.db = texts := by
  refine Proc.Preserves.perform fun w hw => ?_
  have htexts := textOf_setStatus id status w
  refine ⟨hw.1.recede ⟨rfl, Nat.le_refl _, rfl, rfl⟩ rfl ?_ fun _ _ h => h, htexts.trans hw.2⟩
  intro x text hx
  exact htexts ▸ hx

theorem level_addDependency {e : MemoryEngine} {P : RecordId → Prop} {V : String → RecordId → Prop}
    (texts : Texts) (parentId childId : RecordId) (rel : Relation) :
    (CanonicalStore.addDependency parentId childId rel : Prog Memory Unit).Preserves fun w =>
      Level e P V w ∧ textOf w.db = texts := by
  refine preserves_addDependency fun w hw => ?_
  have htexts := textOf_addDependency parentId childId rel w
  refine ⟨hw.1.recede ⟨rfl, Nat.le_refl _, rfl, rfl⟩ rfl ?_ fun _ _ h => h, htexts.trans hw.2⟩
  intro x text hx
  exact htexts ▸ hx

theorem settled_correct (hstores : s.engine.vectorNames.length ≤ maxSteps) {oldId : RecordId}
    {r written : MemoryRecord} {relation : Relation} {w u : World Memory}
    (h : (s.engine.correct oldId r relation).run w = (.ok written, u)) (hw : Settled s.engine w) :
    Settled s.engine u := by
  obtain ⟨new, hwrite, hrow, hid⟩ := write_run r w
  have htext := textOf_row hrow
  obtain ⟨found, v, hflow, h⟩ := Proc.of_bind_ok h
  unfold DeletionFlows.correct at hflow
  rw [Proc.run_bind_ok hwrite] at hflow
  obtain ⟨_, v₁, hstatus, hflow⟩ := Proc.of_bind_ok hflow
  obtain ⟨_, v₂, hedge, hflow⟩ := Proc.of_bind_ok hflow
  obtain ⟨_, v₃, hindex, hflow⟩ := Proc.of_bind_ok hflow
  obtain ⟨_, v₄, hpurge, hflow⟩ := Proc.of_bind_ok hflow
  cases hflow
  cases hindex
  have h₁ := (level_setStatus _ _ _).run hstatus ⟨hw.write r, rfl⟩
  have h₂ := (level_addDependency _ _ _ _).run hedge h₁
  rw [← h₂.2] at htext
  have h₄ := (level_purge _ [oldId]).run hpurge ⟨h₂.1.index htext, rfl⟩
  have hrow₄ : textOf v.db new.id = some (new.content, new.contentHash) := by
    rw [h₄.2]
    exact htext
  obtain ⟨_, _, hactive, h⟩ := Proc.of_bind_ok h
  cases hactive
  rw [← Proc.final_of_run h]
  exact settled_upsert hstores hid h₄.1 hrow₄

theorem settled_of_level {e : MemoryEngine} {α : Type} {p : Prog Memory α}
    (h : ∀ texts, p.Preserves fun w => Settled e w ∧ textOf w.db = texts) :
    p.Preserves (Settled e) :=
  fun w hw => (h _ w ⟨hw, rfl⟩).1

theorem settled_create (p : Platform) (content : String) (fields : Fields) :
    (create p content fields : Prog Memory MemoryRecord).Preserves (Settled s.engine) :=
  create_preserves
    (Proc.Preserves.performing _ fun _ hw =>
      settled_of_same hw ⟨rfl, Nat.le_refl _, rfl, rfl⟩ ⟨rfl, rfl, rfl⟩)
    (Proc.Preserves.performing _ fun _ hw =>
      settled_of_same hw ⟨rfl, Nat.le_refl _, rfl, rfl⟩ ⟨rfl, rfl, rfl⟩) p content fields

theorem settled_updateMemory (hstores : s.engine.vectorNames.length ≤ maxSteps)
    (recordId : RecordId) (content : Option String) (status : Option Status) :
    (s.updateMemory recordId content status).Preserves (Settled s.engine) := by
  have hsummary := FlowInvariant.summary (Settled s.engine) recordId
  refine Proc.Preserves.bind (Proc.Preserves.read _) fun found => ?_
  cases found with
  | none => exact fun _ hw => hw
  | some old =>
    cases content with
    | none =>
      cases status with
      | none => exact hsummary
      | some st => exact (settled_of_level fun texts => level_setStatus texts _ _).bind fun _ => hsummary
    | some text =>
      refine (settled_of_level fun texts => level_removePostings texts [recordId]).bind fun _ => ?_
      refine Proc.Preserves.bind ?_ fun updated => ?_
      · refine Proc.Preserves.bind (Proc.Preserves.performing _ fun w hw => ?_) fun _ =>
          Proc.Preserves.pure _
        exact settled_of_same hw ⟨rfl, Nat.le_refl _, rfl, rfl⟩ ⟨rfl, rfl, rfl⟩
      · exact (settled_writeRecord hstores updated).bind fun _ => hsummary

theorem settled_deletion {jobId : OpId} {ids : List RecordId} {mode : DeletionMode} :
    DeletionInvariant s.engine.deletion jobId ids mode (Settled s.engine) where
  clock _ hw := settled_of_same hw ⟨rfl, Nat.le_refl _, rfl, rfl⟩ ⟨rfl, rfl, rfl⟩
  mark _ _ _ _ _ hw := settled_of_same hw ⟨rfl, Nat.le_refl _, rfl, rfl⟩ ⟨rfl, rfl, rfl⟩
  ack _ _ _ _ hw := settled_of_same hw ⟨rfl, Nat.le_refl _, rfl, rfl⟩ ⟨rfl, rfl, rfl⟩
  erase _ _ _ _ hw :=
    hw.recede ⟨rfl, Nat.le_refl _, rfl, rfl⟩ rfl (fun _ _ => textOf_hardDelete) fun _ _ h => h
  rebuild _ _ hw := hw.rebuild
  remove t ht := settled_of_level fun texts => level_remove texts ids t ht
  absent := preserves_absent _ _

theorem settled_requestDeletion (recordId : RecordId) (mode : DeletionMode)
    (includeDependents : Bool) :
    (requestDeletion s.engine.deletion recordId mode includeDependents).Preserves
      (Settled s.engine) := by
  intro w hw
  refine requestDeletion_keeps ?_ (fun id _ t ht => ?_) settled_deletion
  · exact settled_of_same hw ⟨rfl, Nat.le_succ _, rfl, rfl⟩ ⟨rfl, rfl, rfl⟩
  · refine ht.recede ⟨rfl, Nat.le_refl _, rfl, rfl⟩ rfl (fun x text hx => ?_) fun _ _ h => h
    exact textOf_tombstone id mode _ _ t ▸ hx

theorem settled_reflection : ReflectionInvariant s (Settled s.engine) where
  draw := Proc.Preserves.performing _ fun _ hw =>
    settled_of_same hw ⟨rfl, Nat.le_succ _, rfl, rfl⟩ ⟨rfl, rfl, rfl⟩
  setStatus _ _ := settled_of_level fun texts => level_setStatus texts _ _
  addDependency _ _ _ := settled_of_level fun texts => level_addDependency texts _ _ _
  purge ids := settled_of_level fun texts => level_purge texts ids
  propose _ := Proc.Preserves.perform fun _ hw =>
    settled_of_same hw ⟨rfl, Nat.le_refl _, rfl, rfl⟩ ⟨rfl, rfl, rfl⟩

theorem settled_started {e : MemoryEngine} {w : World Memory} (h : Started w)
    (hfaults : ∀ n, w.memory.faults n = false) : Settled e w := by
  have hrow : ∀ id, textOf w.db id = none := fun id => by rw [h.db]; rfl
  have hlog : w.db.opLog = .empty := congrArg Db.opLog h.db
  refine ⟨⟨⟨?_, ?_, hfaults⟩, fun id _ text posted htext _ => ?_, fun name id _ text rec htext => ?_⟩, ?_⟩
  · rw [hlog]
    exact fun _ hrow => absurd hrow List.not_mem_nil
  · rw [hlog]
    exact fun _ hrow => absurd hrow List.not_mem_nil
  · cases (hrow id).symm.trans htext
  · cases (hrow id).symm.trans htext
  · unfold backlog
    rw [hlog]
    rfl

theorem recover_idle {w : World Memory} (h : backlog w = 0) :
    (apply .recover w).db.opLog = w.db.opLog := by
  have hrows : notDone w.db.opLog = [] := List.length_eq_zero_iff.mp h
  refine Applications.log_ext ?_ rfl
  refine (List.map_congr_left fun row hrow => if_neg ?_).trans (List.map_id _)
  intro hstate
  have hlive : row.isLive = true := by
    simp [OpRow.isLive, OpState.isLive, of_decide_eq_true hstate]
  have hmem : row ∈ notDone w.db.opLog := List.mem_filter.mpr ⟨hrow, hlive⟩
  rw [hrows] at hmem
  cases hmem

theorem settled_openWith {e : MemoryEngine} (embedder : Embedder) (custom : Bool) :
    (Strata.openWith embedder custom).Preserves (Settled e) := by
  refine Proc.Preserves.bind (Proc.Preserves.perform fun w hw => ?_) fun _ => ?_
  · refine ⟨⟨⟨hw.ready.waiting, hw.ready.fresh, hw.ready.faultless⟩, hw.posting, ?_⟩, hw.idle⟩
    let u : World Memory := { w with memory :=
      ⟨∅, ∅, ∅, embedder, if custom then 2 else 1, w.memory.faults, w.memory.calls⟩ }
    have hpending : pending u = storesOf u.memory := pending_idle (w := u) hw.idle
    change VectorsAgree _ _ _ (pending u)
    rw [hpending]
    intro name id _ text rec _ hentry
    cases hentry
  refine Proc.Preserves.bind (Proc.Preserves.perform fun w hw => ?_) fun _ => ?_
  · exact settled_of_same hw ⟨recover_idle hw.idle, Nat.le_refl _, rfl, rfl⟩ ⟨rfl, rfl, rfl⟩
  · refine Proc.Preserves.perform fun w hw => ?_
    obtain ⟨hlog, hcanonical, hpostings⟩ := registerGeneration_kept _ embedder.modelId .active w
    exact settled_of_same hw ⟨hlog, Nat.le_refl _, rfl, rfl⟩ ⟨hcanonical, hpostings, rfl⟩

def isGatewayOperation : Call → Bool
  | .openWith .. | .writeEvent .. | .writeMemory .. | .updateMemory .. | .supersedeMemory ..
  | .linkSource .. | .requestDeletion .. | .consolidate | .contradictionAudit | .applyProposal _
  | .rejectProposal _ => true
  | _ => false

def Returned (s : Strata) (w : World Memory) (c : Call) : Prop :=
  ((execute s c).run w).1.isOk = true

instance (s : Strata) (w : World Memory) (c : Call) : Decidable (Returned s w c) :=
  inferInstanceAs (Decidable (_ = true))

def AllReturned (s : Strata) : World Memory → List Call → Prop
  | _, [] => True
  | w, c :: calls => Returned s w c ∧ AllReturned s (after s w c) calls

theorem settled_call (hstores : s.engine.vectorNames.length ≤ maxSteps) {w : World Memory} {c : Call}
    (hc : isGatewayOperation c = true) (hreturned : Returned s w c) (hw : Settled s.engine w) :
    Settled s.engine (after s w c) := by
  have hwrite : ∀ content fields, (create s.engine.platform content fields >>= fun r =>
      s.engine.writeMemory r none).Preserves (Settled s.engine) := fun content fields =>
    (settled_create _ content fields).bind fun r => settled_writeRecord hstores r
  cases c with
  | openWith embedder custom => exact settled_openWith embedder custom w hw
  | writeEvent content recordType fields => exact (hwrite content _).discard w hw
  | writeMemory content fields => exact (hwrite content fields).discard w hw
  | updateMemory recordId content status =>
    exact (settled_updateMemory hstores recordId content status).discard w hw
  | supersedeMemory oldId content fields =>
    obtain ⟨_, hrun⟩ := Proc.ok_of_isOk hreturned
    obtain ⟨written, hrun⟩ := Proc.of_discard_ok hrun
    obtain ⟨r, v, hcreate, hcorrect⟩ := Proc.of_bind_ok hrun
    exact settled_correct hstores hcorrect ((settled_create _ content fields).run hcreate hw)
  | linkSource derivedId sourceId => exact settled_reflection.addDependency _ _ _ w hw
  | requestDeletion recordId mode includeDependents =>
    exact (settled_requestDeletion recordId mode includeDependents).discard w hw
  | consolidate => exact settled_reflection.merging.consolidate.discard w hw
  | contradictionAudit => exact settled_reflection.merging.contradictionAudit.discard w hw
  | applyProposal id => exact settled_reflection.merging.applyProposal id w hw
  | rejectProposal id => exact settled_reflection.merging.rejectProposal id w hw
  | _ => cases hc

theorem settled_runCalls (hstores : s.engine.vectorNames.length ≤ maxSteps) {calls : List Call}
    (hcalls : ∀ c ∈ calls, isGatewayOperation c = true) {w : World Memory}
    (hreturned : AllReturned s w calls) (hw : Settled s.engine w) :
    Settled s.engine (runCalls s w calls) := by
  induction calls generalizing w with
  | nil => exact hw
  | cons c calls ih =>
    refine ih (fun d hd => hcalls d (List.mem_cons_of_mem _ hd)) hreturned.2 ?_
    exact settled_call hstores (hcalls c List.mem_cons_self) hreturned.1 hw

/-- Each posting with a row holds its content, and each live entry of the active
generation with a row carries its hash. -/
structure IndexesAgree (e : MemoryEngine) (w : World Memory) : Prop where
  posting : ∀ id r text, w.db.readOne id = some r → w.db.postings.get? id = some text →
    text = r.content
  vector : ∀ name ∈ e.vectorNames, ∀ id r rec, w.db.readOne id = some r →
    (w.memory.store name).byKey.get? (id, w.memory.activeGeneration) = some rec →
    id ∉ (w.memory.store name).deleted → rec.contentHash = r.contentHash

theorem indexesAgree_of_settled {e : MemoryEngine} {w : World Memory} (h : Settled e w) :
    IndexesAgree e w where
  posting id r text hrow hposted := by
    have htext : textOf w.db id = some (r.content, r.contentHash) :=
      congrArg (Option.map fun r : MemoryRecord => (r.content, r.contentHash)) hrow
    exact h.posting id (fun hfalse => hfalse) _ text htext hposted
  vector name hname id r rec hrow hentry hlive := by
    have htext : textOf w.db id = some (r.content, r.contentHash) :=
      congrArg (Option.map fun r : MemoryRecord => (r.content, r.contentHash)) hrow
    have hvector := h.vector
    rw [pending_idle h.idle] at hvector
    exact hvector name id (not_not.mpr hname) _ rec htext hentry (decide_eq_false hlive)

/-- After every operation of the gateway, in a run in which all of them return and no
adapter refuses, no index disagrees with a row. -/
theorem indexes_agree (s : Strata) (hstores : s.engine.vectorNames.length ≤ maxSteps)
    {w : World Memory} (hstart : Started w) (hfaults : ∀ n, w.memory.faults n = false)
    {calls : List Call} (hcalls : ∀ c ∈ calls, isGatewayOperation c = true)
    (hreturned : AllReturned s w calls) : IndexesAgree s.engine (runCalls s w calls) :=
  indexesAgree_of_settled (settled_runCalls hstores hcalls hreturned (settled_started hstart hfaults))

theorem indexes_agree_corrected :
    IndexesAgree plainStrata.engine (runCalls plainStrata plainWorld
      [.writeMemory "tea" {}, .updateMemory 1 (some "milk") none, .supersedeMemory 1 "tea" {}]) :=
  indexes_agree plainStrata (by decide) started_plainWorld (fun _ => rfl) (by decide)
    ⟨by decide, by decide, by decide, trivial⟩

end Flows
end StrataMemory.SettledFlows
