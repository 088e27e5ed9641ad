import StrataMemory.DeletionInvariants
import StrataMemory.NodeRuns

set_option autoImplicit false

namespace StrataMemory.FlowInvariants
open KeyedTables Records Tables Procedures Worlds CommitEffects Coordinator CoordinatorRuns
open CanonicalStore ManagedSurfaces DeletionFlows DeletionMachine DeletionInvariants Engine Gateway
open NodeRuns

inductive FlowWork (Writable : RecordId → Prop) : Commit Memory → Prop where
  | readClock : FlowWork Writable .readClock
  | newOperationId : FlowWork Writable .newOperationId
  | newRecordId : FlowWork Writable .newRecordId
  | write {r : MemoryRecord} (h : Writable r.id) : FlowWork Writable (.write r)
  | post {id : RecordId} {content : String} (h : Writable id) :
      FlowWork Writable (.indexPosting id content)
  | upsert {op : Operation} (h : ∀ rec ∈ op.records, Writable rec.id) :
      FlowWork Writable (.enqueue op)
  | edge (parentId childId : RecordId) (rel : Relation) :
      FlowWork Writable (.addDependency parentId childId rel)
  | status (id : RecordId) (status : Status) : FlowWork Writable (.setStatus id status)
  | unpost (ids : List RecordId) : FlowWork Writable (.removePostings ids)
  | dropArtifacts (ids : List RecordId) : FlowWork Writable
      (.memory fun m => { m with artifacts := m.artifacts.eraseAll ids })
  | propose (f : ProposalStore → ProposalStore) : FlowWork Writable
      (.memory fun m => { m with proposals := f m.proposals })

structure FlowInvariant (s : Strata) (Writable : RecordId → Prop) (I : World Memory → Prop)
    (Allowed : Operation → Prop) : Prop
    extends QueueInvariant s.engine.coordinator I Allowed where
  flow : ∀ c w, FlowWork Writable c → I w → I (apply c w)

def createdId (fields : Fields) (w : World Memory) : RecordId :=
  fields.id.getD (if w.recordIds w.allocated = 0 then 1 else w.recordIds w.allocated)

theorem create_run (p : Platform) (content : String) (fields : Fields) (w : World Memory) :
    ∃ r, (CanonicalStore.create p content fields).run w =
      (.ok r, (CanonicalStore.create p content fields).final w) ∧ r.id = createdId fields w := by
  obtain ⟨recordType, tier, status, id, recordSubtype, confidence, confidenceReason, salience,
    sensitivity, embeddingModelId, embeddingGeneration, validFrom, validUntil, createdAt, updatedAt,
    currentVersionId, modelSide⟩ := fields
  cases id <;> cases createdAt <;> cases updatedAt <;> exact ⟨_, rfl, rfl⟩

theorem create_preserves {I : World Memory → Prop} (hclock : (nowMs : Prog Memory Time).Preserves I)
    (hid : (newRecordId : Prog Memory RecordId).Preserves I) (p : Platform) (content : String)
    (fields : Fields) : (create p content fields : Prog Memory MemoryRecord).Preserves I := by
  unfold CanonicalStore.create
  cases fields.createdAt <;> cases fields.updatedAt <;> cases fields.id
  all_goals
    repeat first
      | exact Proc.Preserves.pure _
      | refine Proc.Preserves.bind hclock fun _ => ?_
      | refine Proc.Preserves.bind hid fun _ => ?_
      | refine Proc.Preserves.bind (Proc.Preserves.pure _) fun _ => ?_

theorem storeWrite_yields (r : MemoryRecord) :
    (CanonicalStore.write r : Prog Memory MemoryRecord).Yields fun written => written.id = r.id := by
  intro _ w
  change ((w.db.readOne r.id).getD r).id = r.id
  cases hrow : w.db.readOne r.id with
  | none => rfl
  | some row => exact Db.readOne_id hrow

theorem correct_yields (svc : DeletionService Memory) (oldId : RecordId) (r : MemoryRecord)
    (relation : Relation) :
    (DeletionFlows.correct svc oldId r relation).Yields fun written => written.id = r.id := by
  refine (storeWrite_yields r).bind fun written hwritten => ?_
  refine Proc.Yields.second _ fun _ => Proc.Yields.second _ fun _ => ?_
  dsimp only
  split
  · exact Proc.Yields.second _ fun _ => Proc.Yields.second _ fun _ => hwritten
  · exact Proc.Yields.second _ fun _ => hwritten

/-- What reflection does, besides reading, keeps the invariant. -/
structure MergingInvariant (s : Strata) (I : World Memory → Prop) : Prop where
  draw : (newOperationId : Prog Memory OpId).Preserves I
  merge : ∀ primaryId ids, (s.engine.mergeRecords primaryId ids).Preserves I
  propose : ∀ f : ProposalStore → ProposalStore,
    (Worlds.commit (.memory fun m : Memory => { m with proposals := f m.proposals })).Preserves I

namespace MergingInvariant
variable {s : Strata} {I : World Memory → Prop}

theorem setProposalState (h : MergingInvariant s I) (id : OpId)
    (state : ProposalState) : (ReflectionEngine.setProposalState id state).Preserves I :=
  h.propose fun proposals => proposals.setState id state

theorem addProposal (h : MergingInvariant s I) (p : Proposal) :
    (ReflectionEngine.addProposal p).Preserves I :=
  h.propose fun proposals => proposals.add p

theorem applyProposal (h : MergingInvariant s I) (id : OpId) :
    (s.reflection.apply id).Preserves I := by
  refine Proc.Preserves.bind (Proc.Preserves.read _) fun found => ?_
  cases found with
  | none => exact Proc.Preserves.pure _
  | some prop =>
    dsimp only
    split
    · exact Proc.Preserves.pure _
    · split
      · split
        · exact fun _ hw => hw
        · exact (h.merge _ _).bind fun _ => h.setProposalState _ _
      · exact h.setProposalState _ _
      · exact Proc.Preserves.pure _
      · exact Proc.Preserves.pure _

theorem rejectProposal (h : MergingInvariant s I) (id : OpId) :
    (ReflectionEngine.reject id).Preserves I := by
  refine Proc.Preserves.bind (Proc.Preserves.read _) fun found => ?_
  cases found with
  | none => exact fun _ hw => hw
  | some prop => exact h.setProposalState _ _

theorem consolidateClusters (h : MergingInvariant s I)
    (records : List MemoryRecord) (clusters : List Cluster) :
    (s.reflection.consolidateClusters records clusters).Preserves I := by
  induction clusters with
  | nil => exact Proc.Preserves.pure _
  | cons c rest ih =>
    unfold ReflectionEngine.consolidateClusters
    split
    · exact ih
    · refine Proc.Preserves.bind h.draw fun id => ?_
      refine (h.addProposal _).bind fun _ => ?_
      dsimp only
      split
      · exact (h.applyProposal id).bind fun _ => ih.bind fun _ => Proc.Preserves.pure _
      · exact (h.setProposalState _ _).bind fun _ => ih.bind fun _ => Proc.Preserves.pure _

theorem consolidate (h : MergingInvariant s I) :
    s.reflection.consolidate.Preserves I :=
  Proc.Preserves.bind (Proc.Preserves.read _) fun _ => h.consolidateClusters _ _

theorem auditPairs (h : MergingInvariant s I) (a : RecordId)
    (others : List RecordId) (seen : List (RecordId × RecordId)) :
    (ReflectionEngine.auditPairs a others seen).Preserves I := by
  induction others generalizing seen with
  | nil => exact Proc.Preserves.pure _
  | cons b rest ih =>
    refine Proc.Preserves.bind (Proc.Preserves.read _) fun live => ?_
    split
    · exact ih seen
    · split
      · exact ih seen
      · refine Proc.Preserves.bind h.draw fun id => ?_
        refine (h.addProposal _).bind fun _ => (ih _).bind fun out => ?_
        exact Proc.Preserves.pure _

theorem auditRecords (h : MergingInvariant s I) (records : List MemoryRecord)
    (seen : List (RecordId × RecordId)) :
    (ReflectionEngine.auditRecords records seen).Preserves I := by
  induction records generalizing seen with
  | nil => exact Proc.Preserves.pure _
  | cons rec rest ih =>
    refine Proc.Preserves.bind (Proc.Preserves.read _) fun tombstoned => ?_
    split
    · exact ih seen
    · refine Proc.Preserves.bind (Proc.Preserves.read _) fun others => ?_
      refine (h.auditPairs _ _ _).bind fun out => ?_
      exact (ih _).bind fun _ => Proc.Preserves.pure _

theorem contradictionAudit (h : MergingInvariant s I) :
    ReflectionEngine.contradictionAudit.Preserves I :=
  Proc.Preserves.bind (Proc.Preserves.read _) fun _ => h.auditRecords _ _

end MergingInvariant

structure ReflectionInvariant (s : Strata) (I : World Memory → Prop) : Prop where
  draw : (newOperationId : Prog Memory OpId).Preserves I
  setStatus : ∀ id status, (CanonicalStore.setStatus id status : Prog Memory Unit).Preserves I
  addDependency : ∀ parentId childId rel,
    (CanonicalStore.addDependency parentId childId rel : Prog Memory Unit).Preserves I
  purge : ∀ ids, (purge s.engine.registry ids).Preserves I
  propose : ∀ f : ProposalStore → ProposalStore,
    (Worlds.commit (.memory fun m : Memory => { m with proposals := f m.proposals })).Preserves I

namespace ReflectionInvariant
variable {s : Strata} {I : World Memory → Prop}

theorem supersedeDuplicates (h : ReflectionInvariant s I) (primaryId : RecordId)
    (ids : List RecordId) : (MemoryEngine.supersedeDuplicates primaryId ids).Preserves I := by
  induction ids with
  | nil => exact Proc.Preserves.pure _
  | cons d rest ih =>
    have hstep : (do
        CanonicalStore.setStatus d .superseded
        CanonicalStore.addDependency primaryId d .supersedes
        let removed ← MemoryEngine.supersedeDuplicates primaryId rest
        return d :: removed : Prog Memory (List RecordId)).Preserves I :=
      (h.setStatus _ _).bind fun _ => (h.addDependency _ _ _).bind fun _ =>
        ih.bind fun _ => Proc.Preserves.pure _
    refine Proc.Preserves.bind (Proc.Preserves.read _) fun tombstoned => ?_
    split
    · exact ih
    · exact hstep

theorem mergeRecords (h : ReflectionInvariant s I) (primaryId : RecordId)
    (ids : List RecordId) : (s.engine.mergeRecords primaryId ids).Preserves I := by
  refine (h.supersedeDuplicates primaryId ids).bind fun toRemove => ?_
  split
  · exact (h.purge _).bind fun _ => Proc.Preserves.pure _
  · exact Proc.Preserves.pure _

theorem merging (h : ReflectionInvariant s I) : MergingInvariant s I :=
  ⟨h.draw, h.mergeRecords, h.propose⟩

end ReflectionInvariant

namespace FlowInvariant
variable {s : Strata} {Writable : RecordId → Prop} {I : World Memory → Prop}
  {Allowed : Operation → Prop}

theorem commit (h : FlowInvariant s Writable I Allowed) {c : Commit Memory}
    (hc : FlowWork Writable c) : (Worlds.commit c).Preserves I :=
  Proc.Preserves.perform fun w => h.flow c w hc

theorem performing {α : Type} (h : FlowInvariant s Writable I Allowed) {c : Commit Memory}
    (hc : FlowWork Writable c) (reply : World Memory → α) :
    (Proc.performing c reply : Prog Memory α).Preserves I :=
  Proc.Preserves.performing reply fun w => h.flow c w hc

theorem purgeInvariant (h : FlowInvariant s Writable I Allowed) (ids : List RecordId) :
    PurgeInvariant s.engine ids I Allowed where
  toQueueInvariant := h.toQueueInvariant
  unpost w := h.flow _ w (.unpost ids)
  draw w := h.flow _ w .newOperationId
  enqueueRemoval _ _ w := h.flow _ w (.upsert fun _ hrec => nomatch hrec)
  dropArtifacts w := h.flow _ w (.dropArtifacts ids)

theorem runUntilIdle (h : FlowInvariant s Writable I Allowed) :
    (runUntilIdle s.engine.coordinator).Preserves I :=
  h.toQueueInvariant.drain maxSteps

theorem create (h : FlowInvariant s Writable I Allowed) (p : Platform) (content : String)
    (fields : Fields) : (create p content fields : Prog Memory MemoryRecord).Preserves I :=
  create_preserves (h.performing .readClock _) (h.performing .newRecordId _) p content fields

theorem storeWrite (h : FlowInvariant s Writable I Allowed) {r : MemoryRecord}
    (hr : Writable r.id) : (CanonicalStore.write r : Prog Memory MemoryRecord).Preserves I :=
  Proc.Preserves.bind (h.commit (.write hr)) fun _ =>
    Proc.Preserves.bind (Proc.Preserves.read _) fun _ => Proc.Preserves.pure _

theorem index (h : FlowInvariant s Writable I Allowed) {r : MemoryRecord} (hr : Writable r.id) :
    (CanonicalStore.index r : Prog Memory Unit).Preserves I :=
  h.commit (.post hr)

theorem enqueueUpserts (h : FlowInvariant s Writable I Allowed) (embedder : Embedder)
    {r : MemoryRecord} (hr : Writable r.id) (generation : ℤ) :
    (s.engine.enqueueUpserts embedder r generation).Preserves I := by
  refine Proc.Preserves.forM _ _ fun name _ => ?_
  refine Proc.Preserves.bind (h.performing .newOperationId _) fun opId => ?_
  refine Proc.Preserves.bind (h.commit (.upsert fun rec hrec => ?_)) fun _ =>
    Proc.Preserves.pure _
  cases List.mem_singleton.mp hrec
  exact hr

theorem enqueueVectorUpsert (h : FlowInvariant s Writable I Allowed) {r : MemoryRecord}
    (hr : Writable r.id) (generation : ℤ) :
    (s.engine.enqueueVectorUpsert r generation).Preserves I :=
  Proc.Preserves.bind (Proc.Preserves.read _) fun embedder => h.enqueueUpserts embedder hr _

theorem writeRecord (h : FlowInvariant s Writable I Allowed) {r : MemoryRecord}
    (hr : Writable r.id) (generation : Option ℤ) :
    (s.engine.writeMemory r generation).Preserves I := by
  refine Proc.Preserves.bind (Proc.Preserves.read _) fun active => ?_
  refine (h.storeWrite hr).bind_yields (storeWrite_yields r) fun written hwritten => ?_
  rw [← hwritten] at hr
  refine (h.index hr).bind fun _ => (h.enqueueVectorUpsert hr _).bind fun _ => ?_
  exact h.runUntilIdle.bind fun _ => Proc.Preserves.pure _

theorem addDependency (h : FlowInvariant s Writable I Allowed) (parentId childId : RecordId)
    (rel : Relation) :
    (CanonicalStore.addDependency parentId childId rel : Prog Memory Unit).Preserves I :=
  preserves_addDependency fun w hw => h.flow _ w (.edge parentId childId rel) hw

theorem setStatus (h : FlowInvariant s Writable I Allowed) (id : RecordId) (status : Status) :
    (CanonicalStore.setStatus id status : Prog Memory Unit).Preserves I :=
  h.commit (.status id status)

theorem purge (h : FlowInvariant s Writable I Allowed) (ids : List RecordId) :
    (purge s.engine.registry ids).Preserves I :=
  (h.purgeInvariant ids).purge

theorem correct (h : FlowInvariant s Writable I Allowed) (oldId : RecordId) {r : MemoryRecord}
    (hr : Writable r.id) (relation : Relation) :
    (s.engine.correct oldId r relation).Preserves I := by
  have hcorrect : (DeletionFlows.correct s.engine.deletion oldId r relation).Preserves I := by
    refine (h.storeWrite hr).bind_yields (storeWrite_yields r) fun written hwritten => ?_
    refine (h.setStatus _ _).bind fun _ => (h.addDependency _ _ _).bind fun _ => ?_
    refine (h.index (hwritten ▸ hr)).bind fun _ => ?_
    exact (h.purge [oldId]).bind fun _ => Proc.Preserves.pure _
  refine hcorrect.bind_yields (correct_yields _ _ r _) fun written hwritten => ?_
  refine Proc.Preserves.bind (Proc.Preserves.read _) fun active => ?_
  refine (h.enqueueVectorUpsert (hwritten ▸ hr) active).bind fun _ => ?_
  exact h.runUntilIdle.bind fun _ => Proc.Preserves.pure _

theorem reflection (h : FlowInvariant s Writable I Allowed) : ReflectionInvariant s I where
  draw := h.performing .newOperationId _
  setStatus := h.setStatus
  addDependency := h.addDependency
  purge := h.purge
  propose f := h.commit (.propose f)

theorem summary (I : World Memory → Prop) (id : RecordId) : (summary id).Preserves I := by
  refine Proc.Preserves.bind (Proc.Preserves.read _) fun found => ?_
  cases found <;> exact fun _ hw => hw

theorem updateMemory (h : FlowInvariant s Writable I Allowed) (recordId : RecordId)
    (content : Option String) (status : Option Status) {w : World Memory} (hw : I w)
    (hid : content.isSome = true → (w.db.readOne recordId).isSome = true → Writable recordId) :
    I ((s.updateMemory recordId content status).final w) := by
  cases content with
  | none =>
    have hrun : (s.updateMemory recordId none status).Preserves I := by
      refine Proc.Preserves.bind (Proc.Preserves.read _) fun found => ?_
      cases found with
      | none => exact fun _ hw => hw
      | some old =>
        cases status with
        | none => exact summary I recordId
        | some st => exact (h.setStatus _ _).bind fun _ => summary I recordId
    exact hrun w hw
  | some text =>
    change I ((s.updateFound recordId (some text) status (w.db.readOne recordId)).final w)
    cases hrow : w.db.readOne recordId with
    | none => exact hw
    | some old =>
      have hwritable : Writable old.id := by
        rw [Db.readOne_id hrow]
        exact hid rfl (by rw [hrow]; rfl)
      refine (?_ : Proc.Preserves I _) w hw
      refine Proc.Preserves.bind (h.commit (.unpost [recordId])) fun _ => ?_
      refine Proc.Preserves.bind_yields (Q := fun updated : MemoryRecord => updated.id = old.id)
        (Proc.Preserves.bind (h.performing .readClock _) fun _ => Proc.Preserves.pure _)
        (fun _ => rfl) fun updated hupdated => ?_
      exact (h.writeRecord (hupdated ▸ hwritable) _).bind fun _ => summary I recordId

theorem afterCreate (h : FlowInvariant s Writable I Allowed) {α : Type} (p : Platform)
    (content : String) (fields : Fields) {f : MemoryRecord → Prog Memory α}
    (hf : ∀ r, Writable r.id → (f r).Preserves I) {w : World Memory} (hw : I w)
    (hid : Writable (createdId fields w)) :
    I ((CanonicalStore.create p content fields >>= f).final w) := by
  obtain ⟨r, hr, hrid⟩ := create_run p content fields w
  rw [Proc.final_bind_ok hr]
  exact hf r (hrid ▸ hid) _ (h.create p content fields w hw)

theorem reindexRecords (h : FlowInvariant s Writable I Allowed) (generation : ℤ)
    (embedder : Embedder) {records : List MemoryRecord} (hr : ∀ r ∈ records, Writable r.id) :
    (s.engine.reindexRecords generation embedder records).Preserves I := by
  induction records with
  | nil => exact Proc.Preserves.pure _
  | cons r rest ih =>
    have hrest := ih fun t ht => hr t (List.mem_cons_of_mem _ ht)
    refine Proc.Preserves.bind (Proc.Preserves.read _) fun tombstoned => ?_
    split
    · exact (h.enqueueUpserts embedder (hr r List.mem_cons_self) _).bind fun _ => hrest
    · exact hrest

end FlowInvariant

/-- Tombstones and erased rows are the work of deletion jobs. -/
def isJobWork (c : Commit Memory) : Bool := isTombstone c || isErasure c

theorem flowInvariant_of_commits {I : World Memory → Prop}
    (hcommit : ∀ c w, isJobWork c = false → I w → I (apply c w)) (s : Strata) :
    FlowInvariant s (fun _ => True) I fun _ => True := by
  refine ⟨⟨fun _ _ _ _ _ => trivial, fun w => hcommit _ w rfl, fun _ _ _ _ w => hcommit _ w rfl,
    fun b _ w hb _ => hcommit b w ?_, fun _ _ _ w _ _ _ => hcommit _ w rfl⟩,
    fun c w hc => hcommit c w ?_⟩
  · cases b <;> first | rfl | cases hb
  · cases hc <;> rfl

/-- An invariant that every commit outside deletion jobs keeps, and every request and
retry, is kept by every call. -/
theorem kept_by_calls_and_jobs {s : Strata} {I : World Memory → Prop}
    (hcommit : ∀ c w, isJobWork c = false → I w → I (apply c w))
    (hrequest : ∀ recordId mode includeDependents w, I w →
      I ((requestDeletion s.engine.deletion recordId mode includeDependents).final w))
    (hretry : ∀ jobId w, I w → I ((retry s.engine.deletion jobId).final w))
    (w : World Memory) (c : Call) (hw : I w) : I (after s w c) := by
  have hflow := flowInvariant_of_commits hcommit s
  have hone : ∀ {c : Commit Memory}, isJobWork c = false → (Worlds.commit c).Preserves I :=
    fun hc => Proc.Preserves.perform fun w => hcommit _ w hc
  have hcreate : ∀ {α : Type} (content : String) (fields : Fields) (f : MemoryRecord → Prog Memory α),
      (∀ r, (f r).Preserves I) →
      (CanonicalStore.create s.engine.platform content fields >>= f).Preserves I :=
    fun content fields f hf => (hflow.create _ content fields).bind hf
  refine (?_ : (execute s c).Preserves I) w hw
  cases c with
  | openWith embedder custom =>
    exact (hone rfl).bind fun _ => (hone rfl).bind fun _ => hone rfl
  | writeEvent content recordType fields =>
    exact (hcreate _ _ _ fun r => hflow.writeRecord trivial none).discard
  | writeMemory content fields =>
    exact (hcreate _ _ _ fun r => hflow.writeRecord trivial none).discard
  | updateMemory recordId content status =>
    exact Proc.Preserves.discard fun w hw => hflow.updateMemory recordId content status hw fun _ _ => trivial
  | supersedeMemory oldId content fields =>
    exact (hcreate _ _ _ fun r => hflow.correct oldId trivial _).discard
  | linkSource derivedId sourceId => exact hflow.addDependency _ _ _
  | writeRecord record generation => exact (hflow.writeRecord trivial generation).discard
  | correct oldId record relation => exact (hflow.correct oldId trivial relation).discard
  | addDependency parentId childId rel => exact hflow.addDependency _ _ _
  | putArtifact id blob => exact hone rfl
  | requestDeletion recordId mode includeDependents =>
    exact Proc.Preserves.discard fun w hw => hrequest recordId mode includeDependents w hw
  | retryDeletion jobId => exact Proc.Preserves.discard fun w hw => hretry jobId w hw
  | consolidate => exact hflow.reflection.merging.consolidate.discard
  | contradictionAudit => exact hflow.reflection.merging.contradictionAudit.discard
  | applyProposal id => exact hflow.reflection.merging.applyProposal id
  | rejectProposal id => exact hflow.reflection.merging.rejectProposal id
  | openShadowGeneration generation embedder => exact hone rfl
  | reindexInto generation embedder recordIds =>
    refine Proc.Preserves.bind (Proc.Preserves.read _) fun records => ?_
    refine (hflow.reindexRecords generation embedder fun _ _ => trivial).bind fun _ => ?_
    exact hflow.runUntilIdle.bind fun _ => Proc.Preserves.pure _
  | promoteGeneration generation => exact (hone rfl).bind fun _ => hone rfl
  | enqueue op => exact ((hone rfl).bind fun _ => Proc.Preserves.pure _).discard
  | applyNext => exact hflow.toQueueInvariant.applyNext.discard
  | recover => exact hone rfl
  | retryOp opId => exact hone rfl

theorem kept_by_calls {s : Strata} {I : World Memory → Prop}
    (hcommit : ∀ c w, isTombstone c = false → I w → I (apply c w))
    (hrequest : ∀ recordId mode includeDependents w, I w →
      I ((requestDeletion s.engine.deletion recordId mode includeDependents).final w))
    (w : World Memory) (c : Call) (hw : I w) : I (after s w c) := by
  have hother : ∀ c w, isJobWork c = false → I w → I (apply c w) := fun c w hc =>
    hcommit c w (Bool.or_eq_false_iff.mp hc).1
  refine kept_by_calls_and_jobs hother hrequest (fun jobId w hw => ?_) w c hw
  rw [retry_final]
  split
  · exact hw
  · refine DeletionInvariant.purgeAndVerify
      (((flowInvariant_of_commits hother s).purgeInvariant _).deletion ?_ ?_ ?_) _ w hw
    · exact fun _ _ _ _ w => hcommit _ w rfl
    · exact fun _ _ _ w => hcommit _ w rfl
    · exact fun _ w => hcommit _ w rfl

/-- Deletion jobs erase tombstoned rows only: an invariant that every commit keeps, an
erasure where the row is tombstoned, is kept by every call. -/
theorem kept_by_guarded_calls {s : Strata} {I : World Memory → Prop}
    (hcommit : ∀ c w, isErasure c = false → I w → I (apply c w))
    (herase : ∀ id w, w.db.isTombstoned id = true → I w → I (apply (.hardDelete id) w))
    (w : World Memory) (c : Call) (hw : I w) : I (after s w c) := by
  have hother : ∀ c w, isJobWork c = false → I w → I (apply c w) := fun c w hc =>
    hcommit c w (Bool.or_eq_false_iff.mp hc).2
  have hjob : ∀ jobId ids mode w, I w → (∀ id ∈ ids, w.db.isTombstoned id = true) →
      I ((purgeAndVerify s.engine.deletion jobId ids mode s.engine.deletion.maxRetries).final w) := by
    intro jobId ids mode w hw htombstoned
    let J : World Memory → Prop := fun w => I w ∧ ∀ id ∈ ids, w.db.isTombstoned id = true
    have hJ : ∀ c w, isErasure c = false → J w → J (apply c w) := fun c w hc hw =>
      ⟨hcommit c w hc hw.1, fun id hid => apply_isTombstoned c w id (hw.2 id hid)⟩
    have hflow : FlowInvariant s (fun _ => True) J fun _ => True :=
      flowInvariant_of_commits (fun c w hc => hJ c w (Bool.or_eq_false_iff.mp hc).2) s
    have hdeletion : DeletionInvariant s.engine.deletion jobId ids mode J := by
      refine (hflow.purgeInvariant ids).deletion (fun _ _ _ _ w => hJ _ w rfl) ?_
        (fun _ w => hJ _ w rfl)
      intro _ id hid w hw
      exact ⟨herase id w (hw.2 id hid) hw.1,
        fun other hother => apply_isTombstoned _ w other (hw.2 other hother)⟩
    exact (hdeletion.purgeAndVerify _ w ⟨hw, htombstoned⟩).1
  refine kept_by_calls_and_jobs hother (fun recordId mode includeDependents w hw => ?_)
    (fun jobId w hw => ?_) w c hw
  · rw [requestDeletion_final]
    refine hjob _ _ _ _ ?_ (tombstoneAll_tombstones _ _ _ _)
    exact Proc.Preserves.forM _ _ (fun _ _ => Proc.Preserves.perform fun w => hcommit _ w rfl) _
      (hcommit _ w rfl hw)
  · rw [retry_final]
    split
    · exact hw
    · rename_i target
      exact hjob _ _ _ w hw (retryTarget_tombstoned target).2

end StrataMemory.FlowInvariants
