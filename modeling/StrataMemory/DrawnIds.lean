import StrataMemory.CrashedCalls
import StrataMemory.FlowInvariants

set_option autoImplicit false

namespace StrataMemory.DrawnIds
open KeyedTables Records Tables Procedures Worlds CommitEffects Coordinator CoordinatorRuns
open LogConservation CanonicalStore ManagedSurfaces SurfaceRounds DeletionFlows DeletionMachine
open DeletionInvariants VerifiedDeletions FlowInvariants CrashedCalls Histories Engine Gateway NodeRuns

/-- What a host enqueues by itself carries an id that was drawn before. -/
def Draws (w : World Memory) : Call → Prop
  | .enqueue op => op.opId < w.operationIds
  | _ => True

section Commits
variable {w : World Memory} {α : Type}

theorem drawn_uses {p : Prog Memory α} (hp : p.Uses fun c => isEnqueue c = false) :
    p.Preserves Drawn :=
  hp.preserves fun _ _ hc => drawn_kept hc

theorem drawn_queue {op : OpId → Operation} (hop : ∀ opId, (op opId).opId = opId) :
    (newOperationId >>= fun opId => enqueue (op opId) : Prog Memory OpId).Preserves Drawn := by
  intro w hw
  have hdrawn : Drawn (apply .newOperationId w) := drawn_kept rfl hw
  refine drawn_enqueue hdrawn ?_
  rw [hop]
  exact Nat.lt_succ_self _

theorem drawn_commit {c : Commit Memory} (hc : isEnqueue c = false) :
    (Worlds.commit c).Preserves Drawn :=
  drawn_uses ((uses_commit _ _).mpr hc)

end Commits

section Flows
variable {e : MemoryEngine}

theorem drawn_queueWork {α : Type} {p : Prog Memory α} (hp : p.Uses fun c => isQueueWork c = true) :
    p.Preserves Drawn :=
  drawn_uses (hp.mono fun b hb => by cases b <;> first | rfl | cases hb)

theorem drawn_drain (c : WriteCoordinator Memory) (steps : ℕ) : (drain c steps).Preserves Drawn :=
  drawn_queueWork (drain_uses c steps)

theorem drawn_remove (ids : List RecordId) : ∀ s ∈ e.registry, (s.remove ids).Preserves Drawn := by
  intro s hs
  rcases List.mem_append.mp hs with hs | hs
  · rcases List.mem_cons.mp hs with rfl | hs
    · refine Proc.Preserves.bind (drawn_uses ?_) fun _ => Proc.Preserves.read _
      unfold CanonicalStore.removePostings
      split
      · trivial
      · exact (uses_commit _ _).mpr rfl
    · obtain ⟨name, _, rfl⟩ := List.mem_map.mp hs
      have hqueue : (newOperationId >>= fun opId => enqueue ⟨.removeIndex, ids, some name, none, none,
          opId⟩ : Prog Memory OpId).Preserves Drawn := drawn_queue fun _ => rfl
      have hrest : ((newOperationId >>= fun opId =>
          enqueue ⟨.removeIndex, ids, some name, none, none, opId⟩) >>= fun _ =>
          runUntilIdle e.coordinator >>= fun _ => Proc.read fun w : World Memory =>
            ids.map fun i => (i, !w.memory.vectorContains name i)).Preserves Drawn :=
        hqueue.bind fun _ => (drawn_drain _ _).bind fun _ => Proc.Preserves.read _
      exact hrest
  · cases List.mem_singleton.mp hs
    exact (drawn_commit rfl).bind fun _ => Proc.Preserves.read _

theorem drawn_purge (ids : List RecordId) : (purge e.registry ids).Preserves Drawn :=
  preserves_purgeInto (drawn_remove ids) ∅

theorem drawn_upserts (embedder : Embedder) (r : MemoryRecord) (generation : ℤ) :
    (e.enqueueUpserts embedder r generation).Preserves Drawn := by
  refine Proc.Preserves.forM _ _ fun name _ => ?_
  have hqueue : (newOperationId >>= fun opId => enqueue ⟨.upsertIndex, [r.id], some name,
      some [MemoryEngine.vectorRecord embedder r generation], some generation, opId⟩ :
        Prog Memory OpId).Preserves Drawn := drawn_queue fun _ => rfl
  exact hqueue.bind fun _ => Proc.Preserves.pure _

theorem drawn_enqueueVectorUpsert (r : MemoryRecord) (generation : ℤ) :
    (e.enqueueVectorUpsert r generation).Preserves Drawn :=
  Proc.Preserves.bind (Proc.Preserves.read _) fun embedder => drawn_upserts embedder r generation

theorem drawn_write (r : MemoryRecord) :
    (CanonicalStore.write r : Prog Memory MemoryRecord).Preserves Drawn :=
  (drawn_commit rfl).bind fun _ =>
    Proc.Preserves.bind (Proc.Preserves.read _) fun _ => Proc.Preserves.pure _

theorem drawn_writeMemory (r : MemoryRecord) (generation : Option ℤ) :
    (e.writeMemory r generation).Preserves Drawn := by
  refine Proc.Preserves.bind (Proc.Preserves.read _) fun active => ?_
  refine (drawn_write r).bind fun written => (drawn_commit rfl).bind fun _ => ?_
  refine (drawn_enqueueVectorUpsert written _).bind fun _ => ?_
  exact (drawn_drain _ _).bind fun _ => Proc.Preserves.pure _

theorem drawn_addDependency (parentId childId : RecordId) (rel : Relation) :
    (CanonicalStore.addDependency parentId childId rel : Prog Memory Unit).Preserves Drawn :=
  preserves_addDependency fun _ => drawn_kept rfl

theorem drawn_correct (oldId : RecordId) (record : MemoryRecord) (relation : Relation) :
    (e.correct oldId record relation).Preserves Drawn := by
  have hflow : (DeletionFlows.correct e.deletion oldId record relation).Preserves Drawn := by
    refine (drawn_write record).bind fun written => (drawn_commit rfl).bind fun _ => ?_
    refine (drawn_addDependency _ _ _).bind fun _ => (drawn_commit rfl).bind fun _ => ?_
    exact (drawn_purge [oldId]).bind fun _ => Proc.Preserves.pure _
  refine hflow.bind fun written => Proc.Preserves.bind (Proc.Preserves.read _) fun active => ?_
  refine (drawn_enqueueVectorUpsert written active).bind fun _ => ?_
  exact (drawn_drain _ _).bind fun _ => Proc.Preserves.pure _

theorem drawn_created {α : Type} (p : Platform) (content : String) (fields : Fields)
    {f : MemoryRecord → Prog Memory α} (hf : ∀ r, (f r).Preserves Drawn) :
    (CanonicalStore.create p content fields >>= f).Preserves Drawn :=
  (create_preserves (drawn_uses ((Proc.uses_performing _ _ _).mpr rfl))
    (drawn_uses ((Proc.uses_performing _ _ _).mpr rfl)) p content fields).bind hf

theorem drawn_updateMemory (s : Strata) (recordId : RecordId) (content : Option String)
    (status : Option Status) : (s.updateMemory recordId content status).Preserves Drawn := by
  have hsummary := FlowInvariant.summary Drawn recordId
  refine Proc.Preserves.bind (Proc.Preserves.read _) fun found => ?_
  cases found with
  | none => exact fun _ hw => hw
  | some old =>
    cases content with
    | none =>
      cases status with
      | none => exact hsummary
      | some status => exact (drawn_commit rfl).bind fun _ => hsummary
    | some text =>
      refine (drawn_commit rfl : (CanonicalStore.removePostings [recordId] :
        Prog Memory Unit).Preserves Drawn).bind fun _ => ?_
      have hread : (withContent s.engine.platform old text : Prog Memory MemoryRecord).Preserves Drawn :=
        Proc.Preserves.bind (drawn_uses ((Proc.uses_performing _ _ _).mpr rfl)) fun _ =>
          Proc.Preserves.pure _
      exact hread.bind fun updated => (drawn_writeMemory updated none).bind fun _ => hsummary

theorem drawn_reflection (s : Strata) : ReflectionInvariant s Drawn where
  draw := drawn_uses ((Proc.uses_performing _ _ _).mpr rfl)
  setStatus _ _ := drawn_commit rfl
  addDependency := drawn_addDependency
  purge := drawn_purge
  propose _ := drawn_commit rfl

theorem drawn_deletion (jobId : OpId) (ids : List RecordId) (mode : DeletionMode) :
    DeletionInvariant e.deletion jobId ids mode Drawn where
  clock _ := drawn_kept rfl
  mark _ _ _ _ _ := drawn_kept rfl
  ack _ _ _ _ := drawn_kept rfl
  erase _ _ _ _ := drawn_kept rfl
  rebuild _ _ := drawn_kept rfl
  remove := drawn_remove ids
  absent := preserves_absent e Drawn

theorem drawn_reindexRecords (generation : ℤ) (embedder : Embedder) (records : List MemoryRecord) :
    (e.reindexRecords generation embedder records).Preserves Drawn := by
  induction records with
  | nil => exact Proc.Preserves.pure _
  | cons r rest ih =>
    refine Proc.Preserves.bind (Proc.Preserves.read _) fun tombstoned => ?_
    split
    · exact (drawn_upserts embedder r generation).bind fun _ => ih
    · exact ih

end Flows

section Runs
variable {s : Strata} {w : World Memory}

theorem drawn_call {c : Call} (hw : Drawn w) (hc : Draws w c) : Drawn (after s w c) := by
  cases c with
  | enqueue op =>
    have hafter : after s w (.enqueue op) = apply (.enqueue op) w := Proc.final_discard _ w
    rw [hafter]
    exact drawn_enqueue hw hc
  | openWith embedder custom =>
    exact ((drawn_commit rfl).bind fun _ => (drawn_commit rfl).bind fun _ => drawn_commit rfl) w hw
  | writeEvent content recordType fields =>
    exact (drawn_created _ _ _ fun r => drawn_writeMemory r none).discard w hw
  | writeMemory content fields =>
    exact (drawn_created _ _ _ fun r => drawn_writeMemory r none).discard w hw
  | updateMemory recordId content status =>
    exact (drawn_updateMemory s recordId content status).discard w hw
  | supersedeMemory oldId content fields =>
    exact (drawn_created _ _ _ fun r => drawn_correct oldId r _).discard w hw
  | linkSource derivedId sourceId => exact drawn_addDependency _ _ _ w hw
  | writeRecord record generation => exact (drawn_writeMemory record generation).discard w hw
  | correct oldId record relation => exact (drawn_correct oldId record relation).discard w hw
  | addDependency parentId childId rel => exact drawn_addDependency _ _ _ w hw
  | putArtifact id blob => exact drawn_commit rfl w hw
  | requestDeletion recordId mode includeDependents =>
    refine Proc.Preserves.discard (fun w hw => ?_) w hw
    exact requestDeletion_keeps (drawn_kept rfl hw) (fun _ _ _ => drawn_kept rfl)
      (drawn_deletion _ _ _)
  | retryDeletion jobId =>
    refine Proc.Preserves.discard (fun w hw => ?_) w hw
    rw [retry_final]
    split
    · exact hw
    · exact (drawn_deletion _ _ _).purgeAndVerify _ w hw
  | consolidate => exact (drawn_reflection s).merging.consolidate.discard w hw
  | contradictionAudit => exact (drawn_reflection s).merging.contradictionAudit.discard w hw
  | applyProposal id => exact (drawn_reflection s).merging.applyProposal id w hw
  | rejectProposal id => exact (drawn_reflection s).merging.rejectProposal id w hw
  | openShadowGeneration generation embedder => exact drawn_commit rfl w hw
  | reindexInto generation embedder recordIds =>
    refine (?_ : Proc.Preserves Drawn _) w hw
    refine Proc.Preserves.bind (Proc.Preserves.read _) fun records => ?_
    refine (drawn_reindexRecords generation embedder records).bind fun _ => ?_
    exact (drawn_drain _ _).bind fun _ => Proc.Preserves.pure _
  | promoteGeneration generation => exact ((drawn_commit rfl).bind fun _ => drawn_commit rfl) w hw
  | applyNext => exact (drawn_queueWork (applyNext_uses s.engine.coordinator)).discard w hw
  | recover => exact drawn_commit rfl w hw
  | retryOp opId => exact drawn_commit rfl w hw

theorem drawn_runCalls {w : World Memory} (hstart : Started w) {calls : List Call}
    (hdraws : Along (after s) Draws w calls) : Drawn (runCalls s w calls) := by
  have hdrawn : Drawn w := by
    intro op hop
    rw [hstart.db] at hop
    exact absurd hop List.not_mem_nil
  exact (afterEach_of_along (fun t c _ ht => drawn_call ht) hdrawn hdraws).last hdrawn

end Runs
end StrataMemory.DrawnIds
