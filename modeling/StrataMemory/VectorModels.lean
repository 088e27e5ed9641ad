import StrataMemory.FlowInvariants
import StrataMemory.GenerationTable
import StrataMemory.StoreRefinement

set_option autoImplicit false

namespace StrataMemory.VectorModels
open KeyedTables Records Tables Procedures Worlds CommitEffects Coordinator CoordinatorRuns
open HandlerEffects CanonicalStore ManagedSurfaces DeletionFlows DeletionInvariants FlowInvariants
open StoreRefinement Histories GenerationTable Engine Gateway NodeRuns

/-- Commits that neither queue vectors nor touch the stores. -/
inductive BareWork : Commit Memory → Prop where
  | write (r : MemoryRecord) : BareWork (.write r)
  | post (id : RecordId) (content : String) : BareWork (.indexPosting id content)
  | flow {c : Commit Memory} (h : FlowWork (fun _ => False) c) : BareWork c

/-- An invariant kept by bare commits, by the queue, and by upserts of vectors whose
embedder fits their generation. -/
structure VectorInvariant (s : Strata) (Fits : Embedder → ℤ → Prop) (I : World Memory → Prop)
    (Allowed : Operation → Prop) : Prop extends QueueInvariant s.engine.coordinator I Allowed where
  bare : ∀ c w, BareWork c → I w → I (apply c w)
  upsert : ∀ embedder generation r name opId w, Fits embedder generation → I w →
    I (apply (.enqueue ⟨.upsertIndex, [r.id], some name,
      some [MemoryEngine.vectorRecord embedder r generation], some generation, opId⟩) w)

namespace VectorInvariant
variable {s : Strata} {Fits : Embedder → ℤ → Prop} {I : World Memory → Prop}
  {Allowed : Operation → Prop}

theorem flow (h : VectorInvariant s Fits I Allowed) : FlowInvariant s (fun _ => False) I Allowed where
  toQueueInvariant := h.toQueueInvariant
  flow c w hc := h.bare c w (.flow hc)

theorem storeWrite (h : VectorInvariant s Fits I Allowed) (r : MemoryRecord) :
    (CanonicalStore.write r : Prog Memory MemoryRecord).Preserves I :=
  Proc.Preserves.bind (Proc.Preserves.perform fun w => h.bare _ w (.write r)) fun _ =>
    Proc.Preserves.bind (Proc.Preserves.read _) fun _ => Proc.Preserves.pure _

theorem index (h : VectorInvariant s Fits I Allowed) (r : MemoryRecord) :
    (CanonicalStore.index r : Prog Memory Unit).Preserves I :=
  Proc.Preserves.perform fun w => h.bare _ w (.post _ _)

theorem enqueueUpserts (h : VectorInvariant s Fits I Allowed) {embedder : Embedder}
    {generation : ℤ} (hfits : Fits embedder generation) (r : MemoryRecord) :
    (s.engine.enqueueUpserts embedder r generation).Preserves I := by
  refine Proc.Preserves.forM _ _ fun name _ => ?_
  refine Proc.Preserves.bind (h.flow.performing .newOperationId _) fun opId => ?_
  have henqueue : (Worlds.commit (.enqueue ⟨.upsertIndex, [r.id], some name,
      some [MemoryEngine.vectorRecord embedder r generation], some generation, opId⟩)).Preserves I :=
    Proc.Preserves.perform fun w => h.upsert embedder generation r name opId w hfits
  exact henqueue.bind fun _ => Proc.Preserves.pure _

theorem enqueueVectorUpsert (h : VectorInvariant s Fits I Allowed) {generation : ℤ}
    (hfits : ∀ w, I w → Fits w.memory.embedder generation) (r : MemoryRecord) :
    (s.engine.enqueueVectorUpsert r generation).Preserves I :=
  fun w hw => h.enqueueUpserts (hfits w hw) r w hw

theorem writeRecord (h : VectorInvariant s Fits I Allowed) {active : ℤ}
    (hactive : ∀ w, I w → w.memory.activeGeneration = active) {generation : Option ℤ}
    (hfits : ∀ w, I w → Fits w.memory.embedder (generation.getD active)) (r : MemoryRecord) :
    (s.engine.writeMemory r generation).Preserves I := by
  have hrest : (CanonicalStore.write r >>= fun written =>
      CanonicalStore.index written >>= fun _ =>
      s.engine.enqueueVectorUpsert written (generation.getD active) >>= fun _ =>
      runUntilIdle s.engine.coordinator >>= fun _ => pure written).Preserves I := by
    refine (h.storeWrite r).bind fun written => (h.index written).bind fun _ => ?_
    refine (h.enqueueVectorUpsert hfits written).bind fun _ => ?_
    exact h.flow.runUntilIdle.bind fun _ => Proc.Preserves.pure _
  intro w hw
  rw [← hactive w hw] at hrest
  exact hrest w hw

theorem correct (h : VectorInvariant s Fits I Allowed) {active : ℤ}
    (hactive : ∀ w, I w → w.memory.activeGeneration = active)
    (hfits : ∀ w, I w → Fits w.memory.embedder active) (oldId : RecordId) (r : MemoryRecord)
    (relation : Relation) : (s.engine.correct oldId r relation).Preserves I := by
  have hflow : (DeletionFlows.correct s.engine.deletion oldId r relation).Preserves I := by
    refine (h.storeWrite r).bind fun written => (h.flow.setStatus _ _).bind fun _ => ?_
    refine (h.flow.addDependency _ _ _).bind fun _ => (h.index written).bind fun _ => ?_
    exact (h.flow.purge [oldId]).bind fun _ => Proc.Preserves.pure _
  refine hflow.bind fun written => ?_
  have hrest : (s.engine.enqueueVectorUpsert written active >>= fun _ =>
      runUntilIdle s.engine.coordinator >>= fun _ => pure written).Preserves I :=
    (h.enqueueVectorUpsert hfits written).bind fun _ =>
      h.flow.runUntilIdle.bind fun _ => Proc.Preserves.pure _
  intro w hw
  rw [← hactive w hw] at hrest
  exact hrest w hw

theorem updateMemory (h : VectorInvariant s Fits I Allowed) {active : ℤ}
    (hactive : ∀ w, I w → w.memory.activeGeneration = active) {content : Option String}
    (hfits : content.isSome = true → ∀ w, I w → Fits w.memory.embedder active)
    (recordId : RecordId) (status : Option Status) :
    (s.updateMemory recordId content status).Preserves I := by
  cases content with
  | none => exact fun w hw => h.flow.updateMemory recordId none status hw (by simp)
  | some text =>
    refine Proc.Preserves.bind (Proc.Preserves.read _) fun found => ?_
    cases found with
    | none => exact fun _ hw => hw
    | some old =>
      have hwrite : ∀ r, (s.engine.writeMemory r none).Preserves I :=
        h.writeRecord hactive (hfits rfl)
      refine (h.flow.commit (.unpost [recordId])).bind fun _ => ?_
      refine Proc.Preserves.bind ?_ fun updated =>
        (hwrite updated).bind fun _ => FlowInvariant.summary I recordId
      exact (h.flow.performing .readClock _).bind fun _ => Proc.Preserves.pure _

theorem reindexRecords (h : VectorInvariant s Fits I Allowed) {embedder : Embedder}
    {generation : ℤ} (hfits : Fits embedder generation) (records : List MemoryRecord) :
    (s.engine.reindexRecords generation embedder records).Preserves I := by
  induction records with
  | nil => exact Proc.Preserves.pure _
  | cons r rest ih =>
    refine Proc.Preserves.bind (Proc.Preserves.read _) fun tombstoned => ?_
    split
    · exact (h.enqueueUpserts hfits r).bind fun _ => ih
    · exact ih

end VectorInvariant

def RecordedFor (db : Db) (rec : VectorRecord) : Prop :=
  modelOf db rec.embeddingGeneration = some rec.embeddingModelId

/-- Every queued payload and every stored vector has the model that the table records
for its generation. -/
structure ModelsHonest (w : World Memory) : Prop where
  queued : ∀ row ∈ w.db.opLog.rows, ∀ rec ∈ row.operation.records, RecordedFor w.db rec
  stored : ∀ name key rec, (w.memory.store name).byKey.get? key = some rec → RecordedFor w.db rec

theorem RecordedFor.apply {rec : VectorRecord} {w : World Memory} (h : RecordedFor w.db rec)
    (c : Commit Memory) : RecordedFor (apply c w).db rec :=
  modelOf_apply c h

/-- What a store holds after an operation it held before, or the operation brought it. -/
theorem entries_applied {op : Operation} {c : Contents} {key : RecordId × ℤ} {rec : VectorRecord}
    (h : (applied op c).entries key = some rec) : rec ∈ op.records ∨ c.entries key = some rec := by
  unfold applied at h
  cases htype : op.opType with
  | upsertIndex =>
    rw [htype] at h
    rcases Option.or_eq_some_iff.mp h with hfound | ⟨_, hold⟩
    · exact .inl (List.mem_reverse.mp (List.mem_of_find?_eq_some hfound))
    · exact .inr hold
  | removeIndex | hardPurge | tombstone | reindexPromote =>
    rw [htype] at h
    exact .inr h

theorem stored_makeHandler {name other : String} {op : Operation} {m : Memory}
    {key : RecordId × ℤ} {rec : VectorRecord}
    (h : ((makeHandler name op m).2.store other).byKey.get? key = some rec) :
    rec ∈ op.records ∨ (m.store other).byKey.get? key = some rec := by
  unfold makeHandler at h
  split at h
  · exact .inr h
  · have hstores := congrFun (storesOf_applyToStore name op m) other
    have hentry : (Function.update (storesOf m) name (applied op (storesOf m name)) other).entries key =
        some rec := hstores ▸ h
    by_cases hname : other = name
    · subst hname
      rw [Function.update_self] at hentry
      exact entries_applied hentry
    · rw [Function.update_of_ne hname] at hentry
      exact .inr hentry

theorem operation_advance {log : OpLog} {p : OpRow → Bool} {f : Progress → Progress} :
    ∀ row ∈ (log.advance p f).rows, ∃ old ∈ log.rows, row.operation = old.operation := by
  intro row hrow
  obtain ⟨old, hold, _, hop, _⟩ := mem_advance hrow
  exact ⟨old, hold, hop⟩

theorem operation_append {log : OpLog} {op : Operation} {now : Time} {row : OpRow}
    (h : row ∈ (log.append op now).rows) : row ∈ log.rows ∨ row.operation = op := by
  unfold OpLog.append at h
  split at h
  · exact .inl h
  · rcases List.mem_append.mp h with h | h
    · exact .inl h
    · cases List.mem_singleton.mp h
      exact .inr rfl

section Commits
variable {w : World Memory}

theorem ModelsHonest.advance (h : ModelsHonest w) {t : World Memory}
    (hlog : ∀ row ∈ t.db.opLog.rows, ∃ old ∈ w.db.opLog.rows, row.operation = old.operation)
    (hgenerations : t.db.generations = w.db.generations) (hmemory : t.memory = w.memory) :
    ModelsHonest t where
  queued row hrow rec hrec := by
    obtain ⟨old, hold, hop⟩ := hlog row hrow
    rw [hop] at hrec
    unfold RecordedFor modelOf
    rw [hgenerations]
    exact h.queued old hold rec hrec
  stored name key rec hrec := by
    rw [hmemory] at hrec
    unfold RecordedFor modelOf
    rw [hgenerations]
    exact h.stored name key rec hrec

theorem ModelsHonest.same (h : ModelsHonest w) (c : Commit Memory)
    (hlog : (apply c w).db.opLog = w.db.opLog)
    (hstores : (apply c w).memory.vectors = w.memory.vectors) : ModelsHonest (apply c w) where
  queued row hrow rec hrec := (h.queued row (hlog ▸ hrow) rec hrec).apply c
  stored name key rec hrec := by
    unfold Memory.store at hrec
    rw [hstores] at hrec
    exact (h.stored name key rec hrec).apply c

theorem ModelsHonest.enqueue (h : ModelsHonest w) {op : Operation}
    (hop : ∀ rec ∈ op.records, RecordedFor w.db rec) : ModelsHonest (apply (.enqueue op) w) where
  queued row hrow rec hrec := by
    rcases operation_append hrow with hold | rfl
    · exact h.queued row hold rec hrec
    · exact hop rec hrec
  stored := h.stored

theorem ModelsHonest.bare (h : ModelsHonest w) {c : Commit Memory} (hc : BareWork c) :
    ModelsHonest (Worlds.apply c w) := by
  cases hc with
  | write r => exact h.same _ rfl rfl
  | post id content => exact h.same _ rfl rfl
  | flow hc =>
    cases hc with
    | write hr => exact absurd hr not_false
    | post hid => exact absurd hid not_false
    | upsert hrecords => exact h.enqueue fun rec hrec => absurd (hrecords rec hrec) not_false
    | readClock | newOperationId | newRecordId | edge | status | unpost | dropArtifacts | propose =>
      exact h.same _ rfl rfl

end Commits

structure SessionHonest (start w : World Memory) : Prop extends ModelsHonest w where
  generations : w.db.generations = start.db.generations
  embedder : w.memory.embedder = start.memory.embedder
  active : w.memory.activeGeneration = start.memory.activeGeneration

theorem embedder_makeHandler (name : String) (op : Operation) (m : Memory) :
    (makeHandler name op m).2.embedder = m.embedder ∧
      (makeHandler name op m).2.activeGeneration = m.activeGeneration := by
  unfold makeHandler applyToStore
  split
  · exact ⟨rfl, rfl⟩
  · cases op.opType <;> exact ⟨rfl, rfl⟩

section Session
variable {start w : World Memory}

theorem SessionHonest.same (h : SessionHonest start w) (c : Commit Memory)
    (hlog : (apply c w).db.opLog = w.db.opLog)
    (hgenerations : (apply c w).db.generations = w.db.generations)
    (hvectors : (apply c w).memory.vectors = w.memory.vectors)
    (hembedder : (apply c w).memory.embedder = w.memory.embedder)
    (hactive : (apply c w).memory.activeGeneration = w.memory.activeGeneration) :
    SessionHonest start (apply c w) :=
  ⟨h.toModelsHonest.same c hlog hvectors, hgenerations.trans h.generations,
    hembedder.trans h.embedder, hactive.trans h.active⟩

theorem sessionHonest_invariant (s : Strata) (start : World Memory) :
    VectorInvariant s (fun embedder generation =>
        modelOf start.db generation = some embedder.modelId)
      (SessionHonest start) (fun op => ∀ rec ∈ op.records, RecordedFor start.db rec) where
  live w hw row hrow _ rec hrec := by
    have hqueued := hw.queued row hrow rec hrec
    unfold RecordedFor modelOf at hqueued
    rw [hw.generations] at hqueued
    exact hqueued
  clock w hw := hw.same _ rfl rfl rfl rfl rfl
  ack _ _ _ _ w hw := hw.same _ rfl rfl rfl rfl rfl
  progress b seq w hb _ hw := by
    cases b with
    | setOpState | finish | failOp | deferOp =>
      exact ⟨hw.toModelsHonest.advance operation_advance rfl rfl, hw.generations, hw.embedder, hw.active⟩
    | _ => cases hb
  handled name handler op w hhandler _ hop hw := by
    obtain ⟨_, rfl⟩ := handler_eq hhandler
    obtain ⟨hembedder, hactive⟩ := embedder_makeHandler name op w.memory
    refine ⟨⟨hw.queued, fun other key rec hrec => ?_⟩, hw.generations, hembedder.trans hw.embedder,
      hactive.trans hw.active⟩
    rcases stored_makeHandler hrec with hnew | hold
    · change (w.db.generations.get? _).map _ = _
      rw [hw.generations]
      exact hop rec hnew
    · exact hw.stored other key rec hold
  bare c w hc hw := by
    refine ⟨hw.toModelsHonest.bare hc, ?_, ?_, ?_⟩
    · refine Eq.trans ?_ hw.generations
      cases hc with
      | flow hc => cases hc <;> rfl
      | _ => rfl
    · refine Eq.trans ?_ hw.embedder
      cases hc with
      | flow hc => cases hc <;> rfl
      | _ => rfl
    · refine Eq.trans ?_ hw.active
      cases hc with
      | flow hc => cases hc <;> rfl
      | _ => rfl
  upsert embedder generation r name opId w hfits hw := by
    refine ⟨hw.toModelsHonest.enqueue fun rec hrec => ?_, hw.generations, hw.embedder, hw.active⟩
    cases List.mem_singleton.mp hrec
    change (w.db.generations.get? _).map _ = _
    rw [hw.generations]
    exact hfits

theorem sessionHonest_deletion (s : Strata) (start : World Memory) (ids : List RecordId)
    {jobId : OpId} {mode : DeletionMode} :
    DeletionInvariant s.engine.deletion jobId ids mode (SessionHonest start) :=
  ((sessionHonest_invariant s start).flow.purgeInvariant ids).deletion
    (fun _ _ _ _ _ hw => SessionHonest.same hw _ rfl rfl rfl rfl rfl)
    (fun _ _ _ _ hw => SessionHonest.same hw _ rfl rfl rfl rfl rfl)
    (fun _ _ hw => SessionHonest.same hw _ rfl rfl rfl rfl rfl)

theorem sessionHonest_start (h : ModelsHonest w) : SessionHonest w w := ⟨h, rfl, rfl, rfl⟩

end Session

/-- The table records, for the generation that the session writes to, the model of its
embedder. -/
def SessionMatches (w : World Memory) : Prop :=
  modelOf w.db w.memory.activeGeneration = some w.memory.embedder.modelId

/-- What a call embeds, it embeds with the model of the generation it writes to. -/
def ModelsMatch (w : World Memory) : Call → Prop
  | .writeEvent .. | .writeMemory .. | .supersedeMemory .. | .correct ..
  | .updateMemory _ (some _) _ => SessionMatches w
  | .writeRecord _ generation =>
    modelOf w.db (generation.getD w.memory.activeGeneration) = some w.memory.embedder.modelId
  | .reindexInto generation embedder _ => modelOf w.db generation = some embedder.modelId
  | .enqueue op => ∀ rec ∈ op.records, RecordedFor w.db rec
  | _ => True

section Calls
variable {s : Strata} {w : World Memory}

/-- A call of a session that has its generation keeps the session and its honesty. -/
theorem honest_session {c : Call} (hc : isGenerationCall c = false) (hmatch : ModelsMatch w c)
    (hw : ModelsHonest w) : SessionHonest w (after s w c) := by
  have hvector := sessionHonest_invariant s w
  have hflow := hvector.flow
  have hstart := sessionHonest_start hw
  have hactive : ∀ t, SessionHonest w t → t.memory.activeGeneration = w.memory.activeGeneration :=
    fun t ht => ht.active
  have hfits : ∀ {generation : ℤ}, modelOf w.db generation = some w.memory.embedder.modelId →
      ∀ t, SessionHonest w t → modelOf w.db generation = some t.memory.embedder.modelId :=
    fun hmodel t ht => by rw [ht.embedder]; exact hmodel
  have hunspecified : SessionMatches w → ∀ r,
      (s.engine.writeMemory r none).Preserves (SessionHonest w) := fun hmodel =>
    hvector.writeRecord hactive (hfits hmodel)
  have hwrite : ∀ content fields, SessionMatches w →
      (create s.engine.platform content fields >>= fun r =>
        s.engine.writeMemory r none).Preserves (SessionHonest w) := fun content fields hmodel =>
    (hflow.create _ content fields).bind (hunspecified hmodel)
  cases c with
  | writeEvent content recordType fields => exact (hwrite content _ hmatch).discard w hstart
  | writeMemory content fields => exact (hwrite content fields hmatch).discard w hstart
  | updateMemory recordId content status =>
    have hcontent : content.isSome = true → SessionMatches w := by
      cases content with
      | none => simp
      | some text => exact fun _ => hmatch
    have hupdate := hvector.updateMemory hactive (fun h => hfits (hcontent h)) recordId status
    exact hupdate.discard w hstart
  | supersedeMemory oldId content fields =>
    refine Proc.Preserves.discard ((hflow.create _ content fields).bind fun r => ?_) w hstart
    exact hvector.correct hactive (hfits hmatch) oldId r _
  | linkSource derivedId sourceId => exact hflow.addDependency _ _ _ w hstart
  | writeRecord record generation =>
    exact (hvector.writeRecord hactive (hfits hmatch) record).discard w hstart
  | correct oldId record relation =>
    exact (hvector.correct hactive (hfits hmatch) oldId record relation).discard w hstart
  | addDependency parentId childId rel => exact hflow.addDependency _ _ _ w hstart
  | putArtifact id blob =>
    exact hstart.same (.memory fun m =>
      { m with artifacts := m.artifacts.set id ((m.artifacts.get? id).getD [] ++ [blob]) })
      rfl rfl rfl rfl rfl
  | requestDeletion recordId mode includeDependents =>
    refine Proc.Preserves.discard (fun t ht => ?_) w hstart
    refine requestDeletion_keeps (ht.same _ rfl rfl rfl rfl rfl) (fun id _ u hu => ?_)
      (sessionHonest_deletion s w _)
    exact hu.same (.tombstone id mode _ _) rfl rfl rfl rfl rfl
  | retryDeletion jobId =>
    refine Proc.Preserves.discard (fun t ht => ?_) w hstart
    rw [retry_final]
    split
    · exact ht
    · exact (sessionHonest_deletion s w _).purgeAndVerify _ t ht
  | consolidate => exact hflow.reflection.merging.consolidate.discard w hstart
  | contradictionAudit => exact hflow.reflection.merging.contradictionAudit.discard w hstart
  | applyProposal id => exact hflow.reflection.merging.applyProposal id w hstart
  | rejectProposal id => exact hflow.reflection.merging.rejectProposal id w hstart
  | reindexInto generation embedder recordIds =>
    refine (Proc.Preserves.bind (Proc.Preserves.read _) fun records => ?_) w hstart
    refine (hvector.reindexRecords hmatch records).bind fun _ => ?_
    exact hflow.runUntilIdle.bind fun _ => Proc.Preserves.pure _
  | enqueue op =>
    change SessionHonest w ((discard (Coordinator.enqueue op) : Prog Memory Unit).final w)
    rw [Proc.final_discard]
    exact ⟨hw.enqueue hmatch, rfl, rfl, rfl⟩
  | applyNext => exact hflow.toQueueInvariant.applyNext.discard w hstart
  | recover => exact ⟨hw.advance operation_advance rfl rfl, rfl, rfl, rfl⟩
  | retryOp opId => exact ⟨hw.advance operation_advance rfl rfl, rfl, rfl, rfl⟩
  | _ => cases hc

theorem honest_call {c : Call} (hmatch : ModelsMatch w c) (hw : ModelsHonest w) :
    ModelsHonest (after s w c) := by
  cases hc : isGenerationCall c with
  | false => exact (honest_session hc hmatch hw).toModelsHonest
  | true =>
    cases c with
    | openWith embedder custom =>
      let u : World Memory := apply (.memory fun m =>
        ⟨∅, ∅, ∅, embedder, sessionGeneration custom, m.faults, m.calls⟩) w
      have hu : ModelsHonest u := ⟨hw.queued, fun _ _ _ hrec => nomatch hrec⟩
      have hrecovered : ModelsHonest (apply .recover u) := hu.advance operation_advance rfl rfl
      exact hrecovered.same _ (registerGeneration_kept (sessionGeneration custom) embedder.modelId
        .active _).1 rfl
    | openShadowGeneration generation embedder =>
      exact hw.same _ (registerGeneration_kept generation embedder.modelId .shadow w).1 rfl
    | promoteGeneration generation =>
      have hpromoted := hw.same (.promoteGeneration generation) rfl rfl
      exact hpromoted.same (.memory fun m => { m with activeGeneration := generation }) rfl rfl
    | _ => cases hc

/-- The number stands for no other model. -/
def Free (db : Db) (generation : ℤ) (modelId : String) : Prop :=
  ∀ other, modelOf db generation = some other → other = modelId

/-- A session and a shadow take numbers that stand for no other model, and a generation is
promoted in a session with its model. -/
def Registered (w : World Memory) : Call → Prop
  | .openWith embedder custom => Free w.db (sessionGeneration custom) embedder.modelId
  | .openShadowGeneration generation embedder => Free w.db generation embedder.modelId
  | .promoteGeneration generation => modelOf w.db generation = some w.memory.embedder.modelId
  | .writeRecord _ (some generation) => modelOf w.db generation = some w.memory.embedder.modelId
  | .enqueue op => ∀ rec ∈ op.records, RecordedFor w.db rec
  | _ => True

/-- A generation is reindexed with the embedder that its shadow was opened with. -/
def ReindexesOpened : List (ℤ × Embedder) → List Call → Prop
  | _, [] => True
  | opened, .openShadowGeneration generation embedder :: calls =>
    ReindexesOpened ((generation, embedder) :: opened) calls
  | opened, .reindexInto generation embedder _ :: calls =>
    (generation, embedder) ∈ opened ∧ ReindexesOpened opened calls
  | opened, _ :: calls => ReindexesOpened opened calls

theorem modelOf_register {db : World Memory} {generation : ℤ} {modelId : String}
    (hfree : Free db.db generation modelId) (status : GenerationStatus) :
    modelOf (apply (.registerGeneration generation modelId status) db).db generation =
      some modelId := by
  unfold modelOf
  rw [generations_register]
  by_cases hcontains : db.db.generations.contains generation = true
  · rw [if_pos hcontains]
    obtain ⟨row, hrow⟩ := Option.isSome_iff_exists.mp hcontains
    have hmodel : modelOf db.db generation = some row.embeddingModelId :=
      congrArg (Option.map Generation.embeddingModelId) hrow
    rw [← hfree _ hmodel]
    exact hmodel
  · rw [if_neg hcontains, Table.get?_set_self]
    rfl

theorem modelOf_final {α : Type} (p : Prog Memory α) {w : World Memory} {generation : ℤ}
    {modelId : String} (h : modelOf w.db generation = some modelId) :
    modelOf (p.final w).db generation = some modelId :=
  (Proc.Uses.of_forall (P := fun _ => True) (fun _ => trivial) p).preserves
    (I := fun w => modelOf w.db generation = some modelId) (fun c _ _ => modelOf_apply c) w h

structure Aligned (opened : List (ℤ × Embedder)) (w : World Memory) : Prop where
  honest : ModelsHonest w
  session : SessionMatches w
  shadows : ∀ x ∈ opened, modelOf w.db x.1 = some x.2.modelId

theorem Aligned.session_call {opened : List (ℤ × Embedder)} (h : Aligned opened w) {c : Call}
    (hc : isGenerationCall c = false) (hmatch : ModelsMatch w c) :
    Aligned opened (after s w c) := by
  have hsession := honest_session (s := s) hc hmatch h.honest
  refine ⟨hsession.toModelsHonest, ?_, fun x hx => modelOf_final _ (h.shadows x hx)⟩
  unfold SessionMatches
  rw [hsession.embedder, hsession.active]
  exact modelOf_final _ h.session

theorem Aligned.modelsMatch {opened : List (ℤ × Embedder)} (h : Aligned opened w) {c : Call}
    {calls : List Call} (hregistered : Registered w c) (hopened : ReindexesOpened opened (c :: calls)) :
    ModelsMatch w c := by
  cases c with
  | reindexInto generation embedder recordIds => exact h.shadows _ hopened.1
  | updateMemory recordId content status =>
    cases content with
    | none => trivial
    | some text => exact h.session
  | writeRecord record generation =>
    cases generation with
    | none => exact h.session
    | some generation => exact hregistered
  | writeEvent | writeMemory | supersedeMemory | correct => exact h.session
  | enqueue op => exact hregistered
  | _ => trivial

theorem session_openWith {embedder : Embedder} {custom : Bool}
    (hfree : Free w.db (sessionGeneration custom) embedder.modelId) :
    SessionMatches (after s w (.openWith embedder custom)) := by
  let opened := apply .recover (apply (.memory fun m =>
    ⟨∅, ∅, ∅, embedder, sessionGeneration custom, m.faults, m.calls⟩) w)
  have hopened : Free opened.db (sessionGeneration custom) embedder.modelId := hfree
  exact modelOf_register hopened .active

theorem aligned_run {opened : List (ℤ × Embedder)} (h : Aligned opened w) {calls : List Call}
    (hopened : ReindexesOpened opened calls) (hregistered : Along (after s) Registered w calls) :
    Along (after s) ModelsMatch w calls := by
  induction calls generalizing opened w with
  | nil => trivial
  | cons c calls ih =>
    have hmatch := h.modelsMatch hregistered.1 hopened
    have hhonest := honest_call (s := s) hmatch h.honest
    have hkept : ∀ x ∈ opened, modelOf (after s w c).db x.1 = some x.2.modelId := fun x hx =>
      modelOf_final _ (h.shadows x hx)
    refine ⟨hmatch, ?_⟩
    cases c with
    | openWith embedder custom =>
      exact ih ⟨hhonest, session_openWith hregistered.1, hkept⟩ hopened hregistered.2
    | openShadowGeneration generation embedder =>
      have hshadows : ∀ x ∈ (generation, embedder) :: opened,
          modelOf (after s w (.openShadowGeneration generation embedder)).db x.1 =
            some x.2.modelId := by
        intro x hx
        rcases List.mem_cons.mp hx with rfl | hx
        · exact modelOf_register hregistered.1 .shadow
        · exact hkept x hx
      exact ih ⟨hhonest, modelOf_final _ h.session, hshadows⟩ hopened hregistered.2
    | promoteGeneration generation =>
      exact ih ⟨hhonest, modelOf_final _ hregistered.1, hkept⟩ hopened hregistered.2
    | reindexInto generation embedder recordIds =>
      exact ih (h.session_call rfl hmatch) hopened.2 hregistered.2
    | _ => exact ih (h.session_call rfl hmatch) hopened hregistered.2

theorem honest_started (hstart : Started w) : ModelsHonest w where
  queued row hrow := by
    rw [hstart.db] at hrow
    exact absurd hrow List.not_mem_nil
  stored name key rec hrec := by
    have hnone : (w.memory.store name).byKey.get? key = none := by
      unfold Memory.store
      rw [hstart.vectors]
      rfl
    rw [hnone] at hrec
    exact absurd hrec (by simp)

/-- In every run in which what is embedded has the model of the generation it is written
to, all payloads and vectors have the model that the table records; and it has it in a run
whose sessions and shadows take free numbers, that reindexes with the embedder of the
shadow, and that promotes generations of the session's model. -/
theorem models_honest (s : Strata) {w : World Memory} (hstart : Started w) :
    (∀ calls, Along (after s) ModelsMatch w calls → AfterEach (after s) ModelsHonest w calls) ∧
    ∀ embedder custom calls, ReindexesOpened [] calls →
      Along (after s) Registered w (.openWith embedder custom :: calls) →
      Along (after s) ModelsMatch w (.openWith embedder custom :: calls) := by
  have hhonest := honest_started hstart
  refine ⟨fun calls hmatch => ?_, fun embedder custom calls hopened hregistered => ⟨trivial, ?_⟩⟩
  · exact afterEach_of_along (fun _ _ _ hw hc => honest_call hc hw) hhonest hmatch
  · have hfirst : ModelsHonest (after s w (.openWith embedder custom)) :=
      honest_call (c := .openWith embedder custom) trivial hhonest
    exact aligned_run ⟨hfirst, session_openWith hregistered.1, fun _ hx => absurd hx List.not_mem_nil⟩ hopened
      hregistered.2

end Calls

def otherEmbedder : Embedder where
  modelId := "doubled"
  dim := 1
  embed text := [2 * text.length]

theorem models_honest_migrated :
    let calls : List Call := [.openWith plainEmbedder false, .writeMemory "tea" {},
      .openShadowGeneration 2 otherEmbedder, .reindexInto 2 otherEmbedder [1],
      .openWith otherEmbedder true, .writeMemory "milk" {}]
    AfterEach (after plainStrata) ModelsHonest plainWorld calls := by
  intro calls
  have h := models_honest plainStrata started_plainWorld
  refine h.1 calls (h.2 plainEmbedder false _ ⟨List.mem_singleton_self _, trivial⟩ ?_)
  have hnone : ∀ {o : Option String} {modelId : String}, o = none →
      ∀ other, o = some other → other = modelId := by
    rintro _ _ rfl _ h
    cases h
  refine ⟨hnone (by decide), trivial, hnone (by decide), trivial, fun other hother => ?_, trivial,
    trivial⟩
  have hmodel : modelOf (runCalls plainStrata plainWorld (calls.take 4)).db 2 =
      some "doubled" := by decide
  exact (Option.some.inj (hmodel.symm.trans hother)).symm

/-- Two custom embedders share generation 2: the second writes under the first one's name. -/
theorem second_model_unrecorded :
    let w := runCalls plainStrata plainWorld [.openWith plainEmbedder true,
      .openWith otherEmbedder true, .writeMemory "tea" {}]
    modelOf w.db 2 = some "length" ∧
      (∃ rec, (w.memory.store "hot").byKey.get? (1, 2) = some rec ∧
        rec.embeddingModelId = "doubled") ∧ ¬ ModelsHonest w := by
  refine ⟨by decide, ⟨_, rfl, rfl⟩, fun h => ?_⟩
  have hstored := h.stored "hot" (1, 2) _ rfl
  exact absurd hstored (by unfold RecordedFor; decide)

end StrataMemory.VectorModels
