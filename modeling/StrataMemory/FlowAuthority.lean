import StrataMemory.CrashedCalls
import StrataMemory.IdleCalls

set_option autoImplicit false

namespace StrataMemory.FlowAuthority
open KeyedTables Records Tables Procedures Worlds CommitEffects Coordinator CoordinatorRuns
open CanonicalStore ManagedSurfaces SurfaceRounds DeletionFlows DeletionMachine DeletionInvariants
open VerifiedDeletions FlowInvariants IndexAgreement IdleFlows IdleCalls CrashedCalls Engine Gateway
open NodeRuns

section Flows
variable {e : MemoryEngine} {w t : World Memory}

theorem authority_bind {α β : Type} {p : Prog Memory α} {f : α → Prog Memory β}
    (hf : ∀ a, (f a).Uses fun c => isPurgeWork c = true) (w : World Memory) :
    authority ((p >>= f).final w) = authority (p.final w) := by
  unfold Proc.final
  rw [Proc.run_bind]
  rcases p.run w with ⟨_ | a, t⟩
  · rfl
  · exact authority_purgeWork (hf a) t

/-- The commits by which a flow queues its upserts and drains the queue. -/
def isUpsertWork : Commit Memory → Bool
  | .newOperationId | .enqueue _ => true
  | c => isQueueWork c

theorem isPurgeWork_of_isUpsertWork {c : Commit Memory} (h : isUpsertWork c = true) :
    isPurgeWork c = true := by
  cases c <;> first | rfl | cases h

theorem enqueueVectorUpsert_uses (r : MemoryRecord) (generation : ℤ) :
    (e.enqueueVectorUpsert r generation).Uses fun c => isUpsertWork c = true := by
  refine Proc.Uses.bind (Proc.uses_read _ _) fun embedder => Proc.Uses.forM _ _ fun name _ => ?_
  refine Proc.Uses.bind ((Proc.uses_performing _ _ _).mpr rfl) fun opId => ?_
  exact Proc.Uses.bind (Proc.Uses.bind ((Proc.uses_perform _ _).mpr rfl) fun _ => trivial)
    fun _ => trivial

theorem afterWrite_uses (written : MemoryRecord) (generation : ℤ) :
    (afterWrite e written generation).Uses fun c => isUpsertWork c = true := by
  refine (enqueueVectorUpsert_uses written generation).bind fun _ => ?_
  refine Proc.Uses.bind ((drain_uses e.coordinator maxSteps).mono fun c hc => ?_) fun _ => trivial
  cases c <;> first | rfl | cases hc

theorem afterWrite_quiet (written : MemoryRecord) (generation : ℤ) :
    (afterWrite e written generation).Uses fun c => isPurgeWork c = true :=
  (afterWrite_uses written generation).mono fun _ => isPurgeWork_of_isUpsertWork

theorem authority_writeMemory (e : MemoryEngine) (r : MemoryRecord) (generation : Option ℤ)
    (w : World Memory) :
    authority ((e.writeMemory r generation).final w) = authority (apply (.write r) w) := by
  obtain ⟨row, hrun, _⟩ := write_row r w
  unfold MemoryEngine.writeMemory
  rw [Proc.final_bind_ok (Proc.run_read _ w), Proc.final_bind_ok hrun]
  refine authority_purgeWork (Proc.Uses.bind ((Proc.uses_perform _ _).mpr rfl) fun _ => ?_) _
  exact afterWrite_quiet row _

/-- The edge is refused, or the rest of the correction is the work of the indexes. -/
theorem authority_correct (e : MemoryEngine) (oldId : RecordId) (r : MemoryRecord)
    (w : World Memory) : authority ((e.correct oldId r).final w) =
      authority (apply (.addDependency r.id oldId .supersedes) (unlinked oldId r w)) := by
  obtain ⟨row, hrun, _, hid, _⟩ := write_row r w
  have hcorrect := congrArg Prod.snd (correct_run (e := e) oldId hrun)
  have hedge := addDependency_run (V := Memory) row.id oldId .supersedes (unlinked oldId r w)
  rw [Proc.final, hcorrect]
  refine (authority_bind (fun _ => ?_) _).trans ?_
  · refine Proc.Uses.bind ((Proc.uses_perform _ _).mpr rfl) fun _ => ?_
    refine Proc.Uses.bind (purgeInto_uses (engine_lawful e) [oldId] ∅) fun _ => ?_
    exact Proc.Uses.bind (Proc.uses_read _ _) fun active => afterWrite_quiet row active
  · rw [Proc.final_of_run hedge, hid]

theorem readOne_correct (e : MemoryEngine) (oldId : RecordId) {row r : MemoryRecord}
    (hrows : (apply (.write r) w).db.readOne = Function.update w.db.readOne r.id (some row)) :
    ((e.correct oldId r).final w).db.readOne = Function.update
      (Function.update w.db.readOne r.id (some row)) oldId
      ((Function.update w.db.readOne r.id (some row) oldId).map fun old =>
        { old with status := .superseded, updatedAt := (apply (.write r) w).now }) := by
  rw [readOne_of_authority (authority_correct e oldId r w), readOne_addDependency,
    readOne_unlinked oldId hrows]

/-- An invariant of the authoritative tables that reflection, deletion jobs and a new
process keep: records are superseded only where they are not tombstoned. -/
structure AuthorityInvariant (I : World Memory → Prop) : Prop where
  same : ∀ w t, authority t = authority w → I w → I t
  supersede : ∀ id w, w.db.isTombstoned id = false → I w → I (apply (.setStatus id .superseded) w)
  link : ∀ parentId childId w, I w → I (apply (.addDependency parentId childId .supersedes) w)
  mark : ∀ id state verifiedAt w, I w → I (apply (.setTombstoneState id state verifiedAt) w)
  erase : ∀ id w, I w → I (apply (.hardDelete id) w)

namespace AuthorityInvariant
variable {s : Strata} {I : World Memory → Prop}

theorem indexWork (h : AuthorityInvariant I) {c : Commit Memory} (hc : isIndexWork c = true) :
    ∀ w, I w → I (apply c w) :=
  fun w => h.same w _ (authority_apply hc w)

theorem supersedeDuplicates (h : AuthorityInvariant I) (primaryId : RecordId)
    (ids : List RecordId) : (MemoryEngine.supersedeDuplicates primaryId ids).Preserves I := by
  induction ids with
  | nil => exact Proc.Preserves.pure _
  | cons d rest ih =>
    intro w hw
    unfold Proc.final
    rw [MemoryEngine.supersedeDuplicates_cons]
    split
    · exact ih w hw
    · rename_i hlive
      have hnot : w.db.isTombstoned d = false := (by simpa using hlive : _ ∧ _).2
      have hrest : (CanonicalStore.addDependency primaryId d .supersedes >>= fun _ =>
          MemoryEngine.supersedeDuplicates primaryId rest >>= fun removed =>
            pure (d :: removed) : Prog Memory (List RecordId)).Preserves I :=
        (preserves_addDependency (h.link primaryId d)).bind fun _ =>
          ih.bind fun _ => Proc.Preserves.pure _
      exact hrest _ (h.supersede d w hnot hw)

theorem merging (h : AuthorityInvariant I) : MergingInvariant s I where
  draw := Proc.Preserves.performing _ (h.indexWork rfl)
  merge primaryId ids := by
    refine (h.supersedeDuplicates primaryId ids).bind fun removed => ?_
    split
    · exact Proc.Preserves.bind (fun w => h.same w _ (authority_purge (engine_lawful s.engine) _ w))
        fun _ => Proc.Preserves.pure _
    · exact Proc.Preserves.pure _
  propose _ := Proc.Preserves.perform (h.indexWork rfl)

theorem purgeAndVerify (h : AuthorityInvariant I) (jobId : OpId) (ids : List RecordId)
    (mode : DeletionMode) (retries : ℕ) :
    (purgeAndVerify e.deletion jobId ids mode retries).Preserves I := by
  refine DeletionInvariant.purgeAndVerify ?_ retries
  exact {
    clock := h.indexWork rfl
    mark := fun id _ => h.mark id
    ack := fun _ _ _ => h.indexWork rfl
    erase := fun _ id _ => h.erase id
    rebuild := fun _ => h.indexWork rfl
    remove := fun t ht => ((engine_lawful e t ht).remove_uses ids).preserves fun _ w hc =>
      h.indexWork hc w
    absent := preserves_absent e I }

theorem openWith (h : AuthorityInvariant I) (embedder : Embedder) (custom : Bool) :
    (Strata.openWith embedder custom).Preserves I := by
  refine Proc.Preserves.bind (Proc.Preserves.perform (h.indexWork rfl)) fun _ => ?_
  refine Proc.Preserves.bind (Proc.Preserves.perform (h.indexWork rfl)) fun _ => ?_
  exact Proc.Preserves.perform fun w => h.same w _ (authority_registerGeneration ..)

/-- The calls of the gateway that write no record, make no link and request no deletion. -/
def isUpkeep : Call → Bool
  | .openWith .. | .consolidate | .contradictionAudit | .applyProposal _ | .rejectProposal _ => true
  | _ => false

theorem upkeep (h : AuthorityInvariant I) {c : Call} (hc : isUpkeep c = true) {w : World Memory}
    (hw : I w) : I (after s w c) := by
  have hmerging : MergingInvariant s I := h.merging
  cases c with
  | openWith embedder custom => exact h.openWith embedder custom w hw
  | consolidate => exact hmerging.consolidate.discard w hw
  | contradictionAudit => exact hmerging.contradictionAudit.discard w hw
  | applyProposal id => exact hmerging.applyProposal id w hw
  | rejectProposal id => exact hmerging.rejectProposal id w hw
  | _ => cases hc

end AuthorityInvariant

section Calls
variable {s : Strata}

structure Made (p : Platform) (content : String) (fields : Fields) (w : World Memory)
    (r : MemoryRecord) : Prop where
  id : r.id = createdId fields w
  status : r.status = fields.status
  content : r.content = content
  sensitivity : r.sensitivity = fields.sensitivity
  confidence : r.confidence = fields.confidence

theorem made (p : Platform) (content : String) (fields : Fields) (w : World Memory) :
    ∃ r u, (CanonicalStore.create p content fields : Prog Memory MemoryRecord).run w = (.ok r, u) ∧
      Made p content fields w r ∧ u.db = w.db := by
  obtain ⟨recordType, tier, status, id, recordSubtype, confidence, confidenceReason, salience,
    sensitivity, embeddingModelId, embeddingGeneration, validFrom, validUntil, createdAt, updatedAt,
    currentVersionId, modelSide⟩ := fields
  cases id <;> cases createdAt <;> cases updatedAt <;> exact ⟨_, _, rfl, ⟨rfl, rfl, rfl, rfl, rfl⟩, rfl⟩

theorem authority_created (content : String) (fields : Fields) (w : World Memory) :
    ∃ (r : MemoryRecord) (u : World Memory), Made s.engine.platform content fields w r ∧ u.db = w.db ∧
      authority ((create s.engine.platform content fields >>= fun r =>
        s.engine.writeMemory r none).final w) = authority (apply (.write r) u) := by
  obtain ⟨r, u, hrun, hmade, hdb⟩ := made s.engine.platform content fields w
  refine ⟨r, u, hmade, hdb, ?_⟩
  rw [Proc.final_bind_ok hrun]
  exact authority_writeMemory s.engine r none u

theorem authority_supersede (oldId : RecordId) (content : String) (fields : Fields)
    (w : World Memory) :
    ∃ (r : MemoryRecord) (u : World Memory), Made s.engine.platform content fields w r ∧ u.db = w.db ∧
      authority (after s w (.supersedeMemory oldId content fields)) =
        authority (apply (.addDependency r.id oldId .supersedes) (unlinked oldId r u)) := by
  obtain ⟨r, u, hrun, hmade, hdb⟩ := made s.engine.platform content fields w
  refine ⟨r, u, hmade, hdb, ?_⟩
  rw [after_supersede oldId hrun]
  exact authority_correct s.engine oldId r u

/-- An update of the content rewrites the row that it has read. -/
theorem authority_rewrite {recordId : RecordId} {old : MemoryRecord}
    (h : w.db.readOne recordId = some old) (text : String) (status : Option Status) :
    ∃ u : World Memory, authority u = authority w ∧
      authority (after s w (.updateMemory recordId (some text) status)) =
        authority (apply (.write { old with
          content := text, contentHash := s.engine.platform.contentHash text,
          updatedAt := (apply (.removePostings [recordId]) w).now }) u) := by
  let v := apply (.removePostings [recordId]) w
  let r : MemoryRecord := { old with
    content := text, contentHash := s.engine.platform.contentHash text, updatedAt := v.now }
  refine ⟨apply .readClock v, rfl, ?_⟩
  have hrun : (CanonicalStore.removePostings [recordId] >>= fun _ =>
      withContent s.engine.platform old text : Prog Memory MemoryRecord).run w =
        (.ok r, apply .readClock v) := rfl
  have hafter : after s w (.updateMemory recordId (some text) status) =
      (s.engine.writeMemory r none).final (apply .readClock v) := by
    rw [after_update, h]
    change ((CanonicalStore.removePostings [recordId] >>= fun _ =>
      withContent s.engine.platform old text >>= fun updated =>
        s.engine.writeMemory updated none >>= fun _ => summary recordId).final w) = _
    rw [← bind_assoc, Proc.final_bind_ok hrun]
    exact final_summary _ _ _
  rw [hafter]
  exact authority_writeMemory s.engine r none _

end Calls
end Flows
end StrataMemory.FlowAuthority
