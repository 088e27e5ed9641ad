import StrataMemory.DeletionMachine
import StrataMemory.Engine

set_option autoImplicit false

namespace StrataMemory.DeletionInvariants
open KeyedTables Records Tables Procedures Worlds Coordinator CoordinatorRuns
open ManagedSurfaces DeletionFlows DeletionMachine Engine

variable {V : Type}

/-- An invariant kept by every commit of a deletion job and by every surface. -/
structure DeletionInvariant (svc : DeletionService V) (jobId : OpId) (ids : List RecordId)
    (mode : DeletionMode) (I : World V → Prop) : Prop where
  clock : ∀ w, I w → I (apply .readClock w)
  mark : ∀ id ∈ ids, ∀ state verifiedAt w, I w → I (apply (.setTombstoneState id state verifiedAt) w)
  ack : ∀ id name success w, I w → I (apply (.recordIndexAck id name jobId success) w)
  erase : mode = .hard → ∀ id ∈ ids, ∀ w, I w → I (apply (.hardDelete id) w)
  rebuild : mode = .hard → ∀ w, I w → I (apply .rebuildPostings w)
  remove : ∀ s ∈ svc.registry, (s.remove ids).Preserves I
  absent : ∀ s ∈ svc.registry, ∀ id, (s.absent id).Preserves I

theorem preserves_purgeInto {registry : Registry V} {ids : List RecordId} {I : World V → Prop}
    (hremove : ∀ s ∈ registry, (s.remove ids).Preserves I) (report : Report) :
    (purgeInto ids registry report).Preserves I := by
  induction registry generalizing report with
  | nil => exact Proc.Preserves.pure _
  | cons s rest ih =>
    refine Proc.Preserves.bind (Proc.Preserves.perform fun _ hw => hw) fun _ => ?_
    exact (hremove s List.mem_cons_self).bind fun perId =>
      ih (fun t ht => hremove t (List.mem_cons_of_mem _ ht)) _

theorem preserves_absences {s : ManagedSurface V} {I : World V → Prop}
    (habsent : ∀ id, (s.absent id).Preserves I) (ids : List RecordId) :
    (absences s ids).Preserves I := by
  induction ids with
  | nil => exact Proc.Preserves.pure _
  | cons id rest ih => exact (habsent id).bind fun _ => ih.bind fun _ => Proc.Preserves.pure _

theorem preserves_verifyInto {registry : Registry V} {I : World V → Prop}
    (habsent : ∀ s ∈ registry, ∀ id, (s.absent id).Preserves I) (ids : List RecordId)
    (report : Report) : (verifyInto ids registry report).Preserves I := by
  induction registry generalizing report with
  | nil => exact Proc.Preserves.pure _
  | cons s rest ih =>
    exact (preserves_absences (habsent s List.mem_cons_self) ids).bind fun perId =>
      ih (fun t ht => habsent t (List.mem_cons_of_mem _ ht)) _

theorem preserves_canonicallyGone (I : World V → Prop) (mode : DeletionMode)
    (ids : List RecordId) : (canonicallyGone mode ids : Prog V Bool).Preserves I := by
  induction ids with
  | nil => exact Proc.Preserves.pure _
  | cons id rest ih =>
    unfold canonicallyGone
    refine Proc.Preserves.bind (Proc.Preserves.read _) fun b => ?_
    split
    · exact Proc.Preserves.pure _
    · split
      · refine Proc.Preserves.bind (Proc.Preserves.read _) fun r => ?_
        split
        · exact Proc.Preserves.pure _
        · exact ih
      · exact ih

section Deletions
variable {svc : DeletionService V} {jobId : OpId} {ids : List RecordId} {mode : DeletionMode}
  {I : World V → Prop}

theorem DeletionInvariant.markAll (h : DeletionInvariant svc jobId ids mode I)
    (state : DeletionState) (verifiedAt : Option Time) :
    (markAll ids state verifiedAt).Preserves I :=
  Proc.Preserves.forM _ _ fun id hid => Proc.Preserves.perform (h.mark id hid state verifiedAt)

theorem DeletionInvariant.hardErase (h : DeletionInvariant svc jobId ids mode I)
    (hmode : mode = .hard) : (hardErase svc ids).Preserves I := by
  refine Proc.Preserves.bind (Proc.Preserves.forM _ _ fun id hid =>
    Proc.Preserves.perform (h.erase hmode id hid)) fun _ => ?_
  split
  · exact Proc.Preserves.perform (h.rebuild hmode)
  · exact Proc.Preserves.pure _

theorem DeletionInvariant.verifyNotRetrievable (h : DeletionInvariant svc jobId ids mode I) :
    (verifyNotRetrievable svc.registry ids mode).Preserves I := by
  refine (preserves_verifyInto h.absent ids ∅).bind fun results => ?_
  split
  · exact Proc.Preserves.pure _
  · exact preserves_canonicallyGone I mode ids

theorem DeletionInvariant.purgeRound (h : DeletionInvariant svc jobId ids mode I) :
    (purgeRound svc jobId ids mode).Preserves I := by
  unfold DeletionFlows.purgeRound
  refine (h.markAll _ _).bind fun _ => (preserves_purgeInto h.remove ∅).bind fun report => ?_
  refine Proc.Preserves.bind (Proc.Preserves.forM _ _ fun _ _ => Proc.Preserves.forM _ _ fun _ _ =>
    Proc.Preserves.perform (h.ack _ _ _)) fun _ => ?_
  have hconfirm : Proc.Preserves I (do
      if !(← DeletionFlows.verifyNotRetrievable svc.registry ids mode) then return false
      let now ← nowMs
      DeletionFlows.markAll ids .verified (some now)
      return true : Prog V Bool) := by
    refine h.verifyNotRetrievable.bind fun b => ?_
    split
    · exact Proc.Preserves.pure _
    · refine Proc.Preserves.bind (Proc.Preserves.performing _ h.clock) fun now => ?_
      exact (h.markAll _ _).bind fun _ => Proc.Preserves.pure _
  split
  · exact Proc.Preserves.pure _
  · dsimp only
    split
    · rename_i hmode
      exact (h.hardErase hmode).bind fun _ => hconfirm
    · exact hconfirm

theorem DeletionInvariant.purgeAndVerify (h : DeletionInvariant svc jobId ids mode I)
    (retries : ℕ) : (purgeAndVerify svc jobId ids mode retries).Preserves I := by
  induction retries with
  | zero =>
    refine h.purgeRound.bind fun b => ?_
    split
    · exact Proc.Preserves.pure _
    · exact h.markAll _ _
  | succ retries ih =>
    refine h.purgeRound.bind fun b => ?_
    split
    · exact Proc.Preserves.pure _
    · exact (h.markAll _ _).bind fun _ => ih

end Deletions

/-- A request is its tombstones, then the loop. -/
theorem requestDeletion_final (svc : DeletionService V) (recordId : RecordId)
    (mode : DeletionMode) (includeDependents : Bool) (w : World V) :
    (requestDeletion svc recordId mode includeDependents).final w =
      (purgeAndVerify svc w.operationIds (covered w.db recordId includeDependents) mode
        svc.maxRetries).final
        ((tombstoneAll (covered w.db recordId includeDependents) mode w.operationIds).final
          (apply .newOperationId w)) := by
  let ids := covered w.db recordId includeDependents
  change (tombstoneAll ids mode w.operationIds >>= fun _ =>
    purgeAndVerify svc w.operationIds ids mode svc.maxRetries >>= fun _ =>
      pure w.operationIds).final (apply .newOperationId w) = _
  rw [Proc.final_bind_ok (tombstoneAll_run ids mode w.operationIds _)]
  exact Proc.final_bind_pure _ (fun _ => w.operationIds) _

theorem requestDeletion_keeps {svc : DeletionService V} {recordId : RecordId}
    {mode : DeletionMode} {includeDependents : Bool} {w : World V} {I : World V → Prop}
    (hdraw : I (apply .newOperationId w))
    (htombstone : ∀ id ∈ covered w.db recordId includeDependents, ∀ t, I t →
      I (apply (.tombstone id mode w.operationIds .canonicalTombstoned) t))
    (h : DeletionInvariant svc w.operationIds (covered w.db recordId includeDependents) mode I) :
    I ((requestDeletion svc recordId mode includeDependents).final w) := by
  rw [requestDeletion_final]
  refine h.purgeAndVerify _ _ ?_
  exact Proc.Preserves.forM _ _ (fun id hid => Proc.Preserves.perform (htombstone id hid)) _ hdraw

theorem retry_final (svc : DeletionService V) (jobId : OpId) (w : World V) :
    (retry svc jobId).final w = match retryTarget w.db jobId with
      | none => w
      | some (ids, mode) => (purgeAndVerify svc jobId ids mode svc.maxRetries).final w := by
  change (match retryTarget w.db jobId with
    | none => (raise .keyError : Prog V OpId)
    | some (ids, mode) =>
      purgeAndVerify svc jobId ids mode svc.maxRetries >>= fun _ => pure jobId).final w = _
  cases retryTarget w.db jobId with
  | none => rfl
  | some target => exact Proc.final_bind_pure _ _ _

theorem retryTarget_tombstoned {db : Db} {jobId : OpId} {ids : List RecordId}
    {mode : DeletionMode} (h : retryTarget db jobId = some (ids, mode)) :
    ids ≠ [] ∧ ∀ id ∈ ids, db.isTombstoned id = true := by
  unfold retryTarget at h
  cases hrows : jobRows db jobId with
  | nil =>
    rw [hrows] at h
    cases h
  | cons row rows =>
    rw [hrows] at h
    cases h
    refine ⟨List.cons_ne_nil _ _, fun id hid => ?_⟩
    rw [← hrows] at hid
    obtain ⟨⟨_, t⟩, ht, rfl⟩ := List.mem_map.mp hid
    unfold jobRows at ht
    rw [mem_sortBy, List.mem_filter, Table.mem_entries] at ht
    exact Table.contains_of_get? ht.1

/-- An invariant of the queue that purging the ids from the engine's surfaces keeps. -/
structure PurgeInvariant (e : MemoryEngine) (ids : List RecordId) (I : World Memory → Prop)
    (Allowed : Operation → Prop) : Prop extends QueueInvariant e.coordinator I Allowed where
  unpost : ∀ w, I w → I (apply (.removePostings ids) w)
  draw : ∀ w, I w → I (apply .newOperationId w)
  enqueueRemoval : ∀ name opId w, I w →
    I (apply (.enqueue ⟨.removeIndex, ids, some name, none, none, opId⟩) w)
  dropArtifacts : ∀ w, I w →
    I (apply (.memory fun m => { m with artifacts := m.artifacts.eraseAll ids }) w)

section Surfaces
variable {e : MemoryEngine} {ids : List RecordId} {I : World Memory → Prop}
  {Allowed : Operation → Prop}

theorem PurgeInvariant.remove (h : PurgeInvariant e ids I Allowed) :
    ∀ s ∈ e.registry, (s.remove ids).Preserves I := by
  intro s hs
  rcases List.mem_append.mp hs with hs | hs
  · rcases List.mem_cons.mp hs with rfl | hs
    · refine Proc.Preserves.bind ?_ fun _ => Proc.Preserves.read _
      unfold CanonicalStore.removePostings
      split
      · exact Proc.Preserves.pure _
      · exact Proc.Preserves.perform h.unpost
    · obtain ⟨name, _, rfl⟩ := List.mem_map.mp hs
      refine Proc.Preserves.bind (Proc.Preserves.performing _ h.draw) fun opId => ?_
      refine Proc.Preserves.bind
        ((Proc.Preserves.perform (h.enqueueRemoval name opId)).bind fun _ => Proc.Preserves.pure _)
        fun _ => ?_
      exact (h.toQueueInvariant.drain maxSteps).bind fun _ => Proc.Preserves.read _
  · cases List.mem_singleton.mp hs
    exact Proc.Preserves.bind (Proc.Preserves.perform h.dropArtifacts) fun _ =>
      Proc.Preserves.read _

theorem preserves_absent (e : MemoryEngine) (I : World Memory → Prop) :
    ∀ s ∈ e.registry, ∀ id, (s.absent id).Preserves I := by
  intro s hs id
  rcases List.mem_append.mp hs with hs | hs
  · rcases List.mem_cons.mp hs with rfl | hs
    · exact Proc.Preserves.read fun w : World Memory => !w.db.hasPosting id
    · obtain ⟨name, _, rfl⟩ := List.mem_map.mp hs
      exact Proc.Preserves.read _
  · cases List.mem_singleton.mp hs
    exact Proc.Preserves.read _

theorem PurgeInvariant.purge (h : PurgeInvariant e ids I Allowed) :
    (purge e.registry ids).Preserves I :=
  preserves_purgeInto h.remove ∅

theorem PurgeInvariant.deletion (h : PurgeInvariant e ids I Allowed) {jobId : OpId}
    {mode : DeletionMode}
    (hmark : ∀ id ∈ ids, ∀ state verifiedAt w, I w →
      I (apply (.setTombstoneState id state verifiedAt) w))
    (herase : mode = .hard → ∀ id ∈ ids, ∀ w, I w → I (apply (.hardDelete id) w))
    (hrebuild : mode = .hard → ∀ w, I w → I (apply .rebuildPostings w)) :
    DeletionInvariant e.deletion jobId ids mode I where
  clock := h.clock
  mark := hmark
  ack id name := h.ack id name jobId
  erase := herase
  rebuild := hrebuild
  remove := h.remove
  absent := preserves_absent e I

end Surfaces
end StrataMemory.DeletionInvariants
