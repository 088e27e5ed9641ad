import StrataMemory.FlowInvariants
import StrataMemory.HandlerEffects
import StrataMemory.VerifiedDeletions

set_option autoImplicit false

namespace StrataMemory.BuriedRecords
open KeyedTables Records Tables Procedures Worlds CommitEffects Coordinator CoordinatorRuns
open HandlerEffects DeletionFlows DeletionMachine DeletionInvariants VerifiedDeletions
open FlowInvariants Engine Gateway NodeRuns

def upsertsInto (e : MemoryEngine) (op : Operation) : Prop :=
  op.opType = .upsertIndex ∧ ∃ name ∈ e.vectorNames, op.target = some name

def Unburdened (e : MemoryEngine) (ids : List RecordId) (op : Operation) : Prop :=
  upsertsInto e op → ∀ rec ∈ op.records, rec.id ∉ ids

/-- No upsert still in the queue carries a vector record of the ids. -/
def Drained (e : MemoryEngine) (ids : List RecordId) (w : World Memory) : Prop :=
  ∀ row ∈ w.db.opLog.rows, row.isLive = true → Unburdened e ids row.operation

instance (e : MemoryEngine) (op : Operation) : Decidable (upsertsInto e op) :=
  inferInstanceAs (Decidable (op.opType = .upsertIndex ∧
    ∃ name ∈ e.vectorNames, op.target = some name))

instance (e : MemoryEngine) (ids : List RecordId) (w : World Memory) :
    Decidable (Drained e ids w) :=
  inferInstanceAs (Decidable (∀ row ∈ w.db.opLog.rows, row.isLive = true →
    upsertsInto e row.operation → ∀ rec ∈ row.operation.records, rec.id ∉ ids))

/-- The ids are absent from every surface, erased rows stay away, and the queue holds
nothing that would bring them back. -/
structure Buried (e : MemoryEngine) (ids : List RecordId) (mode : DeletionMode)
    (w : World Memory) : Prop extends Absent e ids w where
  erased : mode = .hard → ∀ id ∈ ids, w.db.readOne id = none
  drained : Drained e ids w

variable {e : MemoryEngine} {ids : List RecordId} {mode : DeletionMode} {w : World Memory}

theorem Buried.of_eq {u : World Memory} (h : Buried e ids mode w)
    (hcanonical : u.db.canonical = w.db.canonical) (hpostings : u.db.postings = w.db.postings)
    (hmemory : u.memory = w.memory) (hlog : Drained e ids u) : Buried e ids mode u where
  posting id hid := by
    unfold Db.hasPosting
    rw [hpostings]
    exact h.posting id hid
  vector id hid name hname := by
    rw [hmemory]
    exact h.vector id hid name hname
  artifact id hid := by
    rw [hmemory]
    exact h.artifact id hid
  erased hmode id hid := by
    unfold Db.readOne
    rw [hcanonical]
    exact h.erased hmode id hid
  drained := hlog

theorem Buried.of_rows {u : World Memory} (h : Buried e ids mode w)
    (hrows : ∀ id ∈ ids, w.db.readOne id = none → u.db.readOne id = none)
    (hpostings : u.db.postings = w.db.postings) (hmemory : u.memory = w.memory)
    (hlog : u.db.opLog = w.db.opLog) : Buried e ids mode u where
  posting id hid := by
    unfold Db.hasPosting
    rw [hpostings]
    exact h.posting id hid
  vector id hid name hname := by
    rw [hmemory]
    exact h.vector id hid name hname
  artifact id hid := by
    rw [hmemory]
    exact h.artifact id hid
  erased hmode id hid := hrows id hid (h.erased hmode id hid)
  drained := by
    unfold Drained
    rw [hlog]
    exact h.drained

theorem presentAfter_unburdened {name : String} {op : Operation} {id : RecordId}
    (hname : name ∈ e.vectorNames) (htarget : op.target = some name) (hid : id ∈ ids)
    (h : Unburdened e ids op) : presentAfter op id false = false := by
  unfold presentAfter
  cases htype : op.opType with
  | upsertIndex =>
    dsimp only
    rw [Bool.or_false, List.any_eq_false]
    intro rec hrec he
    exact h ⟨htype, name, hname, htarget⟩ rec hrec (of_decide_eq_true he ▸ hid)
  | removeIndex | hardPurge => exact Bool.and_false _
  | tombstone | reindexPromote => rfl

theorem Buried.handled (h : Buried e ids mode w) {name : String} {op : Operation}
    (hname : name ∈ e.vectorNames) (htarget : op.target = some name) (hop : Unburdened e ids op) :
    Buried e ids mode (apply (.memory fun m => (makeHandler name op m).2) w) where
  posting := h.posting
  vector id hid other hother := by
    refine (vectorContains_makeHandler name other op w.memory id).trans ?_
    split
    · rw [h.vector id hid name hname]
      exact presentAfter_unburdened hname htarget hid hop
    · exact h.vector id hid other hother
  artifact id hid := by
    refine Eq.trans ?_ (h.artifact id hid)
    change (makeHandler name op w.memory).2.artifacts.contains id = _
    unfold makeHandler
    split
    · rfl
    · dsimp only [applyToStore]
      cases op.opType <;> rfl
  erased := h.erased
  drained := h.drained

theorem buried_queue (s : Strata) (ids : List RecordId) (mode : DeletionMode) :
    QueueInvariant s.engine.coordinator (Buried s.engine ids mode)
      (Unburdened s.engine ids) where
  live _ hw := hw.drained
  clock _ hw := hw.of_eq rfl rfl rfl hw.drained
  ack _ _ _ _ _ hw := hw.of_eq rfl rfl rfl hw.drained
  progress b seq w hb hseq hw := by
    refine hw.of_eq ?_ ?_ ?_ ?_
    · cases b <;> first | rfl | cases hb
    · cases b <;> first | rfl | cases hb
    · exact memory_apply (by cases b <;> first | rfl | cases hb) w
    · cases b <;> cases hb <;> exact live_advance hw.drained hseq _
  handled name handler op w hhandler htarget hop hw := by
    obtain ⟨hname, rfl⟩ := handler_eq hhandler
    exact hw.handled hname htarget hop

theorem buried_flow (s : Strata) (ids : List RecordId) (mode : DeletionMode) :
    FlowInvariant s (fun id => id ∉ ids) (Buried s.engine ids mode)
      (Unburdened s.engine ids) where
  toQueueInvariant := buried_queue s ids mode
  flow c w hc hw := by
    cases hc with
    | readClock | newOperationId | newRecordId => exact hw.of_eq rfl rfl rfl hw.drained
    | @write r hr =>
      refine hw.of_rows (fun id hid hnone => ?_) rfl rfl rfl
      rw [readOne_write_of_ne fun he => hr (he ▸ hid)]
      exact hnone
    | @post rid content hrid =>
      refine ⟨⟨fun id hid => ?_, hw.vector, hw.artifact⟩, hw.erased, hw.drained⟩
      have hne : ¬ rid = id := fun he => hrid (he ▸ hid)
      refine (Table.contains_set _ _ _ _).trans ?_
      rw [decide_eq_false hne]
      exact hw.posting id hid
    | @upsert op hop => exact hw.of_eq rfl rfl rfl (live_append hw.drained (fun _ => hop) _)
    | edge parentId childId rel =>
      refine hw.of_rows (fun id hid hnone => Eq.trans ?_ hnone) rfl rfl rfl
      change (w.db.canonical.addDependency parentId childId rel).records.get? id = _
      unfold Canonical.addDependency
      split
      · split <;> rfl
      · rfl
    | status rid st =>
      refine hw.of_rows (fun id hid hnone => ?_) rfl rfl rfl
      change (w.db.canonical.records.modify rid _).get? id = none
      rw [Table.get?_modify]
      split
      · exact Option.map_eq_none_iff.mpr hnone
      · exact hnone
    | unpost others =>
      refine ⟨⟨fun id hid => ?_, hw.vector, hw.artifact⟩, hw.erased, hw.drained⟩
      refine (Table.contains_eraseAll _ _ _).trans ?_
      rw [show w.db.postings.contains id = false from hw.posting id hid, Bool.and_false]
    | dropArtifacts others =>
      refine ⟨⟨hw.posting, hw.vector, fun id hid => ?_⟩, hw.erased, hw.drained⟩
      refine (Table.contains_eraseAll _ _ _).trans ?_
      rw [hw.artifact id hid, Bool.and_false]
    | propose f => exact ⟨⟨hw.posting, hw.vector, hw.artifact⟩, hw.erased, hw.drained⟩

/-- A write, an update, a correction, a link or a reflection call that writes no content
under one of the ids: neither a given id nor the one the allocator would draw. -/
def Conforming (ids : List RecordId) (w : World Memory) : Call → Prop
  | .writeEvent _ _ fields => createdId fields w ∉ ids
  | .writeMemory _ fields => createdId fields w ∉ ids
  | .updateMemory recordId content _ =>
    content.isSome = true → (w.db.readOne recordId).isSome = true → recordId ∉ ids
  | .supersedeMemory _ _ fields => createdId fields w ∉ ids
  | .linkSource _ _ | .consolidate | .contradictionAudit | .applyProposal _ | .rejectProposal _ =>
    True
  | _ => False

inductive Continues (s : Strata) (ids : List RecordId) (u : World Memory) : World Memory → Prop where
  | here : Continues s ids u u
  | call {w : World Memory} (before : Continues s ids u w) (c : Call) (hc : Conforming ids w c) :
      Continues s ids u (after s w c)

theorem Buried.after {s : Strata} (h : Buried s.engine ids mode w) {c : Call}
    (hc : Conforming ids w c) : Buried s.engine ids mode (after s w c) := by
  have hflow := buried_flow s ids mode
  unfold NodeRuns.after
  cases c with
  | writeEvent content recordType fields =>
    unfold execute
    rw [Proc.final_discard]
    exact hflow.afterCreate _ _ _ (fun r hr => hflow.writeRecord hr none) h hc
  | writeMemory content fields =>
    unfold execute
    rw [Proc.final_discard]
    exact hflow.afterCreate _ _ _ (fun r hr => hflow.writeRecord hr none) h hc
  | updateMemory recordId content status =>
    unfold execute
    rw [Proc.final_discard]
    exact hflow.updateMemory recordId content status h hc
  | supersedeMemory oldId content fields =>
    unfold execute
    rw [Proc.final_discard]
    exact hflow.afterCreate _ _ _ (fun r hr => hflow.correct oldId hr _) h hc
  | linkSource derivedId sourceId => exact hflow.addDependency _ _ _ w h
  | consolidate => exact hflow.reflection.merging.consolidate.discard w h
  | contradictionAudit => exact hflow.reflection.merging.contradictionAudit.discard w h
  | applyProposal id => exact hflow.reflection.merging.applyProposal id w h
  | rejectProposal id => exact hflow.reflection.merging.rejectProposal id w h
  | _ => exact hc.elim

theorem Buried.run {s : Strata} {u : World Memory} (h : Buried s.engine ids mode u)
    (hrun : Continues s ids u w) : Buried s.engine ids mode w := by
  induction hrun with
  | here => exact h
  | call before c hc ih => exact ih.after hc

/-- A deletion job runs from `w` to `u` over the ids: a request, or a retry. -/
inductive Deletion (s : Strata) (w : World Memory) : List RecordId → DeletionMode →
    World Memory → Prop where
  | request (recordId : RecordId) (mode : DeletionMode) (includeDependents : Bool) :
      Deletion s w (covered w.db recordId includeDependents) mode
        ((requestDeletion s.engine.deletion recordId mode includeDependents).final w)
  | retry (jobId : OpId) {ids : List RecordId} {mode : DeletionMode}
      (target : retryTarget w.db jobId = some (ids, mode)) :
      Deletion s w ids mode ((retry s.engine.deletion jobId).final w)

theorem drained_purge (e : MemoryEngine) (ids purged : List RecordId) :
    PurgeInvariant e purged (Drained e ids) (Unburdened e ids) where
  live _ hw := hw
  clock _ hw := hw
  ack _ _ _ _ _ hw := hw
  progress b seq w hb hseq hw := by
    cases b <;> cases hb <;> exact live_advance hw hseq _
  handled _ _ _ _ _ _ _ hw := hw
  unpost _ hw := hw
  draw _ hw := hw
  enqueueRemoval name opId w hw := by
    refine live_append hw (fun hop => ?_) _
    cases hop.1
  dropArtifacts _ hw := hw

theorem drained_of_deletion {s : Strata} {u : World Memory} (h : Deletion s w ids mode u)
    (hdrained : Drained s.engine ids w) : Drained s.engine ids u := by
  have hjob : ∀ jobId, DeletionInvariant s.engine.deletion jobId ids mode
      (Drained s.engine ids) := fun jobId =>
    (drained_purge s.engine ids ids).deletion (fun _ _ _ _ _ ht => ht) (fun _ _ _ _ ht => ht)
      fun _ _ ht => ht
  cases h with
  | request recordId mode includeDependents =>
    exact requestDeletion_keeps hdrained (fun _ _ _ ht => ht) (hjob _)
  | retry jobId target =>
    rw [retry_final, target]
    exact (hjob jobId).purgeAndVerify _ w hdrained

theorem buried_of_deletion {s : Strata} {u : World Memory} (h : Deletion s w ids mode u)
    (hverified : EndsIn ids .verified u) (hdrained : Drained s.engine ids u) :
    Buried s.engine ids mode u := by
  have hv : ∃ v, Verified s.engine.deletion ids mode v u := by
    cases h with
    | request recordId mode includeDependents =>
      exact verified_of_request s.engine recordId mode includeDependents w hverified
    | retry jobId target =>
      obtain ⟨hids, htombstoned⟩ := retryTarget_tombstoned target
      rw [retry_final, target] at hverified ⊢
      exact verified_of_loop s.engine jobId hids mode w htombstoned hverified
  obtain ⟨v, hv⟩ := hv
  exact
    { toAbsent := absent_of_verified hv
      erased := fun hmode id hid => Table.get?_eq_none.mpr (hv.erased hmode id hid).record
      drained := hdrained }

/-- After a job that ended `VERIFIED` over a drained queue, later calls that write no
content under its ids leave the ids absent from every surface, and erased if they were. -/
theorem absent_under_conforming_calls (s : Strata) {w u v : World Memory} {ids : List RecordId}
    {mode : DeletionMode} (hdeletion : Deletion s w ids mode u) (hverified : EndsIn ids .verified u)
    (hdrained : Drained s.engine ids u) (hrun : Continues s ids u v) :
    Absent s.engine ids v ∧ (mode = .hard → ∀ id ∈ ids, v.db.readOne id = none) := by
  have hburied := (buried_of_deletion hdeletion hverified hdrained).run hrun
  exact ⟨hburied.toAbsent, hburied.erased⟩

theorem absent_after_other_writes :
    let w := runCalls plainStrata plainWorld [.writeMemory "tea" {}, .writeMemory "milk" {}]
    let u := (requestDeletion plainStrata.engine.deletion 1 .hard true).final w
    let v := after plainStrata (after plainStrata u (.updateMemory 2 (some "cream") none))
      (.writeMemory "salt" {})
    Absent plainStrata.engine (covered w.db 1 true) v ∧
      (DeletionMode.hard = .hard → ∀ id ∈ covered w.db 1 true, v.db.readOne id = none) :=
  absent_under_conforming_calls plainStrata (.request 1 .hard true) (by decide) (by decide)
    (.call (.call .here _ (by unfold Conforming; decide)) _ (by unfold Conforming; decide))

/-- A record is deleted logically, verified, and updated: it is indexed again while its
job still reads `VERIFIED`. One is erased, verified, and written again under its id. -/
theorem verified_deletion_undone :
    let w := runCalls plainStrata plainWorld
      [.writeMemory "tea" {}, .requestDeletion 1 .logical true]
    let u := after plainStrata w (.updateMemory 1 (some "milk") none)
    let w' := runCalls plainStrata plainWorld [.writeMemory "tea" {}, .requestDeletion 1 .hard true]
    let u' := after plainStrata w' (.writeMemory "tea" { id := some 1 })
    Reachable plainStrata w ∧ Reachable plainStrata w' ∧ EndsIn [1] .verified w ∧
      EndsIn [1] .verified u ∧ u.db.postings.get? 1 = some "milk" ∧
      Memory.vectorContains "hot" u.memory 1 = true ∧ EndsIn [1] .verified w' ∧
      w'.db.readOne 1 = none ∧ (u'.db.readOne 1).isSome = true :=
  ⟨⟨plainWorld, _, started_plainWorld, rfl⟩, ⟨plainWorld, _, started_plainWorld, rfl⟩, by decide⟩

end StrataMemory.BuriedRecords
