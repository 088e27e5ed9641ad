import StrataMemory.DeletionInvariants
import StrataMemory.HandlerEffects
import StrataMemory.NodeRuns

set_option autoImplicit false

namespace StrataMemory.DeletionLeftovers
open KeyedTables Records Tables Procedures Worlds CommitEffects CoordinatorRuns
open DeletionFlows DeletionMachine DeletionInvariants HandlerEffects Engine Gateway NodeRuns

def Unnamed (ids : List RecordId) (proposals : ProposalStore) : Prop :=
  ∀ p ∈ proposals.values, ∀ id ∈ ids, id ∉ p.recordIds ∧ id ∉ p.evidenceIds

theorem proposals_purge (e : MemoryEngine) (ids : List RecordId) (proposals : ProposalStore) :
    PurgeInvariant e ids (fun w => w.memory.proposals = proposals) fun _ => True where
  live _ _ _ _ _ := trivial
  clock _ hw := hw
  ack _ _ _ _ _ hw := hw
  progress b _ w hb _ hw := by
    rw [memory_apply (by cases b <;> first | rfl | cases hb)]
    exact hw
  handled name handler op w hh _ _ hw := by
    obtain ⟨_, rfl⟩ := handler_eq hh
    exact (proposals_makeHandler name op w.memory).trans hw
  unpost _ hw := hw
  draw _ hw := hw
  enqueueRemoval _ _ _ hw := hw
  dropArtifacts _ hw := hw

theorem proposals_deleteMemory (s : Strata) (w : World Memory) (recordId : RecordId)
    (mode : DeletionMode) :
    ((s.deleteMemory recordId mode).final w).memory.proposals = w.memory.proposals :=
  requestDeletion_keeps (I := fun t : World Memory => t.memory.proposals = w.memory.proposals) rfl
    (fun _ _ _ ht => ht)
    ((proposals_purge s.engine _ _).deletion (fun _ _ _ _ _ ht => ht) (fun _ _ _ _ ht => ht)
      fun _ _ ht => ht)

/-- After a deletion no proposal names a deleted id exactly when none did before. -/
theorem unnamed_after_iff (s : Strata) (w : World Memory) (recordId : RecordId)
    (mode : DeletionMode) :
    Unnamed (covered w.db recordId true) ((s.deleteMemory recordId mode).final w).memory.proposals ↔
      Unnamed (covered w.db recordId true) w.memory.proposals := by
  rw [proposals_deleteMemory]

/-- Two equal facts are consolidated, then both are erased; the merge proposal still
names them and holds their text. -/
theorem merged_text_outlives_deletion :
    let w := runCalls plainStrata plainWorld
      [.writeMemory "tea" {}, .writeMemory "tea" {}, .consolidate]
    let u := after plainStrata w (.requestDeletion 1 .hard true)
    covered w.db 1 true = [1, 2] ∧ EndsIn [1, 2] .verified u ∧
      ∃ p ∈ u.memory.proposals.values, 1 ∈ p.recordIds ∧ 2 ∈ p.evidenceIds ∧
        p.targetContent = some "tea" := by
  decide +kernel

/-- Every vector record that some row of the log carries, whatever the row's state. -/
def carried (log : OpLog) : List VectorRecord := log.rows.flatMap fun r => r.operation.records

def QueueFree (ids : List RecordId) (w : World Memory) : Prop :=
  ∀ row ∈ w.db.opLog.rows, ∀ rec ∈ row.operation.records, rec.id ∉ ids

theorem queueFree_iff (ids : List RecordId) (w : World Memory) :
    QueueFree ids w ↔ ∀ rec ∈ carried w.db.opLog, rec.id ∉ ids := by
  unfold QueueFree carried
  constructor
  · intro h rec hrec
    obtain ⟨row, hrow, hin⟩ := List.mem_flatMap.mp hrec
    exact h row hrow rec hin
  · exact fun h row hrow rec hin => h rec (List.mem_flatMap.mpr ⟨row, hrow, hin⟩)

theorem carried_advance (log : OpLog) (p : OpRow → Bool) (f : Progress → Progress) :
    carried (log.advance p f) = carried log := by
  change (log.rows.map _).flatMap _ = log.rows.flatMap _
  rw [List.flatMap_map]
  refine congrArg (fun g => log.rows.flatMap g) (funext fun r => ?_)
  split <;> rfl

theorem carried_append (log : OpLog) (op : Operation) (now : Time) :
    carried (log.append op now) = carried log ∨
      carried (log.append op now) = carried log ++ op.records := by
  unfold OpLog.append
  split
  · exact .inl rfl
  · right
    change (log.rows ++ [_]).flatMap _ = _
    rw [List.flatMap_append, List.flatMap_singleton]
    rfl

theorem carried_apply (c : Commit Memory) (w : World Memory) :
    carried (apply c w).db.opLog = carried w.db.opLog ∨
      ∃ op, c = .enqueue op ∧
        carried (apply c w).db.opLog = carried w.db.opLog ++ op.records := by
  cases c with
  | enqueue op =>
    rcases carried_append w.db.opLog op w.now with h | h
    · exact .inl h
    · exact .inr ⟨op, rfl, h⟩
  | recover => exact .inl (carried_advance _ _ _)
  | setOpState seq state => exact .inl (carried_advance _ _ _)
  | finish seq acks state => exact .inl (carried_advance _ _ _)
  | failOp seq attempts reason => exact .inl (carried_advance _ _ _)
  | deferOp seq attempts backoff reason => exact .inl (carried_advance _ _ _)
  | retryOp opId => exact .inl (carried_advance _ _ _)
  | registerGeneration generation modelId status =>
    left
    simp only [apply, World.stamp]
    split <;> rfl
  | _ => exact .inl rfl

theorem carried_purge (e : MemoryEngine) (ids : List RecordId) (payloads : List VectorRecord) :
    PurgeInvariant e ids (fun w => carried w.db.opLog = payloads) fun _ => True where
  live _ _ _ _ _ := trivial
  clock _ hw := hw
  ack _ _ _ _ _ hw := hw
  progress b _ w hb _ hw := by
    rcases carried_apply b w with h | ⟨op, rfl, _⟩
    · exact h.trans hw
    · cases hb
  handled _ _ _ _ _ _ _ hw := hw
  unpost _ hw := hw
  draw _ hw := hw
  enqueueRemoval name opId w hw := by
    rcases carried_append w.db.opLog ⟨.removeIndex, ids, some name, none, none, opId⟩ w.now with h | h
    · exact Eq.trans h hw
    · exact Eq.trans (Eq.trans h (List.append_nil _)) hw
  dropArtifacts _ hw := hw

theorem carried_deleteMemory (s : Strata) (w : World Memory) (recordId : RecordId)
    (mode : DeletionMode) :
    carried ((s.deleteMemory recordId mode).final w).db.opLog = carried w.db.opLog :=
  requestDeletion_keeps (I := fun t : World Memory => carried t.db.opLog = carried w.db.opLog) rfl
    (fun _ _ _ ht => ht)
    ((carried_purge s.engine _ _).deletion (fun _ _ _ _ _ ht => ht) (fun _ _ _ _ ht => ht)
      fun _ _ ht => ht)

/-- After an erasure no row of the log carries an erased id exactly when none did before. -/
theorem queueFree_after_iff (s : Strata) (w : World Memory) (recordId : RecordId) :
    QueueFree (covered w.db recordId true) ((s.deleteMemory recordId .hard).final w) ↔
      QueueFree (covered w.db recordId true) w := by
  rw [queueFree_iff, queueFree_iff, carried_deleteMemory]

/-- A text is written and erased; the queue still carries its vector and its hash. -/
theorem erased_vector_stays_queued :
    let w := runCalls plainStrata plainWorld [.writeMemory "tea" {}]
    let u := after plainStrata w (.requestDeletion 1 .hard true)
    covered w.db 1 true = [1] ∧ EndsIn [1] .verified u ∧
      ∃ row ∈ u.db.opLog.rows, ∃ rec ∈ row.operation.records,
        rec.id = 1 ∧ rec.contentHash = "tea" := by
  decide

end StrataMemory.DeletionLeftovers
