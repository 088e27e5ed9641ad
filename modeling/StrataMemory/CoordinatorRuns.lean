import StrataMemory.CommitEffects
import StrataMemory.Coordinator

set_option autoImplicit false

namespace StrataMemory.CoordinatorRuns
open KeyedTables Records Tables Procedures Worlds CommitEffects Coordinator

variable {V : Type}

/-- The commits of one application: bookkeeping, and one handler call. -/
def isQueueWork : Commit V → Bool
  | .readClock | .recordIndexAck .. | .setOpState .. | .finish .. | .failOp .. | .deferOp ..
  | .acquire | .release | .memory _ => true
  | _ => false

def isMemory : Commit V → Bool
  | .memory _ => true
  | _ => false

theorem isIndexWork_of_isQueueWork {c : Commit V} (h : isQueueWork c = true) :
    isIndexWork c = true := by
  cases c <;> first | rfl | cases h

section Uses

/-- `P` allows the bookkeeping of an application, and the handler calls of the coordinator. -/
structure QueueAllows (c : WriteCoordinator V) (P : Commit V → Prop) : Prop where
  work : ∀ b, isQueueWork b = true → isMemory b = false → P b
  handle : ∀ op, (callHandler c op).Uses P

namespace QueueAllows
variable {c : WriteCoordinator V} {P : Commit V → Prop}

theorem recordAcks (h : QueueAllows c P) (op : Operation) (acks : Acks) :
    (recordAcks op acks : Prog V Unit).Uses P :=
  Proc.Uses.forM _ _ fun _ _ => (uses_commit _ _).mpr (h.work _ rfl rfl)

theorem failOrRetry (h : QueueAllows c P) (row : OpRow) (reason : String) :
    (failOrRetry c row reason).Uses P := by
  unfold Coordinator.failOrRetry
  dsimp only
  split <;> exact (uses_commit _ _).mpr (h.work _ rfl rfl)

theorem runOp (h : QueueAllows c P) (row : OpRow) : (runOp c row).Uses P := by
  refine (h.handle row.operation).bind fun result => ?_
  cases result with
  | error reason => exact (h.recordAcks _ _).bind fun _ => h.failOrRetry row reason
  | ok acks =>
    refine (h.recordAcks _ _).bind fun _ => ?_
    split
    · exact (uses_commit _ _).mpr (h.work _ rfl rfl)
    · exact h.failOrRetry row _

theorem applySelected (h : QueueAllows c P) (selected : Option OpRow) :
    (applySelected c selected).Uses P := by
  cases selected with
  | none => trivial
  | some row =>
    refine Proc.Uses.bind ((uses_commit _ _).mpr (h.work _ rfl rfl)) fun _ => ?_
    exact Proc.Uses.bind (h.runOp row) fun _ => trivial

theorem applyNext (h : QueueAllows c P) : (applyNext c).Uses P := by
  refine Proc.Uses.bind ((uses_commit _ _).mpr (h.work _ rfl rfl)) fun _ => ?_
  refine Proc.Uses.bind ((uses_nowMs _).mpr (h.work _ rfl rfl)) fun now => ?_
  refine Proc.Uses.bind (uses_query _ _) fun selected => ?_
  refine (h.applySelected selected).bind fun applied => ?_
  exact Proc.Uses.bind ((uses_commit _ _).mpr (h.work _ rfl rfl)) fun _ => trivial

theorem drain (h : QueueAllows c P) (steps : ℕ) : (drain c steps).Uses P := by
  induction steps with
  | zero => trivial
  | succ steps ih =>
    refine h.applyNext.bind fun applied => ?_
    cases applied with
    | none => trivial
    | some _ => exact ih.bind fun _ => trivial

end QueueAllows

theorem allows_queueWork (c : WriteCoordinator V) : QueueAllows c fun b => isQueueWork b = true where
  work _ hb _ := hb
  handle op := by
    unfold callHandler
    split
    · trivial
    · exact (Proc.uses_performing _ _ _).mpr rfl

theorem applyNext_uses (c : WriteCoordinator V) :
    (applyNext c).Uses fun c => isQueueWork c = true :=
  (allows_queueWork c).applyNext

theorem drain_uses (c : WriteCoordinator V) (steps : ℕ) :
    (drain c steps).Uses fun c => isQueueWork c = true :=
  (allows_queueWork c).drain steps

end Uses

section Returns

theorem runOp_returns (c : WriteCoordinator V) (row : OpRow) : (runOp c row).Returns := by
  have hacks : ∀ acks, (recordAcks row.operation acks : Prog V Unit).Returns := fun acks =>
    Proc.Returns.forM _ _ fun _ _ => returns_commit _
  have hfail : ∀ reason, (failOrRetry c row reason).Returns := fun reason => by
    unfold failOrRetry
    dsimp only
    split <;> exact returns_commit _
  have hcall : (callHandler c row.operation).Returns := by
    unfold callHandler
    split
    · exact Proc.Returns.pure _
    · exact Proc.Returns.performing _ _
  refine hcall.bind fun result => ?_
  cases result with
  | error reason => exact (hacks _).bind fun _ => hfail reason
  | ok acks =>
    refine (hacks acks).bind fun _ => ?_
    split
    · exact returns_commit _
    · exact hfail _

theorem applySelected_returns (c : WriteCoordinator V) (selected : Option OpRow) :
    (applySelected c selected).Returns := by
  cases selected with
  | none => exact Proc.Returns.pure _
  | some row =>
    exact Proc.Returns.bind (returns_commit _) fun _ =>
      (runOp_returns c row).bind fun _ => Proc.Returns.pure _

theorem applyNext_returns (c : WriteCoordinator V) : (applyNext c).Returns := by
  refine Proc.Returns.bind (returns_commit _) fun _ => ?_
  refine Proc.Returns.bind returns_nowMs fun now => ?_
  refine Proc.Returns.bind (returns_query _) fun selected => ?_
  refine (applySelected_returns c selected).bind fun applied => ?_
  exact Proc.Returns.bind (returns_commit _) fun _ => Proc.Returns.pure _

theorem drain_returns (c : WriteCoordinator V) (steps : ℕ) : (drain c steps).Returns := by
  induction steps with
  | zero => exact Proc.Returns.pure _
  | succ steps ih =>
    refine (applyNext_returns c).bind fun applied => ?_
    cases applied with
    | none => exact Proc.Returns.pure _
    | some _ => exact ih.bind fun _ => Proc.Returns.pure _

end Returns

section Invariants

theorem mem_of_selectFrom {now : Time} {earlier ops : List OpRow} {row : OpRow}
    (h : selectFrom now earlier ops = some row) : row ∈ ops := by
  induction ops generalizing earlier with
  | nil => cases h
  | cons op rest ih =>
    unfold selectFrom at h
    split at h
    · cases h
      exact List.mem_cons_self
    · exact List.mem_cons_of_mem _ (ih h)

theorem live_of_selectEligible {log : OpLog} {now : Time} {row : OpRow}
    (h : selectEligible log now = some row) : row ∈ log.rows ∧ row.isLive = true :=
  List.mem_filter.mp (mem_of_selectFrom h)

def progressSeq : Commit V → Option ℕ
  | .setOpState seq _ | .finish seq _ _ | .failOp seq _ _ | .deferOp seq _ _ _ => some seq
  | _ => none

def SeqAllowed (Allowed : Operation → Prop) (seq : ℕ) (w : World V) : Prop :=
  ∀ row ∈ w.db.opLog.rows, row.seq = seq → Allowed row.operation

/-- An invariant that bookkeeping on allowed rows keeps, under which every live
operation is allowed, and that handlers keep on allowed operations. -/
structure QueueInvariant (c : WriteCoordinator V) (I : World V → Prop)
    (Allowed : Operation → Prop) : Prop where
  live : ∀ w, I w → ∀ row ∈ w.db.opLog.rows, row.isLive = true → Allowed row.operation
  clock : ∀ w, I w → I (apply .readClock w)
  ack : ∀ id name opId success w, I w → I (apply (.recordIndexAck id name opId success) w)
  progress : ∀ b seq w, progressSeq b = some seq → SeqAllowed Allowed seq w → I w → I (apply b w)
  handled : ∀ name handler op w, c.handlers name = some handler → op.target = some name →
    Allowed op → I w → I (apply (.memory fun v => (handler op v).2) w)

theorem seq_unique {log : OpLog} {row other : OpRow} (hrow : row ∈ log.rows)
    (hother : other ∈ log.rows) (h : other.seq = row.seq) : other = row :=
  List.inj_on_of_nodup_map (log.seq_increasing.imp Nat.ne_of_lt) hother hrow h

theorem mem_advance {log : OpLog} {p : OpRow → Bool} {f : Progress → Progress} {row : OpRow}
    (h : row ∈ (log.advance p f).rows) :
    ∃ old ∈ log.rows, row.seq = old.seq ∧ row.operation = old.operation ∧
      row.progress = if p old then f old.progress else old.progress := by
  obtain ⟨old, hold, rfl⟩ := List.mem_map.mp h
  refine ⟨old, hold, ?_⟩
  by_cases hp : p old = true
  · rw [if_pos hp, if_pos hp]
    exact ⟨rfl, rfl, rfl⟩
  · rw [if_neg hp, if_neg hp]
    exact ⟨rfl, rfl, rfl⟩

theorem SeqAllowed.advance {Allowed : Operation → Prop} {seq : ℕ} {log : OpLog}
    (h : ∀ row ∈ log.rows, row.seq = seq → Allowed row.operation) (p : OpRow → Bool)
    (f : Progress → Progress) :
    ∀ row ∈ (log.advance p f).rows, row.seq = seq → Allowed row.operation := by
  intro row hrow hseq
  obtain ⟨old, hold, hs, hop, _⟩ := mem_advance hrow
  rw [hop]
  exact h old hold (hs.symm.trans hseq)

theorem SeqAllowed.apply {Allowed : Operation → Prop} {seq : ℕ} {b : Commit V}
    (hb : isQueueWork b = true) {w : World V} (h : SeqAllowed Allowed seq w) :
    SeqAllowed Allowed seq (apply b w) := by
  cases b with
  | setOpState | finish | failOp | deferOp => exact SeqAllowed.advance h _ _
  | readClock | recordIndexAck | acquire | release | memory => exact h
  | _ => cases hb

theorem seqAllowed_of_mem {Allowed : Operation → Prop} {w : World V} {row : OpRow}
    (hrow : row ∈ w.db.opLog.rows) (hop : Allowed row.operation) :
    SeqAllowed Allowed row.seq w := by
  intro other hother hseq
  have hinj := List.inj_on_of_nodup_map (w.db.opLog.seq_increasing.imp Nat.ne_of_lt)
  rw [hinj hother hrow hseq]
  exact hop

theorem live_advance {Allowed : Operation → Prop} {log : OpLog} {seq : ℕ}
    (h : ∀ row ∈ log.rows, row.isLive = true → Allowed row.operation)
    (hseq : ∀ row ∈ log.rows, row.seq = seq → Allowed row.operation) (f : Progress → Progress) :
    ∀ row ∈ (log.advance (fun r => r.seq = seq) f).rows, row.isLive = true →
      Allowed row.operation := by
  intro row hrow hlive
  obtain ⟨old, hold, _, hop, hprogress⟩ := mem_advance hrow
  rw [hop]
  by_cases hs : old.seq = seq
  · exact hseq old hold hs
  · rw [if_neg (by simpa using hs)] at hprogress
    refine h old hold ?_
    unfold OpRow.isLive at hlive ⊢
    rw [← hprogress]
    exact hlive

theorem live_append {Allowed : Operation → Prop} {log : OpLog} {op : Operation}
    (h : ∀ row ∈ log.rows, row.isLive = true → Allowed row.operation) (hop : Allowed op)
    (now : Time) : ∀ row ∈ (log.append op now).rows, row.isLive = true → Allowed row.operation := by
  intro row hrow hlive
  unfold OpLog.append at hrow
  split at hrow
  · exact h row hrow hlive
  · rcases List.mem_append.mp hrow with hrow | hrow
    · exact h row hrow hlive
    · cases List.mem_singleton.mp hrow
      exact hop

variable {c : WriteCoordinator V} {I : World V → Prop} {Allowed : Operation → Prop}

theorem QueueInvariant.runOp (h : QueueInvariant c I Allowed) (row : OpRow)
    (hrow : Allowed row.operation) :
    (runOp c row).Preserves fun w => I w ∧ SeqAllowed Allowed row.seq w := by
  have hprogress : ∀ b, progressSeq b = some row.seq → isQueueWork b = true →
      (commit b).Preserves fun w => I w ∧ SeqAllowed Allowed row.seq w := fun b hseq hb w hw =>
    ⟨h.progress b row.seq w hseq hw.2 hw.1, hw.2.apply hb⟩
  have hacks : ∀ acks, (recordAcks row.operation acks).Preserves
      fun w => I w ∧ SeqAllowed Allowed row.seq w := fun acks =>
    Proc.Preserves.forM _ _ fun _ _ w hw => ⟨h.ack _ _ _ _ w hw.1, hw.2.apply rfl⟩
  have hfail : ∀ reason, (failOrRetry c row reason).Preserves
      fun w => I w ∧ SeqAllowed Allowed row.seq w := by
    intro reason
    unfold failOrRetry
    dsimp only
    split <;> exact hprogress _ rfl rfl
  have hcall : (callHandler c row.operation).Preserves
      fun w => I w ∧ SeqAllowed Allowed row.seq w := by
    unfold callHandler
    cases htarget : row.operation.target with
    | none => exact Proc.Preserves.pure _
    | some name =>
      cases hhandler : c.handlers name with
      | none =>
        rw [Option.bind_some, hhandler]
        exact Proc.Preserves.pure _
      | some handler =>
        rw [Option.bind_some, hhandler]
        exact fun w hw => ⟨h.handled name handler _ w hhandler htarget hrow hw.1, hw.2.apply rfl⟩
  refine hcall.bind fun result => ?_
  cases result with
  | error reason => exact (hacks _).bind fun _ => hfail reason
  | ok acks =>
    refine (hacks acks).bind fun _ => ?_
    split
    · exact hprogress _ rfl rfl
    · exact hfail _

theorem QueueInvariant.applySelected (h : QueueInvariant c I Allowed) {now : Time} {w : World V}
    (hw : I w) : I ((applySelected c (selectEligible w.db.opLog now)).final w) := by
  cases hsel : selectEligible w.db.opLog now with
  | none => exact hw
  | some row =>
    obtain ⟨hmem, hlive⟩ := live_of_selectEligible hsel
    have hrow := h.live w hw row hmem hlive
    have hseq : SeqAllowed Allowed row.seq w := seqAllowed_of_mem hmem hrow
    have hrun := (h.runOp row hrow).bind fun _ =>
      Proc.Preserves.pure (some row.operation.opId)
    exact (hrun _ ⟨h.progress _ row.seq w rfl hseq hw, hseq.apply rfl⟩).1

theorem QueueInvariant.applyNext (h : QueueInvariant c I Allowed) : (applyNext c).Preserves I := by
  refine Proc.Preserves.bind (Proc.Preserves.perform fun _ hw => hw) fun _ => ?_
  refine Proc.Preserves.bind (Proc.Preserves.performing _ h.clock) fun now => ?_
  intro w hw
  obtain ⟨applied, hrun⟩ :=
    (applySelected_returns c (selectEligible w.db.opLog now)).run w
  have hfinal : (query (fun db => selectEligible db.opLog now) >>= fun selected =>
      Coordinator.applySelected c selected >>= fun applied => commit .release >>= fun _ =>
        pure applied).final w =
      (Coordinator.applySelected c (selectEligible w.db.opLog now)).final w :=
    Proc.final_bind_ok hrun
  rw [hfinal]
  exact h.applySelected hw

theorem QueueInvariant.drain (h : QueueInvariant c I Allowed) (steps : ℕ) :
    (drain c steps).Preserves I := by
  induction steps with
  | zero => exact Proc.Preserves.pure _
  | succ steps ih =>
    refine h.applyNext.bind fun applied => ?_
    cases applied with
    | none => exact Proc.Preserves.pure _
    | some _ => exact ih.bind fun _ => Proc.Preserves.pure _

end Invariants
end StrataMemory.CoordinatorRuns
