import StrataMemory.CorrectionRuns
import StrataMemory.DeletionLeftovers

set_option autoImplicit false

namespace StrataMemory.ProposalRuns
open KeyedTables Records Tables Procedures Worlds CommitEffects Coordinator CoordinatorRuns
open CanonicalStore Resolver ManagedSurfaces DeletionFlows DeletionMachine DeletionInvariants
open FlowInvariants HandlerEffects DeletionLeftovers CorrectionRuns Engine Gateway NodeRuns

def Calm (c : Commit Memory) : Prop := ∀ w, (apply c w).memory.proposals = w.memory.proposals

theorem calm_of_untouched {c : Commit Memory} (h : touchesMemory c = false) : Calm c :=
  fun w => by rw [memory_apply h]

theorem calm_commit {c : Commit Memory} (h : touchesMemory c = false) :
    (Worlds.commit c).Uses Calm :=
  (uses_commit _ _).mpr (calm_of_untouched h)

theorem proposals_of_calm {α : Type} {p : Prog Memory α} (hp : p.Uses Calm) (w : World Memory) :
    (p.final w).memory.proposals = w.memory.proposals :=
  hp.preserves (I := fun t => t.memory.proposals = w.memory.proposals)
    (fun _ t hc ht => (hc t).trans ht) w rfl

theorem calm_queue (e : MemoryEngine) : QueueAllows e.coordinator Calm where
  work b _ hmemory := calm_of_untouched (by cases b <;> first | rfl | cases hmemory)
  handle op := by
    unfold callHandler
    split
    · trivial
    · rename_i handler hhandler
      obtain ⟨name, _, hname⟩ := Option.bind_eq_some_iff.mp hhandler
      obtain ⟨_, rfl⟩ := handler_eq hname
      exact (Proc.uses_performing _ _ _).mpr fun w => proposals_makeHandler name op w.memory

section Writes
variable (e : MemoryEngine)

theorem calm_runUntilIdle : (runUntilIdle e.coordinator).Uses Calm := (calm_queue e).drain maxSteps

theorem calm_create (p : Platform) (content : String) (fields : Fields) :
    (create p content fields : Prog Memory MemoryRecord).Uses Calm := by
  unfold CanonicalStore.create
  cases fields.createdAt <;> cases fields.updatedAt <;> cases fields.id
  all_goals
    repeat first
      | exact Proc.uses_pure _ _
      | refine Proc.Uses.bind ((uses_nowMs _).mpr (calm_of_untouched rfl)) fun _ => ?_
      | refine Proc.Uses.bind ((uses_newRecordId _).mpr (calm_of_untouched rfl)) fun _ => ?_
      | refine Proc.Uses.bind (Proc.uses_pure _ _) fun _ => ?_

theorem calm_storeWrite (r : MemoryRecord) :
    (CanonicalStore.write r : Prog Memory MemoryRecord).Uses Calm :=
  Proc.Uses.bind (calm_commit rfl) fun _ => Proc.Uses.bind (Proc.uses_read _ _) fun _ => trivial

theorem calm_enqueueUpserts (embedder : Embedder) (r : MemoryRecord) (generation : ℤ) :
    (e.enqueueUpserts embedder r generation).Uses Calm := by
  refine Proc.Uses.forM _ _ fun name _ => ?_
  refine Proc.Uses.bind ((uses_newOperationId _).mpr (calm_of_untouched rfl)) fun opId => ?_
  exact Proc.Uses.bind (Proc.Uses.bind (calm_commit rfl) fun _ => trivial) fun _ => trivial

theorem calm_indexed (written : MemoryRecord) (generation : ℤ) :
    (do
      e.enqueueVectorUpsert written generation
      let _ ← runUntilIdle e.coordinator
      return written : Prog Memory MemoryRecord).Uses Calm := by
  refine Proc.Uses.bind (Proc.Uses.bind (Proc.uses_read _ _) fun embedder => ?_) fun _ => ?_
  · exact calm_enqueueUpserts e embedder written generation
  · exact (calm_runUntilIdle e).bind fun _ => trivial

theorem calm_writeMemory (r : MemoryRecord) (generation : Option ℤ) :
    (e.writeMemory r generation).Uses Calm := by
  refine Proc.Uses.bind (Proc.uses_read _ _) fun active => ?_
  refine (calm_storeWrite r).bind fun written => ?_
  exact Proc.Uses.bind (calm_commit rfl) fun _ => calm_indexed e written _

theorem calm_addDependency (parentId childId : RecordId) (rel : Relation) :
    (CanonicalStore.addDependency parentId childId rel : Prog Memory Unit).Uses Calm := by
  refine ⟨calm_of_untouched rfl, fun w => ?_⟩
  dsimp only
  split <;> trivial

theorem calm_removePostings (ids : List RecordId) :
    (CanonicalStore.removePostings ids : Prog Memory Unit).Uses Calm := by
  unfold CanonicalStore.removePostings
  split
  · trivial
  · exact calm_commit rfl

theorem calm_purge (ids : List RecordId) : (purge e.registry ids).Uses Calm := by
  have hsurface : ∀ s ∈ e.registry, (s.remove ids).Uses Calm := by
    intro s hs
    rcases List.mem_append.mp hs with hs | hs
    · rcases List.mem_cons.mp hs with rfl | hs
      · exact (calm_removePostings ids).bind fun _ => uses_query _ _
      · obtain ⟨name, _, rfl⟩ := List.mem_map.mp hs
        refine Proc.Uses.bind ((uses_newOperationId _).mpr (calm_of_untouched rfl)) fun opId => ?_
        refine Proc.Uses.bind ((uses_enqueue _ _).mpr (calm_of_untouched rfl)) fun _ => ?_
        exact (calm_runUntilIdle e).bind fun _ => Proc.uses_read _ _
    · cases List.mem_singleton.mp hs
      exact Proc.Uses.bind ((uses_commit _ _).mpr fun _ => rfl) fun _ => Proc.uses_read _ _
  suffices h : ∀ (registry : Registry Memory) report, (∀ s ∈ registry, (s.remove ids).Uses Calm) →
      (purgeInto ids registry report).Uses Calm from h _ _ hsurface
  intro registry
  induction registry with
  | nil => exact fun _ _ => trivial
  | cons s rest ih =>
    intro report hall
    refine Proc.Uses.bind (calm_commit rfl) fun _ => ?_
    exact (hall s List.mem_cons_self).bind fun perId =>
      ih _ fun t ht => hall t (List.mem_cons_of_mem _ ht)

theorem calm_correct (oldId : RecordId) (r : MemoryRecord) (relation : Relation) :
    (e.correct oldId r relation).Uses Calm := by
  refine Proc.Uses.bind ?_ fun written => Proc.Uses.bind (Proc.uses_read _ _) fun active =>
    calm_indexed e written active
  refine (calm_storeWrite r).bind fun written => ?_
  refine Proc.Uses.bind (calm_commit rfl) fun _ => (calm_addDependency _ _ _).bind fun _ => ?_
  refine Proc.Uses.bind (calm_commit rfl) fun _ => ?_
  exact (calm_purge e [oldId]).bind fun _ => trivial

theorem calm_summary (id : RecordId) : (summary id).Uses Calm := by
  refine Proc.Uses.bind (Proc.uses_read _ _) fun found => ?_
  cases found <;> trivial

theorem calm_updateMemory (s : Strata) (recordId : RecordId) (content : Option String)
    (status : Option Status) : (s.updateMemory recordId content status).Uses Calm := by
  refine Proc.Uses.bind (Proc.uses_read _ _) fun found => ?_
  cases found with
  | none => trivial
  | some old =>
    cases content with
    | some text =>
      refine (calm_removePostings _).bind fun _ => ?_
      refine Proc.Uses.bind (Proc.Uses.bind ((uses_nowMs _).mpr (calm_of_untouched rfl))
        fun _ => trivial) fun updated => ?_
      exact (calm_writeMemory s.engine updated none).bind fun _ => calm_summary recordId
    | none =>
      cases status with
      | some st => exact Proc.Uses.bind (calm_commit rfl) fun _ => calm_summary recordId
      | none => exact calm_summary recordId

theorem calm_reindexRecords (generation : ℤ) (embedder : Embedder) (records : List MemoryRecord) :
    (e.reindexRecords generation embedder records).Uses Calm := by
  induction records with
  | nil => trivial
  | cons r rest ih =>
    refine Proc.Uses.bind (Proc.uses_read _ _) fun tombstoned => ?_
    split
    · exact (calm_enqueueUpserts e embedder r generation).bind fun _ => ih
    · exact ih

end Writes

/-- The calls of the review: they make proposals and settle them. -/
def isReview : Call → Bool
  | .consolidate | .contradictionAudit | .applyProposal _ | .rejectProposal _ => true
  | _ => false

def isOpening : Call → Bool
  | .openWith .. => true
  | _ => false

theorem proposals_requestDeletion (s : Strata) (recordId : RecordId) (mode : DeletionMode)
    (includeDependents : Bool) (w : World Memory) :
    ((requestDeletion s.engine.deletion recordId mode includeDependents).final w).memory.proposals =
      w.memory.proposals :=
  requestDeletion_keeps (I := fun t : World Memory => t.memory.proposals = w.memory.proposals) rfl
    (fun _ _ _ ht => ht)
    ((proposals_purge s.engine _ _).deletion (fun _ _ _ _ _ ht => ht) (fun _ _ _ _ ht => ht)
      fun _ _ ht => ht)

theorem proposals_retry (s : Strata) (jobId : OpId) (w : World Memory) :
    ((retry s.engine.deletion jobId).final w).memory.proposals = w.memory.proposals := by
  rw [retry_final]
  split
  · rfl
  · exact ((proposals_purge s.engine _ w.memory.proposals).deletion (fun _ _ _ _ _ ht => ht)
      (fun _ _ _ _ ht => ht) fun _ _ ht => ht).purgeAndVerify _ w rfl

/-- Only a review or a new process touches the proposals. -/
theorem proposals_after (s : Strata) (w : World Memory) (c : Call) (hreview : isReview c = false)
    (hopening : isOpening c = false) : (after s w c).memory.proposals = w.memory.proposals := by
  have hdiscard : ∀ {α : Type} {p : Prog Memory α}, p.Uses Calm →
      ((discard p).final w).memory.proposals = w.memory.proposals := fun hp => by
    rw [Proc.final_discard]
    exact proposals_of_calm hp w
  unfold after
  cases c with
  | openWith embedder custom => cases hopening
  | consolidate | contradictionAudit => cases hreview
  | applyProposal id | rejectProposal id => cases hreview
  | writeEvent content recordType fields =>
    exact hdiscard ((calm_create _ _ _).bind fun r => calm_writeMemory s.engine r none)
  | writeMemory content fields =>
    exact hdiscard ((calm_create _ _ _).bind fun r => calm_writeMemory s.engine r none)
  | updateMemory recordId content status => exact hdiscard (calm_updateMemory s recordId content status)
  | supersedeMemory oldId content fields =>
    exact hdiscard ((calm_create _ _ _).bind fun r => calm_correct s.engine oldId r _)
  | linkSource derivedId sourceId => exact proposals_of_calm (calm_addDependency _ _ _) w
  | writeRecord record generation => exact hdiscard (calm_writeMemory s.engine record generation)
  | correct oldId record relation => exact hdiscard (calm_correct s.engine oldId record relation)
  | addDependency parentId childId rel => exact proposals_of_calm (calm_addDependency _ _ _) w
  | putArtifact id blob => rfl
  | requestDeletion recordId mode includeDependents =>
    exact (congrArg (fun t : World Memory => t.memory.proposals) (Proc.final_discard _ w)).trans
      (proposals_requestDeletion s recordId mode includeDependents w)
  | retryDeletion jobId =>
    exact (congrArg (fun t : World Memory => t.memory.proposals) (Proc.final_discard _ w)).trans
      (proposals_retry s jobId w)
  | openShadowGeneration generation embedder => exact proposals_of_calm (calm_commit rfl) w
  | reindexInto generation embedder recordIds =>
    refine proposals_of_calm (Proc.Uses.bind (Proc.uses_read _ _) fun records => ?_) w
    refine (calm_reindexRecords s.engine generation embedder records).bind fun _ => ?_
    exact (calm_runUntilIdle s.engine).bind fun _ => trivial
  | promoteGeneration generation => rfl
  | enqueue op => exact hdiscard (Proc.Uses.bind (calm_commit rfl) fun _ => trivial)
  | applyNext => exact hdiscard (calm_queue s.engine).applyNext
  | recover => rfl
  | retryOp opId => rfl

def rank : ProposalState → ℕ
  | .proposed | .autoAccepted | .rolledBack => 0
  | .userReviewRequired => 1
  | .applied => 2
  | .rejected => 3

/-- `q` is `p` at the same or at a later stage of its life. -/
def Later (p q : Proposal) : Prop :=
  q = { p with state := q.state } ∧ (q.state = p.state ∨ rank p.state < rank q.state)

theorem Later.refl (p : Proposal) : Later p p := ⟨rfl, .inl rfl⟩

theorem Later.rank_le {p q : Proposal} (h : Later p q) : rank p.state ≤ rank q.state := by
  rcases h.2 with hsame | hlt
  · rw [hsame]
  · exact hlt.le

theorem Later.trans {p q r : Proposal} (h : Later p q) (h' : Later q r) : Later p r := by
  refine ⟨?_, ?_⟩
  · rw [h'.1, h.1]
  · rcases h'.2 with hsame | hlt
    · rw [hsame]
      exact h.2
    · exact .inr (h.rank_le.trans_lt hlt)

/-- Consolidation makes merges of a primary and its duplicates, the audit makes questions.
A question is never applied, and no proposal is accepted or taken back in another way. -/
structure WellMade (p : Proposal) : Prop where
  kind : p.kind = .merge ∨ p.kind = .clarifyConflict
  merge : p.kind = .merge → ∃ primaryId dups, p.recordIds = primaryId :: dups ∧ primaryId ∉ dups
  state : p.state = .proposed ∨ p.state = .userReviewRequired ∨ p.state = .applied ∨
    p.state = .rejected
  question : p.kind = .clarifyConflict → p.state = .userReviewRequired ∨ p.state = .rejected

/-- The merge that the proposal asks for has been made, as far as its records exist. -/
def InForce (p : Proposal) (w : World Memory) : Prop :=
  ∀ primaryId dups, p.recordIds = primaryId :: dups → ∀ d ∈ dups,
    Standing ⟨primaryId, d, .supersedes⟩ w

/-- Each proposal is filed under its own id, which has been drawn; what was applied is in
force. -/
structure Filed (w : World Memory) : Prop where
  own : ∀ id p, w.memory.proposals.get? id = some p → p.id = id ∧ id < w.operationIds
  made : ∀ id p, w.memory.proposals.get? id = some p → WellMade p
  applied : ∀ id p, w.memory.proposals.get? id = some p → p.state = .applied → InForce p w

/-- Every proposal of `w` is still there in `t`, at the same or at a later stage. -/
def Advanced (w t : World Memory) : Prop :=
  ∀ id p, w.memory.proposals.get? id = some p →
    ∃ q, t.memory.proposals.get? id = some q ∧ Later p q

theorem Advanced.refl (w : World Memory) : Advanced w w := fun _ p h => ⟨p, h, .refl p⟩

theorem Advanced.trans {w u t : World Memory} (h : Advanced w u) (h' : Advanced u t) :
    Advanced w t := by
  intro id p hp
  obtain ⟨q, hq, hpq⟩ := h id p hp
  obtain ⟨r, hr, hqr⟩ := h' id q hq
  exact ⟨r, hr, hpq.trans hqr⟩

theorem advanced_of_same {w t : World Memory} (h : t.memory.proposals = w.memory.proposals) :
    Advanced w t := fun _ p hp => ⟨p, h ▸ hp, .refl p⟩

theorem operationIds_apply (c : Commit Memory) (w : World Memory) :
    w.operationIds ≤ (apply c w).operationIds := by
  cases c with
  | newOperationId => exact Nat.le_succ _
  | _ => exact Nat.le_refl _

theorem operationIds_final {α : Type} (p : Prog Memory α) (w : World Memory) :
    w.operationIds ≤ (p.final w).operationIds :=
  (Proc.Uses.of_forall (P := fun _ => True) (fun _ => trivial) p).preserves
    (I := fun t => w.operationIds ≤ t.operationIds)
    (fun c t _ ht => ht.trans (operationIds_apply c t)) w (Nat.le_refl _)

structure Kept (w t : World Memory) : Prop where
  proposals : t.memory.proposals = w.memory.proposals
  drawn : w.operationIds ≤ t.operationIds
  standing : ∀ d, Standing d w → Standing d t

theorem Kept.filed {w t : World Memory} (h : Kept w t) (hw : Filed w) : Filed t where
  own id p hp := by
    rw [h.proposals] at hp
    obtain ⟨hid, hdrawn⟩ := hw.own id p hp
    exact ⟨hid, hdrawn.trans_le h.drawn⟩
  made id p hp := hw.made id p (h.proposals ▸ hp)
  applied id p hp hstate primaryId dups hids d hd :=
    h.standing _ (hw.applied id p (h.proposals ▸ hp) hstate primaryId dups hids d hd)

def MovesFrom {α : Type} (w : World Memory) (p : Prog Memory α) : Prop :=
  Filed (p.final w) ∧ Advanced w (p.final w)

def Moves {α : Type} (p : Prog Memory α) : Prop := ∀ w, Filed w → MovesFrom w p

section Moves
variable {α β : Type} {p : Prog Memory α} {f : α → Prog Memory β}

theorem MovesFrom.bind {w : World Memory} (hp : MovesFrom w p) (hf : ∀ a, Moves (f a)) :
    MovesFrom w (p >>= f) := by
  obtain ⟨hfiled, hadvanced⟩ := hp
  unfold MovesFrom Proc.final at *
  rw [Proc.run_bind]
  rcases hrun : p.run w with ⟨_ | a, t⟩
  · rw [hrun] at hfiled hadvanced
    exact ⟨hfiled, hadvanced⟩
  · rw [hrun] at hfiled hadvanced
    obtain ⟨hrest, hmore⟩ := hf a t hfiled
    exact ⟨hrest, hadvanced.trans hmore⟩

theorem movesFrom_of_unchanged {w : World Memory} {r : Except PyError α} (hw : Filed w)
    (hrun : p.run w = (r, w)) : MovesFrom w p := by
  unfold MovesFrom
  rw [Proc.final_of_run hrun]
  exact ⟨hw, .refl w⟩

theorem Moves.pure (a : α) : Moves (pure a : Prog Memory α) := fun w hw => ⟨hw, .refl w⟩

theorem Moves.bind (hp : Moves p) (hf : ∀ a, Moves (f a)) : Moves (p >>= f) :=
  fun w hw => (hp w hw).bind hf

theorem Moves.read (f : World Memory → α) : Moves (Proc.read f : Prog Memory α) :=
  fun w hw => ⟨hw, .refl w⟩

end Moves

section Steps
variable {w : World Memory} {id : OpId} {p : Proposal}

theorem Filed.settle (hw : Filed w) (hget : w.memory.proposals.get? id = some p)
    {state : ProposalState} (hmade : WellMade { p with state := state })
    (hrank : state = p.state ∨ rank p.state < rank state)
    (hforce : state = .applied → InForce p w) :
    MovesFrom w (ReflectionEngine.setProposalState id state) := by
  let t := (ReflectionEngine.setProposalState id state).final w
  have hother : ∀ {j}, id ≠ j → t.memory.proposals.get? j = w.memory.proposals.get? j :=
    fun hj => (Table.get?_modify ..).trans (if_neg hj)
  have hself : t.memory.proposals.get? id = some { p with state := state } := by
    refine (Table.get?_modify ..).trans ?_
    rw [if_pos rfl, hget]
    rfl
  have hold : ∀ j q, t.memory.proposals.get? j = some q →
      (j = id ∧ q = { p with state := state }) ∨ w.memory.proposals.get? j = some q := by
    intro j q hq
    by_cases hj : id = j
    · subst hj
      exact .inl ⟨rfl, (Option.some.inj (hself.symm.trans hq)).symm⟩
    · exact .inr ((hother hj).symm.trans hq)
  refine ⟨⟨fun j q hq => ?_, fun j q hq => ?_, fun j q hq hstate => ?_⟩, fun j q hq => ?_⟩
  · rcases hold j q hq with ⟨rfl, rfl⟩ | hq
    · exact hw.own _ p hget
    · exact hw.own j q hq
  · rcases hold j q hq with ⟨rfl, rfl⟩ | hq
    · exact hmade
    · exact hw.made j q hq
  · rcases hold j q hq with ⟨rfl, rfl⟩ | hq
    · exact hforce hstate
    · exact hw.applied j q hq hstate
  · by_cases hj : id = j
    · subst hj
      cases hget.symm.trans hq
      exact ⟨_, hself, rfl, hrank⟩
    · exact ⟨q, (hother hj).trans hq, .refl q⟩

def filing (p : Proposal) (w : World Memory) : World Memory :=
  (ReflectionEngine.addProposal p).final (apply .newOperationId w)

theorem Filed.propose (hw : Filed w) (hid : p.id = w.operationIds) (hmade : WellMade p)
    (hstate : p.state ≠ .applied) : Filed (filing p w) ∧ Advanced w (filing p w) := by
  let t := filing p w
  have hget : ∀ j, t.memory.proposals.get? j =
      if p.id = j then some p else w.memory.proposals.get? j := fun j => Table.get?_set ..
  have hold : ∀ j q, t.memory.proposals.get? j = some q →
      (j = p.id ∧ q = p) ∨ w.memory.proposals.get? j = some q := by
    intro j q hq
    rw [hget] at hq
    split at hq
    · rename_i hj
      exact .inl ⟨hj.symm, (Option.some.inj hq).symm⟩
    · exact .inr hq
  refine ⟨⟨fun j q hq => ?_, fun j q hq => ?_, fun j q hq happlied => ?_⟩, fun j q hq => ?_⟩
  · rcases hold j q hq with ⟨rfl, rfl⟩ | hq
    · exact ⟨rfl, hid ▸ Nat.lt_succ_self _⟩
    · obtain ⟨hown, hdrawn⟩ := hw.own j q hq
      exact ⟨hown, Nat.lt_succ_of_lt hdrawn⟩
  · rcases hold j q hq with ⟨rfl, rfl⟩ | hq
    · exact hmade
    · exact hw.made j q hq
  · rcases hold j q hq with ⟨rfl, rfl⟩ | hq
    · exact absurd happlied hstate
    · exact hw.applied j q hq happlied
  · have hfresh : p.id ≠ j := by
      rintro rfl
      exact absurd (hw.own _ _ hq).2 (by rw [hid]; exact Nat.lt_irrefl _)
    exact ⟨q, (hget j).trans ((if_neg hfresh).trans hq), .refl q⟩

end Steps

theorem calm_supersedeDuplicates (primaryId : RecordId) (ids : List RecordId) :
    (MemoryEngine.supersedeDuplicates primaryId ids).Uses Calm := by
  induction ids with
  | nil => trivial
  | cons d rest ih =>
    intro w
    change (if (decide (d = primaryId) || w.db.isTombstoned d) = true then
        MemoryEngine.supersedeDuplicates primaryId rest
      else _).Uses Calm
    split
    · exact ih
    · refine Proc.Uses.bind (calm_commit rfl) fun _ => (calm_addDependency _ _ _).bind fun _ => ?_
      exact ih.bind fun _ => trivial

theorem kept_mergeRecords (s : Strata) (primaryId : RecordId) (ids : List RecordId)
    (w : World Memory) : Kept w ((s.engine.mergeRecords primaryId ids).final w) where
  proposals := by
    refine proposals_of_calm ((calm_supersedeDuplicates primaryId ids).bind fun removed => ?_) w
    split
    · exact (calm_purge s.engine _).bind fun _ => trivial
    · trivial
  drawn := operationIds_final _ w
  standing d := (standing_flow s d).reflection.mergeRecords primaryId ids w

theorem supersedeDuplicates_links (s : Strata) {primaryId d : RecordId} (hne : d ≠ primaryId)
    {ids removed : List RecordId} (hd : d ∈ ids) {w t : World Memory}
    (h : (MemoryEngine.supersedeDuplicates primaryId ids).run w = (.ok removed, t)) :
    Standing ⟨primaryId, d, .supersedes⟩ t := by
  have hkeep := (standing_flow s ⟨primaryId, d, .supersedes⟩).reflection.supersedeDuplicates primaryId
  induction ids generalizing w removed with
  | nil => cases hd
  | cons other rest ih =>
    rw [MemoryEngine.supersedeDuplicates_cons] at h
    split at h
    · rename_i hskip
      rcases List.mem_cons.mp hd with rfl | hd
      · have htombstoned : w.db.isTombstoned d = true := by simpa [hne] using hskip
        exact (hkeep rest).run h (.inr (.inr htombstoned))
      · exact ih hd h
    · obtain ⟨_, u, _, h⟩ := Proc.of_bind_ok h
      obtain ⟨_, v, hedge, h⟩ := Proc.of_bind_ok h
      obtain ⟨more, x, hrest, h⟩ := Proc.of_bind_ok h
      cases h
      rcases List.mem_cons.mp hd with rfl | hd
      · exact (hkeep rest).run hrest (.inl (addDependency_links hedge))
      · exact ih hd hrest

theorem mergeRecords_links (s : Strata) {primaryId d : RecordId} (hne : d ≠ primaryId)
    {ids : List RecordId} (hd : d ∈ ids) {w t : World Memory}
    (h : (s.engine.mergeRecords primaryId ids).run w = (.ok (), t)) :
    Standing ⟨primaryId, d, .supersedes⟩ t := by
  have hflow := (standing_flow s ⟨primaryId, d, .supersedes⟩).reflection
  obtain ⟨removed, u, hloop, h⟩ := Proc.of_bind_ok h
  refine Proc.Preserves.run ?_ h (supersedeDuplicates_links s hne hd hloop)
  split
  · exact (hflow.purge _).bind fun _ => Proc.Preserves.pure _
  · exact Proc.Preserves.pure _

section Review
variable {s : Strata} {w : World Memory} {id : OpId} {p : Proposal}

theorem apply_settled (hget : w.memory.proposals.get? id = some p)
    (hsettled : p.state = .applied ∨ p.state = .rejected) :
    (s.reflection.apply id).run w = (.ok (), w) := by
  unfold ReflectionEngine.apply
  rw [Proc.run_bind, Proc.run_read, hget]
  obtain ⟨kind, recordIds, confidence, evidenceIds, rationale, targetContent, state, own⟩ := p
  rcases hsettled with h | h <;> cases h <;> rfl

theorem apply_question (hget : w.memory.proposals.get? id = some p)
    (hkind : p.kind = .clarifyConflict) (hstate : p.state = .userReviewRequired) :
    (s.reflection.apply id).final w =
      (ReflectionEngine.setProposalState id .userReviewRequired).final w := by
  unfold ReflectionEngine.apply Proc.final
  rw [Proc.run_bind, Proc.run_read, hget]
  obtain ⟨kind, recordIds, confidence, evidenceIds, rationale, targetContent, state, own⟩ := p
  cases hkind
  cases hstate
  rfl

theorem apply_merge {primaryId : RecordId} {dups : List RecordId}
    (hget : w.memory.proposals.get? id = some p) (hkind : p.kind = .merge)
    (hstate : p.state = .proposed ∨ p.state = .userReviewRequired)
    (hids : p.recordIds = primaryId :: dups) :
    (s.reflection.apply id).run w = (do
      s.engine.mergeRecords primaryId dups
      ReflectionEngine.setProposalState id .applied : Prog Memory Unit).run w := by
  unfold ReflectionEngine.apply
  rw [Proc.run_bind, Proc.run_read, hget]
  obtain ⟨kind, recordIds, confidence, evidenceIds, rationale, targetContent, state, own⟩ := p
  cases hkind
  cases hids
  rcases hstate with h | h <;> cases h <;> rfl

theorem moves_merge {primaryId : RecordId} {dups : List RecordId} (hw : Filed w)
    (hget : w.memory.proposals.get? id = some p) (hkind : p.kind = .merge)
    (hstate : p.state = .proposed ∨ p.state = .userReviewRequired)
    (hids : p.recordIds = primaryId :: dups) : MovesFrom w (s.reflection.apply id) := by
  have hkept := kept_mergeRecords s primaryId dups w
  unfold MovesFrom Proc.final at *
  rw [apply_merge hget hkind hstate hids, Proc.run_bind]
  rcases hrun : (s.engine.mergeRecords primaryId dups).run w with ⟨_ | a, t⟩
  · rw [hrun] at hkept
    exact ⟨hkept.filed hw, advanced_of_same hkept.proposals⟩
  · rw [hrun] at hkept
    have hmade := hw.made id p hget
    have hrank : rank p.state < rank .applied := by
      rcases hstate with h | h <;> rw [h] <;> decide
    have happlied : WellMade { p with state := .applied } :=
      ⟨hmade.kind, hmade.merge, .inr (.inr (.inl rfl)), fun h => by cases hkind.symm.trans h⟩
    obtain ⟨hfiled, hadvanced⟩ := (hkept.filed hw).settle (hkept.proposals ▸ hget) happlied
      (.inr hrank) fun _ => by
        intro primary others hothers d hd
        obtain ⟨primary', others', hmerge, hapart⟩ := hmade.merge hkind
        cases hids.symm.trans hothers
        cases hids.symm.trans hmerge
        exact mergeRecords_links s (ne_of_mem_of_not_mem hd hapart) hd hrun
    exact ⟨hfiled, (advanced_of_same hkept.proposals).trans hadvanced⟩

theorem moves_apply (s : Strata) (id : OpId) : Moves (s.reflection.apply id) := by
  intro w hw
  cases hget : w.memory.proposals.get? id with
  | none =>
    have hrun : (s.reflection.apply id).run w = (.ok (), w) := by
      unfold ReflectionEngine.apply
      rw [Proc.run_bind, Proc.run_read, hget]
      rfl
    exact movesFrom_of_unchanged hw hrun
  | some p =>
    have hmade := hw.made id p hget
    by_cases hsettled : p.state = .applied ∨ p.state = .rejected
    · exact movesFrom_of_unchanged hw (apply_settled hget hsettled)
    · obtain ⟨happlied, hrejected⟩ := not_or.mp hsettled
      rcases hmade.kind with hkind | hkind
      · obtain ⟨primaryId, dups, hids, _⟩ := hmade.merge hkind
        have hstate : p.state = .proposed ∨ p.state = .userReviewRequired := by
          rcases hmade.state with h | h | h | h
          exacts [.inl h, .inr h, absurd h happlied, absurd h hrejected]
        exact moves_merge hw hget hkind hstate hids
      · have hstate := (hmade.question hkind).resolve_right hrejected
        unfold MovesFrom
        rw [apply_question hget hkind hstate]
        refine hw.settle hget ?_ (.inl hstate.symm) fun h => by cases h
        exact ⟨.inr hkind, hmade.merge, .inr (.inl rfl), fun _ => .inl rfl⟩

theorem moves_reject (id : OpId) : Moves (ReflectionEngine.reject id) := by
  intro w hw
  cases hget : w.memory.proposals.get? id with
  | none =>
    have hrun : (ReflectionEngine.reject id).run w = (.error .keyError, w) := by
      unfold ReflectionEngine.reject
      rw [Proc.run_bind, Proc.run_read, hget]
      rfl
    exact movesFrom_of_unchanged hw hrun
  | some p =>
    have hfinal : (ReflectionEngine.reject id).final w =
        (ReflectionEngine.setProposalState id .rejected).final w := by
      unfold ReflectionEngine.reject Proc.final
      rw [Proc.run_bind, Proc.run_read, hget]
    have hmade := hw.made id p hget
    unfold MovesFrom
    rw [hfinal]
    refine hw.settle hget ⟨hmade.kind, hmade.merge, .inr (.inr (.inr rfl)), fun _ => .inr rfl⟩ ?_
      fun h => by cases h
    rcases hmade.state with h | h | h | h <;> rw [h]
    exacts [.inr (by decide), .inr (by decide), .inr (by decide), .inl rfl]

theorem wellMade_merge (c : Cluster) (first : MemoryRecord) (rest : List MemoryRecord) (id : OpId)
    {state : ProposalState} (hstate : state = .proposed ∨ state = .userReviewRequired) :
    WellMade { ReflectionEngine.mergeProposal c first rest id with state := state } where
  kind := .inl rfl
  merge _ := by
    refine ⟨_, _, rfl, fun hmem => ?_⟩
    obtain ⟨m, hm, hid⟩ := List.mem_map.mp hmem
    exact of_decide_eq_true (List.mem_filter.mp hm).2 hid
  state := hstate.elim .inl fun h => .inr (.inl h)
  question h := nomatch h

theorem moves_consolidateClusters (s : Strata) (records : List MemoryRecord)
    (clusters : List Cluster) : Moves (s.reflection.consolidateClusters records clusters) := by
  induction clusters with
  | nil => exact .pure _
  | cons c rest ih =>
    unfold ReflectionEngine.consolidateClusters
    split
    · exact ih
    · rename_i first others _
      intro w hw
      let p := ReflectionEngine.mergeProposal c first others w.operationIds
      have hget : (filing p w).memory.proposals.get? w.operationIds = some p :=
        Table.get?_set_self ..
      obtain ⟨hfiled, hadvanced⟩ := hw.propose (p := p) rfl
        (wellMade_merge c first others _ (.inl rfl)) (fun h => by cases h)
      have hrest : Moves (s.reflection.consolidateClusters records rest >>= fun ids =>
          pure (w.operationIds :: ids)) := ih.bind fun ids => .pure _
      suffices h : MovesFrom (filing p w)
          (if s.reflection.autoAcceptThreshold ≤ p.confidence then
            s.reflection.apply w.operationIds >>= fun _ =>
              s.reflection.consolidateClusters records rest >>= fun ids => pure (w.operationIds :: ids)
          else ReflectionEngine.setProposalState w.operationIds .userReviewRequired >>= fun _ =>
            s.reflection.consolidateClusters records rest >>= fun ids =>
              pure (w.operationIds :: ids)) from ⟨h.1, hadvanced.trans h.2⟩
      split
      · exact (moves_apply s _ _ hfiled).bind fun _ => hrest
      · exact (hfiled.settle hget (wellMade_merge c first others _ (.inr rfl))
          (.inr (Nat.zero_lt_one)) fun h => by cases h).bind fun _ => hrest

theorem moves_auditPairs (a : RecordId) (others : List RecordId)
    (seen : List (RecordId × RecordId)) : Moves (ReflectionEngine.auditPairs a others seen) := by
  induction others generalizing seen with
  | nil => exact .pure _
  | cons b rest ih =>
    refine Moves.bind (.read _) fun live => ?_
    split
    · exact ih seen
    · split
      · exact ih seen
      · intro w hw
        have hmade : WellMade (ReflectionEngine.clarifyProposal a b w.operationIds) :=
          ⟨.inr rfl, fun h => (by cases h), .inr (.inl rfl), fun _ => .inl rfl⟩
        obtain ⟨hfiled, hadvanced⟩ := hw.propose rfl hmade (fun h => by cases h)
        obtain ⟨hend, hmore⟩ := (ih ((a, b) :: seen)).bind (fun out => .pure _) _ hfiled
        exact ⟨hend, hadvanced.trans hmore⟩

theorem moves_auditRecords (records : List MemoryRecord) (seen : List (RecordId × RecordId)) :
    Moves (ReflectionEngine.auditRecords records seen) := by
  induction records generalizing seen with
  | nil => exact .pure _
  | cons rec rest ih =>
    refine Moves.bind (.read _) fun tombstoned => ?_
    split
    · exact ih seen
    · refine Moves.bind (.read _) fun others => (moves_auditPairs _ _ _).bind fun out => ?_
      exact (ih _).bind fun _ => .pure _

end Review

section Runs
variable {s : Strata} {w : World Memory}

theorem standing_after (s : Strata) (w : World Memory) (c : Call) (d : Dependency)
    (h : Standing d w) : Standing d (after s w c) :=
  kept_by_guarded_calls (fun _ _ => standing_apply) (fun _ _ => standing_erase) w c h

/-- A call within a session leaves the proposals filed and advanced. -/
theorem moves_after (hw : Filed w) (c : Call) (hopening : isOpening c = false) :
    Filed (after s w c) ∧ Advanced w (after s w c) := by
  have hdiscard : ∀ {α : Type} {p : Prog Memory α}, Moves p → MovesFrom w (discard p) := fun hp => by
    unfold MovesFrom
    rw [Proc.final_discard]
    exact hp w hw
  by_cases hreview : isReview c = true
  · cases c with
    | consolidate =>
      exact hdiscard (Moves.bind (.read _) fun records => moves_consolidateClusters s records _)
    | contradictionAudit =>
      exact hdiscard (Moves.bind (.read _) fun records => moves_auditRecords records [])
    | applyProposal id => exact moves_apply s id w hw
    | rejectProposal id => exact moves_reject id w hw
    | _ => cases hreview
  · have hsame := proposals_after s w c (Bool.eq_false_iff.mpr hreview) hopening
    have hkept : Kept w (after s w c) :=
      ⟨hsame, operationIds_final _ w, fun d => standing_after s w c d⟩
    exact ⟨hkept.filed hw, advanced_of_same hsame⟩

theorem filed_empty (h : w.memory.proposals = ∅) : Filed w := by
  have hnone : ∀ id p, w.memory.proposals.get? id ≠ some p := fun id p hp => by
    rw [h] at hp
    cases hp
  exact ⟨fun id p hp => absurd hp (hnone id p), fun id p hp => absurd hp (hnone id p),
    fun id p hp => absurd hp (hnone id p)⟩

theorem filed_after (hw : Filed w) (c : Call) : Filed (after s w c) := by
  cases hopening : isOpening c with
  | false => exact (moves_after hw c hopening).1
  | true =>
    cases c with
    | openWith embedder custom => exact filed_empty rfl
    | _ => cases hopening

theorem filed_of_reachable (h : Reachable s w) : Filed w :=
  h.invariant (fun _ hw => filed_empty hw.proposals) fun _ c hw => filed_after hw c

theorem advanced_runCalls (hw : Filed w) {calls : List Call}
    (hsession : ∀ c ∈ calls, isOpening c = false) :
    Filed (runCalls s w calls) ∧ Advanced w (runCalls s w calls) := by
  induction calls generalizing w with
  | nil => exact ⟨hw, .refl w⟩
  | cons c rest ih =>
    obtain ⟨hfirst, hrest⟩ := List.forall_mem_cons.mp hsession
    obtain ⟨hfiled, hadvanced⟩ := moves_after (s := s) hw c hfirst
    obtain ⟨hend, hmore⟩ := ih hfiled hrest
    exact ⟨hend, hadvanced.trans hmore⟩

/-- As long as the process runs, a proposal that was made is never lost or altered: only its
state goes on, from waiting to applied to rejected. What is settled is not applied again. -/
theorem proposals_settle_once (h : Reachable s w) {calls : List Call}
    (hsession : ∀ c ∈ calls, isOpening c = false) {id : OpId} {p : Proposal}
    (hp : w.memory.proposals.get? id = some p) :
    let t := runCalls s w calls
    ∃ q, t.memory.proposals.get? id = some q ∧ Later p q ∧ WellMade q ∧ q.id = id ∧
      (rank .applied ≤ rank q.state → after s t (.applyProposal id) = t) := by
  intro t
  obtain ⟨hfiled, hadvanced⟩ := advanced_runCalls (s := s) (filed_of_reachable h) hsession
  obtain ⟨q, hq, hlater⟩ := hadvanced id p hp
  have hmade := hfiled.made id q hq
  refine ⟨q, hq, hlater, hmade, (hfiled.own id q hq).1, fun hsettled => ?_⟩
  have hstate : q.state = .applied ∨ q.state = .rejected := by
    rcases hmade.state with hs | hs | hs | hs
    · rw [hs] at hsettled
      exact absurd hsettled (by decide)
    · rw [hs] at hsettled
      exact absurd hsettled (by decide)
    · exact .inl hs
    · exact .inr hs
  exact Proc.final_of_run (apply_settled hq hstate)

theorem proposals_settle_once_review :
    let w := runCalls plainStrata plainWorld [.writeMemory "tea" {}, .writeMemory "tea" {},
      .consolidate]
    let t := runCalls plainStrata w [.rejectProposal 3]
    ∃ p q, w.memory.proposals.get? 3 = some p ∧ t.memory.proposals.get? 3 = some q ∧ Later p q ∧
      WellMade q ∧ q.id = 3 ∧
      (rank .applied ≤ rank q.state → after plainStrata t (.applyProposal 3) = t) := by
  intro w t
  have hprop : (w.memory.proposals.get? 3).isSome = true := by decide +kernel
  obtain ⟨p, hp⟩ := Option.isSome_iff_exists.mp hprop
  have hsession : ∀ c ∈ [Call.rejectProposal 3], isOpening c = false := by decide
  obtain ⟨q, hq⟩ := proposals_settle_once (s := plainStrata)
    ⟨plainWorld, _, started_plainWorld, rfl⟩ hsession hp
  exact ⟨p, q, hp, hq⟩

theorem superseded_of_edge {db : Db} {parentId id : RecordId}
    (hedge : ⟨parentId, id, .supersedes⟩ ∈ db.canonical.dependencies)
    (hlive : isLiveRecord db parentId = true) : isSupersededByActive db id = true := by
  have hmem : parentId ∈ supersedersOf db id :=
    List.mem_map.mpr ⟨_, List.mem_filter.mpr ⟨hedge, by simp⟩, rfl⟩
  exact List.any_eq_true.mpr ⟨parentId, hmem, hlive⟩

/-- A merge that was applied stays in force in every later state of the node, whatever is called
and across new processes: as long as the primary is live, no recall shows a duplicate as a
belief or a conflict. -/
theorem applied_merge_stays (h : Reachable s w) {id : OpId} {p : Proposal}
    (hp : w.memory.proposals.get? id = some p) (hstate : p.state = .applied)
    {primaryId : RecordId} {dups : List RecordId} (hids : p.recordIds = primaryId :: dups)
    {d : RecordId} (hd : d ∈ dups) (calls : List Call) :
    let t := runCalls s w calls
    Standing ⟨primaryId, d, .supersedes⟩ t ∧
      (isLiveRecord t.db primaryId = true → ∀ text topK generation permit diversity,
        ∀ e ∈ (s.engine.recall t text topK generation permit diversity).allEntries,
          e.id = d → e.category = .hypothesis ∨ e.category = .policyFlag) := by
  intro t
  have hstanding : Standing ⟨primaryId, d, .supersedes⟩ t :=
    standing_runCalls calls ((filed_of_reachable h).applied id p hp hstate primaryId dups hids d hd)
  refine ⟨hstanding, fun hlive text topK generation permit diversity e he hid => ?_⟩
  obtain ⟨m, _, item, hhydrate, hroute⟩ := mem_resolve he
  obtain ⟨hread, _, hkept, _⟩ := hydrate_some hhydrate
  have hitem : item.1.id = d := (route_id hroute).symm.trans hid
  rcases route_cases hroute with ⟨_, rfl | rfl⟩ | ⟨_, hsup, _⟩
  · exact .inl rfl
  · exact .inr rfl
  · rw [hitem] at hsup
    rcases hstanding with hedge | hprimary | hduplicate
    · rw [superseded_of_edge hedge hlive] at hsup
      cases hsup
    · rw [not_tombstoned_of_live hlive] at hprimary
      cases hprimary
    · rw [← hydrate_id hhydrate, hitem] at hkept
      rw [show t.db.isTombstoned d = true from hduplicate] at hkept
      cases hkept

theorem applied_merge_stays_reset :
    let w := runCalls plainStrata plainWorld [.writeMemory "tea" {}, .writeMemory "tea" {},
      .consolidate]
    let t := runCalls plainStrata w [.updateMemory 1 none (some .active), .openWith plainEmbedder false]
    Standing ⟨2, 1, .supersedes⟩ t ∧ isLiveRecord t.db 1 = true ∧ isLiveRecord t.db 2 = true ∧
      ∀ e ∈ (plainStrata.engine.recall t "tea" 10 none none false).allEntries,
        e.id = 1 → e.category = .hypothesis ∨ e.category = .policyFlag := by
  intro w t
  have hprop : (w.memory.proposals.get? 3).any (fun p =>
      p.state = .applied ∧ p.recordIds = [2, 1]) = true := by decide +kernel
  obtain ⟨p, hp, hshape⟩ := (Option.any_eq_true _ _).mp hprop
  obtain ⟨hstate, hids⟩ := of_decide_eq_true hshape
  have hlive : isLiveRecord t.db 2 = true := by decide +kernel
  obtain ⟨hstanding, hrecall⟩ := applied_merge_stays (s := plainStrata)
    ⟨plainWorld, _, started_plainWorld, rfl⟩ hp hstate hids (List.mem_singleton_self 1)
    [.updateMemory 1 none (some .active), .openWith plainEmbedder false]
  exact ⟨hstanding, by decide +kernel, hlive, hrecall hlive "tea" 10 none none false⟩

end Runs
end StrataMemory.ProposalRuns
