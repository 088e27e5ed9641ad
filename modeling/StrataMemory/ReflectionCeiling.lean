import StrataMemory.ContradictionAudit
import StrataMemory.RecallableMerges
import Mathlib.Data.List.Flatten

set_option autoImplicit false

namespace StrataMemory.ReflectionCeiling
open KeyedTables Records Tables Procedures Worlds CommitEffects Coordinator CoordinatorRuns
open CanonicalStore ManagedSurfaces SurfaceRounds Resolver Engine MemoryEngine Gateway
open ReflectionEngine Clustering Consolidation VerifiedDeletions NodeRuns ContradictionAudit

def proposalCommit (p : Proposal) : Commit Memory :=
  .memory fun m => { m with proposals := m.proposals.add p }

theorem proposalCommit_inj {p q : Proposal} (h : proposalCommit p = proposalCommit q) : p = q := by
  have hfun := Commit.memory.inj h
  have hadd : (∅ : ProposalStore).add p = (∅ : ProposalStore).add q :=
    congrArg Memory.proposals (congrFun hfun plainWorld.memory)
  have hget := congrArg (fun s : ProposalStore => s.get? p.id) hadd
  unfold ProposalStore.add at hget
  rw [Table.get?_set_self, Table.get?_set] at hget
  split at hget
  · exact Option.some.inj hget
  · cases hget

def Silent (c : Commit Memory) : Prop := ∀ p, c ≠ proposalCommit p

theorem silent_of_not_memory {c : Commit Memory} (h : isMemory c = false) : Silent c := by
  rintro p rfl
  cases h

theorem silent_memory {f : Memory → Memory} (h : ∀ m, m.proposals = ∅ → (f m).proposals = ∅) :
    Silent (.memory f) := by
  intro p hp
  have hfun := congrFun (Commit.memory.inj hp) plainWorld.memory
  have hempty := h plainWorld.memory rfl
  rw [hfun] at hempty
  have hget := congrArg (fun s : ProposalStore => s.get? p.id) hempty
  have hself : ((∅ : ProposalStore).add p).get? p.id = some p := Table.get?_set_self _ _ _
  rw [show (plainWorld.memory.proposals.add p).get? p.id = some p from hself] at hget
  cases hget

theorem makeHandler_proposals (name : String) (op : Operation) (m : Memory) :
    (makeHandler name op m).2.proposals = m.proposals := by
  have happly : (applyToStore name op m).2.proposals = m.proposals := by
    unfold applyToStore
    split <;> rfl
  unfold makeHandler
  split
  · rfl
  · exact happly

theorem silent_queue (e : MemoryEngine) : QueueAllows e.coordinator Silent where
  work _ _ hmemory := silent_of_not_memory hmemory
  handle op := by
    unfold callHandler
    split
    · trivial
    · rename_i handler hhandler
      obtain ⟨name, _, hname⟩ := Option.bind_eq_some_iff.mp hhandler
      refine (Proc.uses_performing _ _ _).mpr (silent_memory fun m hm => ?_)
      change (if name ∈ e.vectorNames then some (makeHandler name) else none) = _ at hname
      split at hname
      · cases hname
        exact (makeHandler_proposals name op m).trans hm
      · cases hname

theorem silent_purge (e : MemoryEngine) (ids : List RecordId) :
    (purge e.registry ids).Uses Silent := by
  have hcommit : ∀ {c : Commit Memory}, isMemory c = false → (Worlds.commit c).Uses Silent :=
    fun h => (uses_commit _ _).mpr (silent_of_not_memory h)
  have hsurface : ∀ s ∈ e.registry, (s.remove ids).Uses Silent := by
    intro s hs
    rcases List.mem_append.mp hs with hs | hs
    · rcases List.mem_cons.mp hs with rfl | hs
      · refine Proc.Uses.bind ?_ fun _ => uses_query _ _
        unfold CanonicalStore.removePostings
        split
        · trivial
        · exact hcommit rfl
      · obtain ⟨name, _, rfl⟩ := List.mem_map.mp hs
        refine Proc.Uses.bind ?_ fun opId => Proc.Uses.bind ?_ fun _ => ?_
        · exact (uses_newOperationId _).mpr (silent_of_not_memory rfl)
        · exact (uses_enqueue _ _).mpr (silent_of_not_memory rfl)
        · exact ((silent_queue e).drain maxSteps).bind fun _ => Proc.uses_read _ _
    · cases List.mem_singleton.mp hs
      refine Proc.Uses.bind ((uses_commit _ _).mpr ?_) fun _ => Proc.uses_read _ _
      exact silent_memory fun _ hm => hm
  suffices h : ∀ (registry : Registry Memory) report, (∀ s ∈ registry, (s.remove ids).Uses Silent) →
      (purgeInto ids registry report).Uses Silent from h _ _ hsurface
  intro registry
  induction registry with
  | nil => exact fun _ _ => trivial
  | cons s rest ih =>
    intro report hall
    refine Proc.Uses.bind (hcommit rfl) fun _ => ?_
    refine (hall s List.mem_cons_self).bind fun perId => ?_
    exact ih _ fun t ht => hall t (List.mem_cons_of_mem _ ht)

theorem silent_setProposalState (id : OpId) (state : ProposalState) :
    (setProposalState id state).Uses Silent := by
  refine (uses_commit _ _).mpr (silent_memory fun m hm => ?_)
  change m.proposals.setState id state = ∅
  rw [hm]
  rfl

theorem silent_supersedeDuplicates (primaryId : RecordId) (ids : List RecordId) :
    (supersedeDuplicates primaryId ids).Uses Silent := by
  induction ids with
  | nil => trivial
  | cons d rest ih =>
    intro w
    change (if (decide (d = primaryId) || w.db.isTombstoned d) = true then
        supersedeDuplicates primaryId rest
      else _).Uses Silent
    split
    · exact ih
    · refine Proc.Uses.bind ((uses_commit _ _).mpr ?_) fun _ => Proc.Uses.bind ?_ fun _ => ?_
      · exact silent_of_not_memory rfl
      · refine ⟨silent_of_not_memory rfl, fun v => ?_⟩
        dsimp only
        split <;> trivial
      · exact ih.bind fun _ => trivial

theorem silent_mergeRecords (e : MemoryEngine) (primaryId : RecordId) (ids : List RecordId) :
    (e.mergeRecords primaryId ids).Uses Silent := by
  refine (silent_supersedeDuplicates primaryId ids).bind fun removed => ?_
  split
  · exact (silent_purge e _).bind fun _ => trivial
  · trivial

theorem silent_apply (r : ReflectionEngine) (id : OpId) : (r.apply id).Uses Silent := by
  refine Proc.Uses.bind (Proc.uses_read _ _) fun found => ?_
  cases found with
  | none => trivial
  | some prop =>
    dsimp only
    split
    · trivial
    · split
      · split
        · exact uses_raise _ _
        · exact (silent_mergeRecords _ _ _).bind fun _ => silent_setProposalState _ _
      · exact silent_setProposalState _ _
      · trivial
      · trivial

/-- The id is of a live record that the policy lets reflection use. -/
def WithinCeiling (policy : SensitivityPolicy) (db : Db) (id : RecordId) : Prop :=
  ∃ r, db.readOne id = some r ∧ r.status.isActive = true ∧ db.isTombstoned id = false ∧
    policy.canReflectOn r = true

/-- If the commit makes a proposal, it names only such records of the world it is made in. -/
def Respects (policy : SensitivityPolicy) (c : Commit Memory) (w : World Memory) : Prop :=
  ∀ p, c = proposalCommit p → ∀ id, p.names id = true → WithinCeiling policy w.db id

def RespectsCeiling {α : Type} (policy : SensitivityPolicy) (job : Prog Memory α)
    (w : World Memory) : Prop :=
  job.Heeds (Respects policy) w

section Ceiling
variable {policy : SensitivityPolicy} {w : World Memory}

theorem respects_of_silent {α : Type} {job : Prog Memory α} (h : job.Uses Silent) :
    RespectsCeiling policy job w :=
  h.heeds (fun _ _ hc p hp => absurd hp (hc p)) w

theorem respects_addProposal {p : Proposal} : RespectsCeiling policy (addProposal p) w ↔
    ∀ id, p.names id = true → WithinCeiling policy w.db id := by
  refine ⟨fun h => h.1 p rfl, fun h => ⟨fun q hq => ?_, trivial⟩⟩
  rw [← proposalCommit_inj hq]
  exact h

theorem respects_newOperationId :
    RespectsCeiling policy (newOperationId : Prog Memory OpId) w :=
  respects_of_silent ((uses_newOperationId _).mpr (silent_of_not_memory rfl))

def Usable (policy : SensitivityPolicy) (w : World Memory) (g : Cohort MemoryRecord) : Prop :=
  ∀ a ∈ g.items, w.db.readOne a.id = some a ∧ a.status.isActive = true ∧
    w.db.isTombstoned a.id = false ∧ policy.canReflectOn a = true

theorem Usable.mergeable {g : Cohort MemoryRecord} (h : Usable policy w g) : Mergeable w g :=
  fun a ha => ⟨by rw [(h a ha).1]; rfl, (h a ha).2.2.1⟩

theorem Usable.merged {t : World Memory} {g : Cohort MemoryRecord}
    {pairs : List (RecordId × RecordId)} (h : Usable policy w g) (hmerged : Merged pairs w t)
    (hapart : ∀ a ∈ g.items, a.id ∉ pairs.map Prod.snd) : Usable policy t g := fun a ha => by
  rw [hmerged.others a.id (hapart a ha), hmerged.isTombstoned]
  exact h a ha

theorem names_mergeProposal {g : Cohort MemoryRecord} {p : OpId} {id : RecordId}
    (h : (mergeProposal (clusterOf g) g.leader g.followers p).names id = true) :
    ∃ a ∈ g.items, a.id = id := by
  unfold Proposal.names at h
  rw [Bool.or_eq_true, decide_eq_true_eq, decide_eq_true_eq] at h
  rcases h with h | h
  · rcases List.mem_cons.mp h with rfl | h
    · exact ⟨primary g, primary_mem g, rfl⟩
    · exact (mem_duplicates.mp h).2
  · exact List.mem_map.mp h

theorem respects_consolidateClusters (r : ReflectionEngine) {records : List MemoryRecord}
    (hrecords : (records.map MemoryRecord.id).Nodup) {gs : List (Cohort MemoryRecord)}
    (hmembers : ∀ g ∈ gs, ∀ a ∈ g.items, a ∈ records)
    (hids : ((gs.flatMap Cohort.items).map MemoryRecord.id).Nodup)
    (hgs : ∀ g ∈ gs, Usable policy w g) :
    RespectsCeiling policy (consolidateClusters r records (gs.map clusterOf)) w := by
  induction gs generalizing w with
  | nil => trivial
  | cons g rest ih =>
    rw [List.flatMap_cons, List.map_append, List.nodup_append] at hids
    obtain ⟨_, hrest, hapart⟩ := hids
    have hitems := members_clusterOf hrecords (hmembers g List.mem_cons_self)
    unfold members at hitems
    simp only [List.map_cons, consolidateClusters]
    rw [hitems]
    refine Proc.heeds_bind.mpr ⟨respects_newOperationId, fun id u hu => ?_⟩
    cases hu
    have husable := hgs g List.mem_cons_self
    refine Proc.heeds_bind.mpr ⟨respects_addProposal.mpr fun id hid => ?_, fun _ v hv => ?_⟩
    · obtain ⟨a, ha, rfl⟩ := names_mergeProposal hid
      exact ⟨a, husable a ha⟩
    have hlater : ∀ {t : World Memory} {pairs : List (RecordId × RecordId)}, Merged pairs w t →
        (∀ other ∈ pairs.map Prod.snd, ∃ a ∈ g.items, a.id = other) →
        RespectsCeiling policy (consolidateClusters r records (rest.map clusterOf)) t := by
      intro t pairs hmerged hown
      refine ih (fun h hh => hmembers h (List.mem_cons_of_mem _ hh)) hrest fun h hh => ?_
      refine (hgs h (List.mem_cons_of_mem _ hh)).merged hmerged fun a ha hout => ?_
      obtain ⟨b, hb, hsame⟩ := hown a.id hout
      exact hapart b.id (List.mem_map_of_mem hb) a.id
        (List.mem_map_of_mem (List.mem_flatMap.mpr ⟨h, hh, ha⟩)) hsame
    cases hv
    split
    · have hmade : Merged [] w (apply (proposalCommit (mergeProposal (clusterOf g) g.leader
          g.followers w.operationIds)) (apply .newOperationId w)) := .none rfl
      have hproposed := husable.mergeable.merged hmade
      obtain ⟨t, hrun, hmerged⟩ := apply_run r hproposed (c := clusterOf g) (Table.get?_set_self ..)
      refine Proc.heeds_bind.mpr ⟨respects_of_silent (silent_apply r _), fun _ t' hrun' => ?_⟩
      cases hrun.symm.trans hrun'
      refine Proc.heeds_bind.mpr ⟨hlater (hmade.trans hmerged) fun other hout => ?_,
        fun _ _ _ => trivial⟩
      rw [List.nil_append, List.map_map] at hout
      obtain ⟨d, hd, rfl⟩ := List.mem_map.mp hout
      exact (mem_duplicates.mp hd).2
    · refine Proc.heeds_bind.mpr ⟨respects_of_silent (silent_setProposalState _ _),
        fun _ t ht => ?_⟩
      cases ht
      exact Proc.heeds_bind.mpr ⟨hlater (.none rfl) fun _ h => absurd h List.not_mem_nil,
        fun _ _ _ => trivial⟩

theorem respects_consolidate (r : ReflectionEngine) (w : World Memory) :
    RespectsCeiling r.engine.policy r.consolidate w := by
  refine Proc.heeds_bind.mpr ⟨trivial, fun records v hv => ?_⟩
  cases hv
  rw [reviewWorthy_groups]
  have hmem : ∀ g ∈ (groups r w.db).filter (fun g => 2 ≤ g.items.length), ∀ a ∈ g.items,
      a ∈ reflectableL1Facts r w.db := fun g hg a ha =>
    mem_of_groups (List.mem_filter.mp hg).1 ha
  refine respects_consolidateClusters r (reflectable_nodup r w.db) hmem ?_ fun g hg a ha => ?_
  · have hall : (((groups r w.db).flatMap Cohort.items).map MemoryRecord.id).Nodup :=
      ((cohorts_perm _).map _).nodup_iff.mpr (reflectable_nodup r w.db)
    exact hall.sublist ((List.filter_sublist.flatMap _).map _)
  · obtain ⟨hrow, _, _, hactive, hlive, hpolicy⟩ := mem_reflectable.mp (hmem g hg a ha)
    exact ⟨hrow, hactive, hlive, hpolicy⟩

theorem heeds_query {α β : Type} {P : Commit Memory → World Memory → Prop} (f : Db → α)
    (next : α → Prog Memory β) : (query f >>= next).Heeds P w ↔ (next (f w.db)).Heeds P w :=
  Iff.rfl

def BothWithin (policy : SensitivityPolicy) (db : Db) (p : RecordId × RecordId) : Prop :=
  WithinCeiling policy db p.1 ∧ WithinCeiling policy db p.2

theorem respects_auditPairs {a : RecordId} {others : List RecordId}
    {seen : List (RecordId × RecordId)} (hseen : ∀ p ∈ seen, BothWithin policy w.db p) :
    RespectsCeiling policy (auditPairs a others seen) w ↔
      ∀ p ∈ others.foldl (note w.db a) seen, BothWithin policy w.db p := by
  induction others generalizing seen w with
  | nil => exact ⟨fun _ => hseen, fun _ => trivial⟩
  | cons b rest ih =>
    rw [List.foldl_cons]
    unfold RespectsCeiling auditPairs
    rw [heeds_query, note_eq]
    split_ifs
    · exact ih hseen
    · exact ih hseen
    · have hpair : (∀ id, (clarifyProposal a b w.operationIds).names id = true →
          WithinCeiling policy w.db id) ↔ BothWithin policy w.db (a, b) := by
        simp only [names_clarify, BothWithin]
        exact ⟨fun h => ⟨h a (.inl rfl), h b (.inr rfl)⟩,
          fun h id hid => by rcases hid with rfl | rfl; exacts [h.1, h.2]⟩
      have hrest : BothWithin policy w.db (a, b) →
          (RespectsCeiling policy (auditPairs a rest ((a, b) :: seen)) (propose w (a, b)) ↔
            ∀ p ∈ rest.foldl (note w.db a) ((a, b) :: seen), BothWithin policy w.db p) :=
        fun hboth => ih (w := propose w (a, b)) (List.forall_mem_cons.mpr ⟨hboth, hseen⟩)
      constructor
      · intro h
        have hadd := (Proc.heeds_bind.mp h).2 _ _ (run_newOperationId w)
        have hboth := hpair.mp (respects_addProposal.mp (Proc.heeds_bind.mp hadd).1)
        have hmore := (Proc.heeds_bind.mp hadd).2 () (propose w (a, b)) rfl
        exact (hrest hboth).mp (Proc.heeds_bind.mp hmore).1
      · intro h
        have hboth := h (a, b) (subset_notes rest List.mem_cons_self)
        refine Proc.heeds_bind.mpr ⟨respects_newOperationId, fun id v hv => ?_⟩
        cases hv
        refine Proc.heeds_bind.mpr ⟨respects_addProposal.mpr (hpair.mpr hboth), fun _ v hv => ?_⟩
        cases hv
        exact Proc.heeds_bind.mpr ⟨(hrest hboth).mpr h, fun _ _ _ => trivial⟩

theorem respects_auditRecords {records : List MemoryRecord} {seen : List (RecordId × RecordId)}
    (hseen : ∀ p ∈ seen, BothWithin policy w.db p) :
    RespectsCeiling policy (auditRecords records seen) w ↔
      ∀ p ∈ records.foldl (noteAll w.db) seen, BothWithin policy w.db p := by
  induction records generalizing seen w with
  | nil => exact ⟨fun _ => hseen, fun _ => trivial⟩
  | cons r rest ih =>
    rw [List.foldl_cons]
    unfold RespectsCeiling auditRecords noteAll CanonicalStore.isTombstoned
    rw [heeds_query]
    split_ifs
    · exact ih hseen
    · rw [heeds_query, Proc.heeds_bind]
      obtain ⟨made, hnotes, hrun⟩ := auditPairs_run r.id (contradictorsOf w.db r.id) seen w
      rw [← hnotes] at hrun
      have hpairs : RespectsCeiling policy (auditPairs r.id (contradictorsOf w.db r.id) seen) w ↔
          ∀ p ∈ (contradictorsOf w.db r.id).foldl (note w.db r.id) seen, BothWithin policy w.db p :=
        respects_auditPairs hseen
      have hrest : (∀ p ∈ (contradictorsOf w.db r.id).foldl (note w.db r.id) seen,
            BothWithin policy w.db p) →
          (RespectsCeiling policy (auditRecords rest
              ((contradictorsOf w.db r.id).foldl (note w.db r.id) seen)) (made.foldl propose w) ↔
            ∀ p ∈ rest.foldl (noteAll w.db)
              ((contradictorsOf w.db r.id).foldl (note w.db r.id) seen),
              BothWithin policy w.db p) := fun hnoted => by
        rw [← proposed_db made w] at hnoted ⊢
        exact ih hnoted
      constructor
      · rintro ⟨hfirst, hthen⟩
        exact (hrest (hpairs.mp hfirst)).mp (Proc.heeds_bind.mp (hthen _ _ hrun)).1
      · intro h
        have hnoted := fun p hp => h p (subset_audited rest hp)
        refine ⟨hpairs.mpr hnoted, fun out v hv => ?_⟩
        cases hrun.symm.trans hv
        exact Proc.heeds_bind.mpr ⟨(hrest hnoted).mpr h, fun _ _ _ => trivial⟩

/-- The audit asks for no ceiling: what it names respects it just when every contradiction
between live records does. -/
theorem respects_contradictionAudit :
    RespectsCeiling policy contradictionAudit w ↔
      ∀ d ∈ w.db.canonical.dependencies, d.rel = .contradicts →
        isLiveRecord w.db d.parentId = true → isLiveRecord w.db d.childId = true →
          WithinCeiling policy w.db d.parentId ∧ WithinCeiling policy w.db d.childId := by
  unfold RespectsCeiling contradictionAudit
  rw [heeds_query]
  refine (respects_auditRecords fun _ h => absurd h List.not_mem_nil).trans ?_
  constructor
  · intro h d hd hrel hparent hchild
    have hcontradict : Contradict w.db d.parentId d.childId := ⟨d, hd, hrel, .inl ⟨rfl, rfl⟩⟩
    rcases mem_unordered.mp (mem_audited_iff.mpr ⟨hcontradict, hparent, hchild⟩) with hpair | hpair
    · exact h _ hpair
    · exact (h _ hpair).symm
  · rintro h ⟨a, b⟩ hp
    obtain ⟨⟨d, hd, hrel, ⟨rfl, rfl⟩ | ⟨rfl, rfl⟩⟩, ha, hb⟩ :=
      mem_audited_iff.mp (mem_unordered.mpr (.inl hp))
    · exact h d hd hrel ha hb
    · exact (h d hd hrel hb ha).symm

/-- Consolidation names only live records within the ceiling when it makes a proposal. The
audit does just when no contradiction between live records has an end above the ceiling. -/
theorem reflection_respects_ceiling_iff (r : ReflectionEngine) (w : World Memory) :
    RespectsCeiling r.engine.policy r.consolidate w ∧
    (RespectsCeiling r.engine.policy contradictionAudit w ↔
      ∀ d ∈ w.db.canonical.dependencies, d.rel = .contradicts →
        isLiveRecord w.db d.parentId = true → isLiveRecord w.db d.childId = true →
          WithinCeiling r.engine.policy w.db d.parentId ∧
            WithinCeiling r.engine.policy w.db d.childId) :=
  ⟨respects_consolidate r w, respects_contradictionAudit⟩

/-- The audit names a secret that a normal memory contradicts. -/
theorem audit_names_secret :
    let w := runCalls plainStrata plainWorld
      [.writeMemory "tea" { sensitivity := .secret }, .writeMemory "milk" {},
        .addDependency 2 1 .contradicts]
    ¬ RespectsCeiling plainStrata.reflection.engine.policy contradictionAudit w := by
  intro w hrespects
  have hedge : (⟨2, 1, .contradicts⟩ : Dependency) ∈ w.db.canonical.dependencies := by decide
  obtain ⟨r, hrow, _, _, hceiling⟩ := (respects_contradictionAudit.mp hrespects _ hedge rfl
    (by decide) (by decide)).2
  have hsecret : (w.db.readOne 1).all fun r =>
      !plainStrata.reflection.engine.policy.canReflectOn r := by decide
  rw [hrow] at hsecret
  simp [hceiling] at hsecret

end Ceiling

end StrataMemory.ReflectionCeiling
