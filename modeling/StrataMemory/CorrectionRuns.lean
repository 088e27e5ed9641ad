import StrataMemory.CurrentTruth
import StrataMemory.FlowInvariants

set_option autoImplicit false

namespace StrataMemory.CorrectionRuns
open KeyedTables Records Tables Procedures Worlds CommitEffects CanonicalStore Resolver
open DeletionFlows FlowInvariants Engine Gateway NodeRuns

/-- The edge is in the graph, unless one of its ends has been deleted. -/
def Standing (d : Dependency) (w : World Memory) : Prop :=
  d ∈ w.db.canonical.dependencies ∨ w.db.isTombstoned d.parentId = true ∨
    w.db.isTombstoned d.childId = true

/-- Only an erasure takes an edge out of the graph. -/
theorem apply_dependency {V : Type} {c : Commit V} (hc : isErasure c = false) {w : World V}
    {d : Dependency} (hd : d ∈ w.db.canonical.dependencies) :
    d ∈ (apply c w).db.canonical.dependencies := by
  cases c with
  | hardDelete id => cases hc
  | write record =>
    rw [dependencies_write]
    exact hd
  | addDependency parentId childId rel => exact mem_addDependency hd parentId childId rel
  | registerGeneration generation modelId status =>
    simp only [apply, World.stamp]
    split <;> exact hd
  | _ => exact hd

theorem standing_apply {d : Dependency} {c : Commit Memory} {w : World Memory}
    (hc : isErasure c = false) (h : Standing d w) : Standing d (apply c w) := by
  rcases h with hd | hparent | hchild
  · exact .inl (apply_dependency hc hd)
  · exact .inr (.inl (apply_isTombstoned c w _ hparent))
  · exact .inr (.inr (apply_isTombstoned c w _ hchild))

theorem standing_erase {d : Dependency} {id : RecordId} {w : World Memory}
    (hid : w.db.isTombstoned id = true) (h : Standing d w) :
    Standing d (apply (.hardDelete id) w) := by
  rcases h with hd | hdeleted
  · by_cases hparent : d.parentId = id
    · exact .inr (.inl (hparent ▸ hid))
    · by_cases hchild : d.childId = id
      · exact .inr (.inr (hchild ▸ hid))
      · exact .inl (List.mem_filter.mpr ⟨hd, by simp [hparent, hchild]⟩)
  · exact .inr hdeleted

theorem standing_runCalls {s : Strata} {d : Dependency} (calls : List Call) {w : World Memory}
    (h : Standing d w) : Standing d (runCalls s w calls) := by
  induction calls generalizing w with
  | nil => exact h
  | cons c calls ih =>
    exact ih (kept_by_guarded_calls (fun _ _ => standing_apply) (fun _ _ => standing_erase) w c h)

theorem standing_flow (s : Strata) (d : Dependency) :
    FlowInvariant s (fun _ => True) (Standing d) fun _ => True :=
  flowInvariant_of_commits
    (fun _ _ hc => standing_apply (Bool.or_eq_false_iff.mp hc).2) s

theorem addDependency_links {parentId childId : RecordId} {rel : Relation} {w u : World Memory}
    (h : (CanonicalStore.addDependency parentId childId rel : Prog Memory Unit).run w = (.ok (), u)) :
    ⟨parentId, childId, rel⟩ ∈ u.db.canonical.dependencies := by
  rw [addDependency_run] at h
  split at h
  · rename_i hallowed
    cases h
    exact mem_addDependency_self hallowed rel
  · cases h

theorem flow_links (s : Strata) {oldId : RecordId} {record written : MemoryRecord}
    {relation : Relation} {keep : Bool} {w u : World Memory}
    (h : (DeletionFlows.correct s.engine.deletion oldId record relation keep).run w =
      (.ok written, u)) : Standing ⟨record.id, oldId, relation⟩ u := by
  have hflow := standing_flow s ⟨record.id, oldId, relation⟩
  obtain ⟨r, _, hwrite, h⟩ := Proc.of_bind_ok h
  have hid : r.id = record.id := (storeWrite_yields record).run hwrite
  obtain ⟨_, _, _, h⟩ := Proc.of_bind_ok h
  obtain ⟨_, v, hedge, h⟩ := Proc.of_bind_ok h
  have hlinked := addDependency_links hedge
  rw [hid] at hlinked
  refine Proc.Preserves.run ?_ h (.inl hlinked)
  refine (hflow.index trivial).bind fun _ => ?_
  cases keep with
  | true => exact Proc.Preserves.pure _
  | false => exact (hflow.purge [oldId]).bind fun _ => Proc.Preserves.pure _

theorem correct_links (s : Strata) {oldId : RecordId} {record written : MemoryRecord}
    {relation : Relation} {w u : World Memory}
    (h : (s.engine.correct oldId record relation).run w = (.ok written, u)) :
    Standing ⟨record.id, oldId, relation⟩ u := by
  have hflow := standing_flow s ⟨record.id, oldId, relation⟩
  obtain ⟨_, _, hcorrect, h⟩ := Proc.of_bind_ok h
  refine Proc.Preserves.run ?_ h (flow_links s hcorrect)
  refine Proc.Preserves.bind (Proc.Preserves.read _) fun active => ?_
  refine (hflow.enqueueVectorUpsert trivial active).bind fun _ => ?_
  exact hflow.runUntilIdle.bind fun _ => Proc.Preserves.pure _

theorem not_tombstoned_of_live {db : Db} {id : RecordId} (h : isLiveRecord db id = true) :
    db.isTombstoned id = false := by
  unfold isLiveRecord at h
  cases hread : db.readOne id with
  | none =>
    rw [hread] at h
    cases h
  | some r =>
    rw [hread] at h
    simpa using (Bool.and_eq_true_iff.mp h).2

theorem not_current_of_standing {p : Platform} {w : World Memory} {newId oldId : RecordId}
    {relation : Relation} (hrel : relation = .supersedes ∨ relation = .contradicts)
    (h : Standing ⟨newId, oldId, relation⟩ w) (hlive : isLiveRecord w.db newId = true)
    {candidates : List Candidate} {now : Time} {permit : Option (MemoryRecord → Bool)}
    {budgets : Budgets} {diversity : Bool} {threshold : ℚ} {c : Category}
    (hc : isCurrent c = true) {e : BundleEntry}
    (he : e ∈ (resolve p w.db candidates now permit budgets diversity threshold).entries c) :
    e.id ≠ oldId := by
  rintro rfl
  obtain ⟨_, hold, huncontested⟩ := current_uncontested hc he
  rcases h with hd | hparent | hchild
  · have hdead : isLiveRecord w.db newId = false := by
      rcases hrel with rfl | rfl
      · exact huncontested.superseders _ hd rfl rfl
      · exact (huncontested.contradictors _ hd rfl).1 rfl
    rw [hdead] at hlive
    cases hlive
  · rw [not_tombstoned_of_live hlive] at hparent
    cases hparent
  · rw [not_tombstoned_of_live hold] at hchild
    cases hchild

def Corrected (s : Strata) (oldId : RecordId) (record : MemoryRecord) (relation : Relation)
    (w u : World Memory) : Prop :=
  ∃ written, (s.engine.correct oldId record relation).run w = (.ok written, u) ∨
    ∃ keep, (DeletionFlows.correct s.engine.deletion oldId record relation keep).run w =
      (.ok written, u)

theorem corrected_of_isOk {s : Strata} {oldId : RecordId} {record : MemoryRecord}
    {relation : Relation} {w : World Memory}
    (h : ((s.engine.correct oldId record relation).run w).1.isOk = true) :
    Corrected s oldId record relation w ((s.engine.correct oldId record relation).final w) := by
  obtain ⟨written, hrun⟩ := Proc.ok_of_isOk h
  exact ⟨written, .inl hrun⟩

/-- Current truth is free of conflicts, and what has been corrected does not come back to
it in any later state in which the new record is live. -/
theorem current_truth (s : Strata) :
    (∀ db candidates now permit budgets diversity threshold, ConflictFree db
      (resolve s.engine.platform db candidates now permit budgets diversity threshold)) ∧
    ∀ oldId record relation w u calls, relation = .supersedes ∨ relation = .contradicts →
      Corrected s oldId record relation w u →
      isLiveRecord (runCalls s u calls).db record.id = true →
      ∀ candidates now permit budgets diversity threshold c e, isCurrent c = true →
        e ∈ (resolve s.engine.platform (runCalls s u calls).db candidates now permit budgets
          diversity threshold).entries c →
        e.id ≠ oldId := by
  refine ⟨fun db => conflictFree_resolve s.engine.platform db, ?_⟩
  intro oldId record relation w u calls hrel hcorrected hlive candidates now permit budgets
    diversity threshold c e hc he
  have hstanding : Standing ⟨record.id, oldId, relation⟩ u := by
    obtain ⟨written, hrun | ⟨keep, hrun⟩⟩ := hcorrected
    · exact correct_links s hrun
    · exact flow_links s hrun
  exact not_current_of_standing hrel (standing_runCalls calls hstanding) hlive hc he

def milk : MemoryRecord where
  id := 2
  content := "milk"
  recordType := .fact
  tier := .l1
  status := .active
  recordSubtype := none
  confidence := none
  confidenceReason := none
  salience := none
  sensitivity := .normal
  contentHash := "milk"
  embeddingModelId := none
  embeddingGeneration := none
  validFrom := none
  validUntil := none
  createdAt := 0
  updatedAt := 0
  currentVersionId := none
  modelSide := none

/-- Marking the old record active again does not bring it back. -/
theorem current_truth_reactivated :
    let w := runCalls plainStrata plainWorld [.writeMemory "tea" {}]
    let u := (plainStrata.engine.correct 1 milk).final w
    let t := runCalls plainStrata u [.updateMemory 1 none (some .active)]
    ∀ e ∈ (resolve plainPlatform t.db [{ recordId := 1 }] 0 none).entries .currentBelief,
      e.id ≠ 1 := by
  intro w u t e he
  have hcorrected : Corrected plainStrata 1 milk .supersedes w u := corrected_of_isOk (by decide)
  exact (current_truth plainStrata).2 1 milk .supersedes w u _ (.inl rfl) hcorrected (by decide)
    [{ recordId := 1 }] 0 none _ _ _ .currentBelief e rfl he

end StrataMemory.CorrectionRuns
