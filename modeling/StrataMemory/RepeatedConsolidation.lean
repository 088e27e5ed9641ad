import StrataMemory.Consolidation
import Mathlib.Logic.Function.Iterate

set_option autoImplicit false

namespace StrataMemory.RepeatedConsolidation
open KeyedTables Records Tables Procedures Worlds Coordinator CanonicalStore Resolver Engine
open MemoryEngine Gateway ReflectionEngine Clustering Consolidation NodeRuns

/-- The questions were filed under the ids drawn since, one by one, and nothing else has
changed. -/
structure Asked (questions : List (OpId → Proposal)) (w t : World Memory) : Prop where
  db : t.db = w.db
  memory : t.memory = { w.memory with proposals := t.memory.proposals }
  drawn : t.operationIds = w.operationIds + questions.length
  filed : ∀ k question, questions[k]? = some question →
    t.memory.proposals.get? (w.operationIds + k) = some (question (w.operationIds + k))
  kept : ∀ id, id < w.operationIds ∨ t.operationIds ≤ id →
    t.memory.proposals.get? id = w.memory.proposals.get? id

/-- Whether to merge the records of a group, left for review. -/
def question (g : Cohort MemoryRecord) (id : OpId) : Proposal :=
  { mergeProposal (clusterOf g) g.leader g.followers id with state := .userReviewRequired }

section Asked
variable {w v t : World Memory} {qs rs : List (OpId → Proposal)}

theorem Asked.refl (w : World Memory) : Asked [] w w where
  db := rfl
  memory := rfl
  drawn := rfl
  filed _ _ h := by cases h
  kept _ _ := rfl

theorem Asked.trans (h : Asked qs w v) (h' : Asked rs v t) : Asked (qs ++ rs) w t where
  db := h'.db.trans h.db
  memory := by
    rw [h'.memory, h.memory]
  drawn := by rw [h'.drawn, h.drawn, List.length_append, Nat.add_assoc]
  filed k q hq := by
    by_cases hk : k < qs.length
    · rw [List.getElem?_append_left hk] at hq
      have hbefore : w.operationIds + k < v.operationIds := h.drawn ▸ Nat.add_lt_add_left hk _
      rw [h'.kept _ (.inl hbefore)]
      exact h.filed k q hq
    · have hk' := Nat.le_of_not_lt hk
      rw [List.getElem?_append_right hk'] at hq
      have hlater := h'.filed _ q hq
      rwa [h.drawn, Nat.add_assoc, Nat.add_sub_cancel' hk'] at hlater
  kept id hid := by
    have hv : w.operationIds ≤ v.operationIds := h.drawn ▸ Nat.le_add_right _ _
    have ht : v.operationIds ≤ t.operationIds := h'.drawn ▸ Nat.le_add_right _ _
    exact (h'.kept id (hid.imp_left fun hlt => hlt.trans_le hv)).trans
      (h.kept id (hid.imp_right ht.trans))

def asking (p : Proposal) (w : World Memory) : World Memory :=
  (setProposalState p.id .userReviewRequired).final
    ((addProposal p).final (apply .newOperationId w))

theorem proposals_asking (p : Proposal) (w : World Memory) (id : OpId) :
    (asking p w).memory.proposals.get? id =
      if p.id = id then some { p with state := .userReviewRequired }
      else w.memory.proposals.get? id := by
  have hadd : ((addProposal p).final (apply .newOperationId w)).memory.proposals.get? id =
      if p.id = id then some p else w.memory.proposals.get? id := Table.get?_set ..
  have hget : (asking p w).memory.proposals.get? id = _ := Table.get?_modify ..
  rw [hget, hadd]
  split <;> rfl

theorem asked_asking (g : Cohort MemoryRecord) (w : World Memory) :
    Asked [question g] w (asking (mergeProposal (clusterOf g) g.leader g.followers w.operationIds) w) where
  db := rfl
  memory := rfl
  drawn := rfl
  filed k q hq := by
    cases k with
    | zero =>
      cases hq
      rw [proposals_asking]
      exact if_pos rfl
    | succ k => cases hq
  kept id hid := by
    rw [proposals_asking]
    refine if_neg fun hsame : w.operationIds = id => ?_
    rw [← hsame] at hid
    exact hid.elim (Nat.lt_irrefl _) (Nat.not_succ_le_self _)

end Asked

section Runs
variable {r : ReflectionEngine} {w t : World Memory}

theorem consolidateClusters_asks {records : List MemoryRecord}
    (hrecords : (records.map MemoryRecord.id).Nodup) {gs : List (Cohort MemoryRecord)}
    (hmembers : ∀ g ∈ gs, ∀ a ∈ g.items, a ∈ records)
    (hreview : ∀ g ∈ gs, ¬ r.autoAcceptThreshold ≤ confidence g) (w : World Memory) :
    Asked (gs.map question) w ((consolidateClusters r records (gs.map clusterOf)).final w) := by
  induction gs generalizing w with
  | nil => exact .refl w
  | cons g rest ih =>
    have hitems := members_clusterOf hrecords (hmembers g List.mem_cons_self)
    unfold members at hitems
    let p := mergeProposal (clusterOf g) g.leader g.followers w.operationIds
    have hstep : (consolidateClusters r records ((g :: rest).map clusterOf)).final w =
        (consolidateClusters r records (rest.map clusterOf)).final (asking p w) := by
      simp only [List.map_cons, consolidateClusters]
      rw [hitems]
      have hleft : ¬ r.autoAcceptThreshold ≤ p.confidence := hreview g List.mem_cons_self
      let u := (addProposal p).final (apply .newOperationId w)
      refine (Proc.final_bind_ok (run_newOperationId w)).trans ?_
      refine (Proc.final_bind_ok (t := u) rfl).trans ?_
      rw [if_neg hleft]
      exact (Proc.final_bind_ok (t := asking p w) rfl).trans (Proc.final_bind_pure _ _ _)
    rw [hstep]
    exact (asked_asking g w).trans (ih (fun h hh => hmembers h (List.mem_cons_of_mem _ hh))
      (fun h hh => hreview h (List.mem_cons_of_mem _ hh)) _)

def worthy (r : ReflectionEngine) (db : Db) : List (Cohort MemoryRecord) :=
  (groups r db).filter fun g => 2 ≤ g.items.length

theorem consolidate_asks (hnone : ∀ g ∈ groups r w.db, ¬ Accepted r g) :
    Asked ((worthy r w.db).map question) w (r.consolidate.final w) := by
  unfold ReflectionEngine.consolidate
  rw [Proc.final_bind_ok (run_query _ w), reviewWorthy_groups]
  refine consolidateClusters_asks (reflectable_nodup r w.db) (fun g hg a ha => ?_)
    (fun g hg haccept => ?_) w
  · exact mem_of_groups (List.mem_filter.mp hg).1 ha
  · obtain ⟨hg, hlength⟩ := List.mem_filter.mp hg
    exact hnone g hg ⟨of_decide_eq_true hlength, haccept⟩

theorem consolidate_asks_again (hnone : ∀ g ∈ groups r w.db, ¬ Accepted r g) (n : ℕ) :
    Asked (List.replicate n ((worthy r w.db).map question)).flatten w
      (r.consolidate.final^[n] w) := by
  induction n with
  | zero => exact .refl w
  | succ n ih =>
    rw [Function.iterate_succ_apply', List.replicate_succ', List.flatten_concat]
    have hlater := consolidate_asks (w := r.consolidate.final^[n] w) (by rwa [ih.db])
    rw [ih.db] at hlater
    exact ih.trans hlater

/-- What one run has merged leaves no group with two records of one hash. -/
theorem none_accepted (h : Merged (allPairs r w.db) w t)
    (hhash : ∀ id row, w.db.readOne id = some row →
      row.contentHash = r.engine.platform.contentHash row.content)
    (hinjective : Function.Injective r.engine.platform.contentHash)
    (hlow : 89 / 100 < r.autoAcceptThreshold) (hhigh : r.autoAcceptThreshold ≤ 19 / 20) :
    ∀ g ∈ groups r t.db, ¬ Accepted r g := by
  intro g hg haccept
  obtain ⟨a, ha, b, hb, hne, hab⟩ := (accepted_iff hlow hhigh hg).mp haccept
  have hrow : ∀ {c : MemoryRecord}, c ∈ g.items →
      c.contentHash = r.engine.platform.contentHash c.content := fun hc =>
    hhash _ _ (mem_reflectable.mp (h.reflectable (mem_of_groups hg hc)).1).1
  rw [hrow ha, hrow hb] at hab
  exact hne (distinct_of_merged h hhash hlow hhigh (mem_of_groups hg ha) (mem_of_groups hg hb)
    (hinjective hab))

/-- One consolidation is enough: however often it is run again, the tables, the indexes and
the log stay as the first run left them, and so do the proposals. Each later run only files,
for every cluster that is left, one merge of its records for review. -/
theorem consolidation_settles (r : ReflectionEngine) (w : World Memory)
    (hhash : ∀ id row, w.db.readOne id = some row →
      row.contentHash = r.engine.platform.contentHash row.content)
    (hinjective : Function.Injective r.engine.platform.contentHash)
    (hlow : 89 / 100 < r.autoAcceptThreshold) (hhigh : r.autoAcceptThreshold ≤ 19 / 20) (n : ℕ) :
    let t := r.consolidate.final w
    (worthy r t.db).map clusterOf =
      reviewWorthy (clusterL1 r.engine.platform (reflectableL1Facts r t.db)) ∧
    Asked (List.replicate n ((worthy r t.db).map question)).flatten t
      (r.consolidate.final^[n] t) := by
  intro t
  obtain ⟨ids, u, hrun, hmerged⟩ := consolidate_run r w
  have ht : t = u := Proc.final_of_run hrun
  rw [← ht] at hmerged
  refine ⟨(reviewWorthy_groups r t.db).symm, ?_⟩
  exact consolidate_asks_again (none_accepted hmerged hhash hinjective hlow hhigh) n

/-- Texts that begin alike are alike. -/
def initialPlatform : Platform :=
  { plainPlatform with words := fun text => [String.ofList (text.toList.take 1)] }

def initialStrata : Strata :=
  { plainStrata with engine := { plainStrata.engine with platform := initialPlatform } }

theorem consolidation_settles_twice :
    let w := runCalls initialStrata plainWorld [.writeMemory "tea" {}, .writeMemory "tin" {}]
    let r := initialStrata.reflection
    let t := r.consolidate.final w
    (worthy r t.db).map clusterOf = [⟨[2, 1], "tin"⟩] ∧
    (worthy r t.db).map clusterOf =
      reviewWorthy (clusterL1 r.engine.platform (reflectableL1Facts r t.db)) ∧
    Asked (List.replicate 2 ((worthy r t.db).map question)).flatten t
      (r.consolidate.final^[2] t) := by
  intro w r t
  have hrows : ∀ e ∈ w.db.canonical.records.entries, e.2.contentHash = e.2.content := by decide
  have hhashes : ∀ g ∈ groups r w.db, (g.items.map MemoryRecord.contentHash).Nodup := by
    decide +kernel
  have hlow : (89 / 100 : ℚ) < r.autoAcceptThreshold := by
    change (89 / 100 : ℚ) < 9 / 10
    norm_num
  have hhigh : r.autoAcceptThreshold ≤ (19 / 20 : ℚ) := by
    change (9 / 10 : ℚ) ≤ 19 / 20
    norm_num
  have hnone : ∀ g ∈ groups r w.db, ¬ Accepted r g := by
    intro g hg haccept
    obtain ⟨a, ha, b, hb, hne, hab⟩ := (accepted_iff hlow hhigh hg).mp haccept
    exact hne (List.inj_on_of_nodup_map (hhashes g hg) ha hb hab)
  refine ⟨?_, consolidation_settles r w (fun id row hrow => ?_) Function.injective_id hlow hhigh 2⟩
  · rw [(consolidate_asks hnone).db]
    decide +kernel
  · exact hrows (id, row) (Table.mem_entries.mpr hrow)

end Runs
end StrataMemory.RepeatedConsolidation
