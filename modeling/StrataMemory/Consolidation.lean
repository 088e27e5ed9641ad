import StrataMemory.Clustering
import StrataMemory.IndexAgreement
import StrataMemory.NodeRuns
import StrataMemory.VerifiedDeletions
import Mathlib.Tactic.NormNum

set_option autoImplicit false

namespace StrataMemory.Consolidation
open KeyedTables Records Tables Procedures Worlds CommitEffects CanonicalStore ManagedSurfaces
open SurfaceRounds Resolver Engine MemoryEngine Gateway ReflectionEngine Clustering
open VerifiedDeletions IndexAgreement NodeRuns

section Clusters
variable {p : Platform} {threshold : ℚ} {records : List MemoryRecord}

def alike (p : Platform) (threshold : ℚ) (a b : MemoryRecord) : Bool :=
  threshold ≤ jaccard p a.content b.content

def clusterOf (g : Cohort MemoryRecord) : Cluster := ⟨g.items.map MemoryRecord.id, g.leader.content⟩

theorem place_cohorts (r : MemoryRecord) (gs : List (Cohort MemoryRecord)) :
    place p threshold r (gs.map clusterOf) = (join (alike p threshold) r gs).map clusterOf := by
  induction gs with
  | nil => rfl
  | cons g rest ih =>
    simp only [List.map_cons, place, join, alike, decide_eq_true_eq]
    split
    · have hitems : (g.add r).items = g.items ++ [r] := rfl
      rw [if_pos ‹_›, List.map_cons]
      simp only [clusterOf, hitems, List.map_append, List.map_cons, List.map_nil]
      rfl
    · rw [if_neg ‹_›, List.map_cons, ih]

theorem clusterL1_cohorts : clusterL1 p records threshold =
    (cohorts (alike p threshold) records).map clusterOf := by
  suffices h : ∀ gs : List (Cohort MemoryRecord),
      records.foldl (fun clusters r => place p threshold r clusters) (gs.map clusterOf) =
        (records.foldl (fun gs r => join (alike p threshold) r gs) gs).map clusterOf from h []
  intro gs
  exact List.foldl_hom (List.map clusterOf) fun gs r => place_cohorts r gs

theorem alike_self (hthreshold : threshold ≤ 1) (r : MemoryRecord) :
    alike p threshold r r = true := by
  unfold alike
  rw [jaccard_self]
  exact decide_eq_true hthreshold

theorem find?_id (hrecords : (records.map MemoryRecord.id).Nodup) {r : MemoryRecord}
    (hr : r ∈ records) : records.find? (·.id = r.id) = some r := by
  induction records with
  | nil => cases hr
  | cons a rest ih =>
    obtain ⟨hnotin, hrest⟩ := List.nodup_cons.mp hrecords
    rcases List.mem_cons.mp hr with rfl | hr
    · exact List.find?_cons_of_pos (decide_eq_true rfl)
    · have hne : a.id ≠ r.id := fun h => hnotin (h ▸ List.mem_map_of_mem hr)
      rw [List.find?_cons_of_neg (by simpa using hne)]
      exact ih hrest hr

/-- The records that `by_id` gives for the ids of a cluster. -/
def members (records : List MemoryRecord) (c : Cluster) : List MemoryRecord :=
  c.recordIds.filterMap fun i => records.find? (·.id = i)

theorem members_clusterOf (hrecords : (records.map MemoryRecord.id).Nodup)
    {g : Cohort MemoryRecord} (hg : ∀ a ∈ g.items, a ∈ records) :
    members records (clusterOf g) = g.items := by
  unfold members clusterOf
  rw [List.filterMap_map]
  have hsome : g.items.filterMap ((fun i => records.find? (·.id = i)) ∘ MemoryRecord.id) =
      g.items.filterMap some :=
    List.filterMap_congr fun a ha => find?_id hrecords (hg a ha)
  rw [hsome, List.filterMap_some]

def primary (g : Cohort MemoryRecord) : MemoryRecord := choosePrimary g.leader g.followers

def duplicates (g : Cohort MemoryRecord) : List RecordId :=
  (g.items.filter fun m => m.id ≠ (primary g).id).map MemoryRecord.id

theorem primary_mem (g : Cohort MemoryRecord) : primary g ∈ g.items := by
  suffices h : ∀ first rest, choosePrimary first rest ∈ first :: rest from h _ _
  intro first rest
  induction rest generalizing first with
  | nil => exact List.mem_singleton_self _
  | cons a rest ih =>
    change choosePrimary (if primaryKey first < primaryKey a then a else first) rest ∈ _
    split
    · exact List.mem_cons_of_mem _ (ih a)
    · rcases List.mem_cons.mp (ih first) with h | h
      · rw [h]
        exact List.mem_cons_self
      · exact List.mem_cons_of_mem _ (List.mem_cons_of_mem _ h)

theorem mem_duplicates {g : Cohort MemoryRecord} {id : RecordId} :
    id ∈ duplicates g ↔ id ≠ (primary g).id ∧ ∃ a ∈ g.items, a.id = id := by
  unfold duplicates
  rw [List.mem_map]
  constructor
  · rintro ⟨a, ha, rfl⟩
    obtain ⟨hmem, hne⟩ := List.mem_filter.mp ha
    exact ⟨of_decide_eq_true hne, a, hmem, rfl⟩
  · rintro ⟨hne, a, ha, rfl⟩
    exact ⟨a, List.mem_filter.mpr ⟨ha, decide_eq_true hne⟩, rfl⟩

end Clusters

def supersededAt (now : Time) (r : MemoryRecord) : MemoryRecord :=
  { r with status := .superseded, updatedAt := now }

/-- The second of each pair is superseded by the first, and no other row changes. -/
structure Merged (pairs : List (RecordId × RecordId)) (w t : World Memory) : Prop where
  superseded : ∀ id ∈ pairs.map Prod.snd,
    ∃ now, t.db.readOne id = (w.db.readOne id).map (supersededAt now)
  others : ∀ id ∉ pairs.map Prod.snd, t.db.readOne id = w.db.readOne id
  edges : ∀ d ∈ pairs, (⟨d.1, d.2, .supersedes⟩ : Dependency) ∈ t.db.canonical.dependencies
  older : w.db.canonical.dependencies ⊆ t.db.canonical.dependencies
  tombstones : t.db.tombstones = w.db.tombstones

section Merges
variable {w v t : World Memory} {xs ys : List (RecordId × RecordId)}

theorem Merged.none (h : authority t = authority w) : Merged [] w t where
  superseded _ h := absurd h List.not_mem_nil
  others id _ := congrFun (readOne_of_authority h) id
  edges _ h := absurd h List.not_mem_nil
  older d hd := by
    have hdeps : t.db.canonical.dependencies = w.db.canonical.dependencies :=
      congrArg (fun a => a.1.dependencies) h
    exact hdeps ▸ hd
  tombstones := congrArg Prod.snd h

theorem Merged.trans (h : Merged xs w v) (h' : Merged ys v t) : Merged (xs ++ ys) w t where
  superseded id hid := by
    rw [List.map_append, List.mem_append] at hid
    by_cases hx : id ∈ xs.map Prod.snd <;> by_cases hy : id ∈ ys.map Prod.snd
    · obtain ⟨_, hv⟩ := h.superseded id hx
      obtain ⟨now, ht⟩ := h'.superseded id hy
      refine ⟨now, ht.trans ?_⟩
      rw [hv, Option.map_map]
      rfl
    · obtain ⟨now, hv⟩ := h.superseded id hx
      exact ⟨now, (h'.others id hy).trans hv⟩
    · obtain ⟨now, ht⟩ := h'.superseded id hy
      exact ⟨now, ht.trans (by rw [h.others id hx])⟩
    · exact absurd hid (not_or.mpr ⟨hx, hy⟩)
  others id hid := by
    rw [List.map_append, List.mem_append, not_or] at hid
    exact (h'.others id hid.2).trans (h.others id hid.1)
  edges d hd := by
    rcases List.mem_append.mp hd with hd | hd
    · exact h'.older (h.edges d hd)
    · exact h'.edges d hd
  older _ hd := h'.older (h.older hd)
  tombstones := h'.tombstones.trans h.tombstones

theorem Merged.of_authority (h : Merged xs w v) (hauthority : authority t = authority v) :
    Merged xs w t := by
  have hall := h.trans (.none hauthority)
  rwa [List.append_nil] at hall

theorem Merged.isSome_row (h : Merged xs w t) (id : RecordId) :
    (t.db.readOne id).isSome = (w.db.readOne id).isSome := by
  by_cases hid : id ∈ xs.map Prod.snd
  · obtain ⟨now, ht⟩ := h.superseded id hid
    rw [ht, Option.isSome_map]
  · rw [h.others id hid]

theorem Merged.isTombstoned (h : Merged xs w t) (id : RecordId) :
    t.db.isTombstoned id = w.db.isTombstoned id :=
  congrArg (fun tombstones => tombstones.contains id) h.tombstones

theorem merged_supersede {primaryId d : RecordId} (hprimary : (w.db.readOne primaryId).isSome = true)
    (hd : (w.db.readOne d).isSome = true) :
    (CanonicalStore.addDependency primaryId d .supersedes : Prog Memory Unit).run
        (apply (.setStatus d .superseded) w) =
      (.ok (), apply (.addDependency primaryId d .supersedes) (apply (.setStatus d .superseded) w)) ∧
    Merged [(primaryId, d)] w
      (apply (.addDependency primaryId d .supersedes) (apply (.setStatus d .superseded) w)) := by
  have hallowed : (apply (.setStatus d .superseded) w).db.canonical.edgeAllowed primaryId d = true := by
    rw [edgeAllowed_setStatus]
    exact Bool.and_eq_true_iff.mpr ⟨hprimary, hd⟩
  refine ⟨by rw [addDependency_run, if_pos hallowed], ?_, ?_, ?_, ?_, rfl⟩
  · intro id hid
    cases List.mem_singleton.mp hid
    refine ⟨w.now, ?_⟩
    rw [readOne_addDependency, readOne_setStatus, Function.update_self]
    rfl
  · intro id hid
    have hne : id ≠ d := fun h => hid (List.mem_singleton.mpr h)
    rw [readOne_addDependency, readOne_setStatus, Function.update_of_ne hne]
  · intro edge hedge
    cases List.mem_singleton.mp hedge
    exact mem_addDependency_self hallowed .supersedes
  · intro edge hedge
    have hkept : edge ∈ (apply (.setStatus d .superseded) w).db.canonical.dependencies := hedge
    exact mem_addDependency hkept primaryId d .supersedes

theorem supersedeDuplicates_run {primaryId : RecordId} {ids : List RecordId}
    (hprimary : (w.db.readOne primaryId).isSome = true)
    (hids : ∀ d ∈ ids, d ≠ primaryId ∧ (w.db.readOne d).isSome = true ∧ w.db.isTombstoned d = false) :
    ∃ t, (supersedeDuplicates primaryId ids).run w = (.ok ids, t) ∧
      Merged (ids.map fun d => (primaryId, d)) w t := by
  induction ids generalizing w with
  | nil => exact ⟨w, rfl, .none rfl⟩
  | cons d rest ih =>
    obtain ⟨hne, hrow, hlive⟩ := hids d List.mem_cons_self
    obtain ⟨hedge, hmerged⟩ := merged_supersede hprimary hrow
    obtain ⟨t, hrest, htail⟩ := ih ((hmerged.isSome_row primaryId).trans hprimary) fun d' hd' => by
      rw [hmerged.isSome_row, hmerged.isTombstoned]
      exact hids d' (List.mem_cons_of_mem _ hd')
    refine ⟨t, ?_, hmerged.trans htail⟩
    have hkept : (decide (d = primaryId) || w.db.isTombstoned d) = false := by
      rw [decide_eq_false hne, hlive]
      rfl
    rw [supersedeDuplicates_cons, if_neg (by rw [hkept]; decide)]
    refine (Proc.run_bind_ok (run_commit _ w)).trans ((Proc.run_bind_ok hedge).trans ?_)
    exact Proc.run_bind_ok hrest

/-- The indexes are purged of the duplicates, which no table of records shows. -/
theorem mergeRecords_run (e : MemoryEngine) {primaryId : RecordId} {ids : List RecordId}
    (hprimary : (w.db.readOne primaryId).isSome = true)
    (hids : ∀ d ∈ ids, d ≠ primaryId ∧ (w.db.readOne d).isSome = true ∧ w.db.isTombstoned d = false) :
    ∃ t, (e.mergeRecords primaryId ids).run w = (.ok (), t) ∧
      Merged (ids.map fun d => (primaryId, d)) w t := by
  obtain ⟨v, hrun, hmerged⟩ := supersedeDuplicates_run hprimary hids
  unfold MemoryEngine.mergeRecords
  rw [Proc.run_bind_ok hrun]
  split
  · obtain ⟨report, hpurge⟩ := (purgeInto_returns (engine_lawful e) ids.dedup ∅).run v
    have hkept := authority_purge (engine_lawful e) ids.dedup v
    exact ⟨_, Proc.run_bind_ok hpurge, hmerged.of_authority hkept⟩
  · exact ⟨v, rfl, hmerged⟩

def confidence (g : Cohort MemoryRecord) : ℚ := mergeConfidence g.items (duplicates g)

/-- The pairs that the merge of a group supersedes, if its proposal is accepted. -/
def mergedPairs (r : ReflectionEngine) (g : Cohort MemoryRecord) : List (RecordId × RecordId) :=
  if r.autoAcceptThreshold ≤ confidence g then (duplicates g).map fun d => ((primary g).id, d)
  else []

def Mergeable (w : World Memory) (g : Cohort MemoryRecord) : Prop :=
  ∀ a ∈ g.items, (w.db.readOne a.id).isSome = true ∧ w.db.isTombstoned a.id = false

theorem Mergeable.merged {g : Cohort MemoryRecord} (hg : Mergeable w g) (h : Merged xs w t) :
    Mergeable t g := fun a ha => by
  rw [h.isSome_row, h.isTombstoned]
  exact hg a ha

theorem apply_run (r : ReflectionEngine) {g : Cohort MemoryRecord} {c : Cluster} {id : OpId}
    (hg : Mergeable w g)
    (hproposal : w.memory.proposals.get? id = some (mergeProposal c g.leader g.followers id)) :
    ∃ t, (r.apply id).run w = (.ok (), t) ∧
      Merged ((duplicates g).map fun d => ((primary g).id, d)) w t := by
  obtain ⟨v, hrun, hmerged⟩ := mergeRecords_run r.engine (hg _ (primary_mem g)).1
    fun d (hd : d ∈ duplicates g) => by
      obtain ⟨hne, a, ha, rfl⟩ := mem_duplicates.mp hd
      exact ⟨hne, hg a ha⟩
  let t := (setProposalState id .applied : Prog Memory Unit).final v
  have hset : (setProposalState id .applied : Prog Memory Unit).run v = (.ok (), t) := rfl
  refine ⟨t, ?_, hmerged.of_authority rfl⟩
  unfold ReflectionEngine.apply
  rw [Proc.run_bind, Proc.run_read, hproposal]
  exact (Proc.run_bind_ok hrun).trans hset

theorem settle_run (r : ReflectionEngine) {g : Cohort MemoryRecord} {c : Cluster} {id : OpId}
    (hg : Mergeable w g)
    (hproposal : w.memory.proposals.get? id = some (mergeProposal c g.leader g.followers id)) :
    ∃ t, (∀ more : Prog Memory (List OpId),
        (if r.autoAcceptThreshold ≤ (mergeProposal c g.leader g.followers id).confidence then do
            r.apply id
            more
          else do
            setProposalState id .userReviewRequired
            more).run w = more.run t) ∧
      Merged (mergedPairs r g) w t := by
  have hconfidence : (mergeProposal c g.leader g.followers id).confidence = confidence g := rfl
  unfold mergedPairs
  by_cases haccept : r.autoAcceptThreshold ≤ confidence g
  · obtain ⟨t, hrun, hmerged⟩ := apply_run r hg hproposal
    simp only [hconfidence, if_pos haccept]
    exact ⟨t, fun _ => Proc.run_bind_ok hrun, hmerged⟩
  · simp only [hconfidence, if_neg haccept]
    exact ⟨_, fun _ => Proc.run_bind_ok rfl, .none rfl⟩

theorem consolidateClusters_run (r : ReflectionEngine) {records : List MemoryRecord}
    (hrecords : (records.map MemoryRecord.id).Nodup) {gs : List (Cohort MemoryRecord)}
    (hmembers : ∀ g ∈ gs, ∀ a ∈ g.items, a ∈ records) (hgs : ∀ g ∈ gs, Mergeable w g) :
    ∃ ids t, (consolidateClusters r records (gs.map clusterOf)).run w = (.ok ids, t) ∧
      Merged (gs.flatMap (mergedPairs r)) w t := by
  induction gs generalizing w with
  | nil => exact ⟨[], w, rfl, .none rfl⟩
  | cons g rest ih =>
    let u := (addProposal (mergeProposal (clusterOf g) g.leader g.followers w.operationIds) :
      Prog Memory Unit).final (apply .newOperationId w)
    have hu : Merged [] w u := .none rfl
    obtain ⟨v, hsettle, hmerged⟩ := settle_run r ((hgs g List.mem_cons_self).merged hu)
      (Table.get?_set_self ..)
    have hv := hu.trans hmerged
    obtain ⟨ids, t, hrest, htail⟩ := ih (fun h hh => hmembers h (List.mem_cons_of_mem _ hh))
      fun h hh => (hgs h (List.mem_cons_of_mem _ hh)).merged hv
    refine ⟨w.operationIds :: ids, t, ?_, hv.trans htail⟩
    have hitems := members_clusterOf hrecords (hmembers g List.mem_cons_self)
    unfold members at hitems
    simp only [List.map_cons, consolidateClusters]
    rw [hitems]
    refine (Proc.run_bind_ok (run_newOperationId w)).trans ?_
    refine (Proc.run_bind_ok (t := u) rfl).trans ?_
    exact (hsettle _).trans (Proc.run_bind_ok hrest)

end Merges

def AutoMerged (r : ReflectionEngine) (db : Db) (c : Cluster) (kept : MemoryRecord) : Prop :=
  c ∈ reviewWorthy (clusterL1 r.engine.platform (reflectableL1Facts r db)) ∧
    ∃ first rest id, members (reflectableL1Facts r db) c = first :: rest ∧
      kept = choosePrimary first rest ∧
      r.autoAcceptThreshold ≤ (mergeProposal c first rest id).confidence

/-- The record was superseded by the primary of its own cluster, which is still live, and
nothing else of it has changed. -/
def MergedAway (r : ReflectionEngine) (w t : World Memory) (id : RecordId) : Prop :=
  ∃ before ∈ reflectableL1Facts r w.db, ∃ now c kept, before.id = id ∧
    t.db.readOne id = some (supersededAt now before) ∧ AutoMerged r w.db c kept ∧
    id ∈ c.recordIds ∧ kept.id ∈ c.recordIds ∧
    (⟨kept.id, id, .supersedes⟩ : Dependency) ∈ t.db.canonical.dependencies ∧
    isLiveRecord t.db kept.id = true

structure Consolidated (r : ReflectionEngine) (w t : World Memory) : Prop where
  distinct : ∀ a ∈ reflectableL1Facts r t.db, ∀ b ∈ reflectableL1Facts r t.db,
    a.content = b.content → a = b
  changed : ∀ id, t.db.readOne id ≠ w.db.readOne id → MergedAway r w t id
  kept : ∀ c kept, AutoMerged r w.db c kept →
    ∃! id, id ∈ c.recordIds ∧ isLiveRecord t.db id = true
  duplicated : ∀ c kept, AutoMerged r w.db c kept → ∃ a b, a ≠ b ∧
    a ∈ members (reflectableL1Facts r w.db) c ∧ b ∈ members (reflectableL1Facts r w.db) c ∧
    a.contentHash = b.contentHash
  reviewed : ∀ c ∈ clusterL1 r.engine.platform (reflectableL1Facts r w.db),
    (∀ kept, ¬ AutoMerged r w.db c kept) → ∀ id ∈ c.recordIds,
      t.db.readOne id = w.db.readOne id
  ignored : ∀ row, w.db.readOne row.id = some row → row ∉ reflectableL1Facts r w.db →
    t.db.readOne row.id = some row
  tombstones : t.db.tombstones = w.db.tombstones

section Runs
variable {r : ReflectionEngine} {w t : World Memory}

theorem mem_reflectable {db : Db} {a : MemoryRecord} : a ∈ reflectableL1Facts r db ↔
    db.readOne a.id = some a ∧ a.tier = .l1 ∧ a.recordType = .fact ∧ a.status.isActive = true ∧
      db.isTombstoned a.id = false ∧ r.engine.policy.canReflectOn a = true := by
  unfold reflectableL1Facts
  rw [List.mem_filter, mem_select]
  simp only [Query.selects, Option.all_some, Option.all_none, Bool.and_eq_true, Bool.true_and,
    Bool.and_true, Bool.not_eq_true', decide_eq_true_eq]
  constructor
  · rintro ⟨⟨hrow, ⟨htier, htype⟩, hlive⟩, ⟨hactive, _⟩, hpolicy⟩
    exact ⟨hrow, htier.symm, htype.symm, hactive, hlive, hpolicy⟩
  · rintro ⟨hrow, htier, htype, hactive, hlive, hpolicy⟩
    exact ⟨⟨hrow, ⟨htier.symm, htype.symm⟩, hlive⟩, ⟨hactive, hlive⟩, hpolicy⟩

theorem reflectable_nodup (r : ReflectionEngine) (db : Db) :
    ((reflectableL1Facts r db).map MemoryRecord.id).Nodup :=
  (select_nodup db _).sublist (List.filter_sublist.map _)

theorem reflectable_eq {db : Db} {a b : MemoryRecord} (ha : a ∈ reflectableL1Facts r db)
    (hb : b ∈ reflectableL1Facts r db) (hid : a.id = b.id) : a = b := by
  have hrow := (mem_reflectable.mp ha).1
  rw [hid, (mem_reflectable.mp hb).1] at hrow
  exact (Option.some.inj hrow).symm

def groups (r : ReflectionEngine) (db : Db) : List (Cohort MemoryRecord) :=
  cohorts (alike r.engine.platform (3 / 5)) (reflectableL1Facts r db)

theorem mem_of_groups {db : Db} {g : Cohort MemoryRecord} (hg : g ∈ groups r db)
    {a : MemoryRecord} (ha : a ∈ g.items) : a ∈ reflectableL1Facts r db :=
  mem_cohorts.mp ⟨g, hg, ha⟩

theorem groups_same {db : Db} {g h : Cohort MemoryRecord} (hg : g ∈ groups r db)
    (hh : h ∈ groups r db) {a b : MemoryRecord} (ha : a ∈ g.items) (hb : b ∈ h.items)
    (hab : a.content = b.content) : g = h := by
  refine (placed_cohorts (alike_self (by norm_num)) _).same hg hh ha hb fun c => ?_
  unfold alike
  rw [hab]

def Accepted (r : ReflectionEngine) (g : Cohort MemoryRecord) : Prop :=
  2 ≤ g.items.length ∧ r.autoAcceptThreshold ≤ confidence g

def Duplicated (g : Cohort MemoryRecord) : Prop :=
  ∃ a ∈ g.items, ∃ b ∈ g.items, a ≠ b ∧ a.contentHash = b.contentHash

theorem dedup_length_lt {α : Type} [DecidableEq α] {xs : List α} :
    xs.dedup.length < xs.length ↔ ¬ xs.Nodup := by
  have hsub := List.dedup_sublist xs
  rw [← List.dedup_eq_self]
  constructor
  · intro hlt heq
    rw [heq] at hlt
    exact lt_irrefl _ hlt
  · intro hne
    have hle := hsub.length_le
    have hlength : xs.dedup.length ≠ xs.length := fun h => hne (hsub.eq_of_length h)
    omega

theorem duplicated_iff {db : Db} {g : Cohort MemoryRecord} (hg : g ∈ groups r db) :
    (g.items.map MemoryRecord.contentHash).dedup.length < g.items.length ↔ Duplicated g := by
  have hitems : g.items.Nodup := (items_nodup (reflectable_nodup r db) hg).of_map _
  have hdedup : (g.items.map MemoryRecord.contentHash).dedup.length <
      (g.items.map MemoryRecord.contentHash).length ↔ _ := dedup_length_lt
  rw [List.length_map, List.nodup_map_iff_inj_on hitems] at hdedup
  rw [hdedup]
  constructor
  · intro h
    by_contra hnone
    refine h fun a ha b hb hab => by_contra fun hne => hnone ⟨a, ha, b, hb, hne, hab⟩
  · rintro ⟨a, ha, b, hb, hne, hab⟩ h
    exact hne (h a ha b hb hab)

theorem Duplicated.two_le {g : Cohort MemoryRecord} (h : Duplicated g) : 2 ≤ g.items.length := by
  obtain ⟨a, ha, b, hb, hne, _⟩ := h
  rcases g with ⟨leader, _ | ⟨follower, rest⟩⟩
  · exact absurd ((List.mem_singleton.mp ha).trans (List.mem_singleton.mp hb).symm) hne
  · exact Nat.le_add_left 2 rest.length

/-- Between the two confidences, exactly the groups that share a hash are accepted. -/
theorem accepted_iff (hlow : 89 / 100 < r.autoAcceptThreshold)
    (hhigh : r.autoAcceptThreshold ≤ 19 / 20) {db : Db} {g : Cohort MemoryRecord}
    (hg : g ∈ groups r db) : Accepted r g ↔ Duplicated g := by
  unfold Accepted confidence mergeConfidence
  constructor
  · rintro ⟨_, haccept⟩
    refine (duplicated_iff hg).mp (by_contra fun hnone => ?_)
    rw [if_neg hnone] at haccept
    exact absurd (haccept.trans (min_le_left _ _)) (not_le.mpr hlow)
  · intro hshared
    rw [if_pos ((duplicated_iff hg).mpr hshared)]
    exact ⟨hshared.two_le, hhigh⟩

theorem reviewWorthy_groups (r : ReflectionEngine) (db : Db) :
    reviewWorthy (clusterL1 r.engine.platform (reflectableL1Facts r db)) =
      ((groups r db).filter fun g => 2 ≤ g.items.length).map clusterOf := by
  rw [clusterL1_cohorts]
  unfold reviewWorthy groups
  rw [List.filter_map]
  congr 2
  funext g
  simp [clusterOf]

theorem autoMerged_iff {db : Db} {c : Cluster} {kept : MemoryRecord} : AutoMerged r db c kept ↔
    ∃ g ∈ groups r db, Accepted r g ∧ c = clusterOf g ∧ kept = primary g := by
  have hmembers : ∀ g ∈ groups r db, members (reflectableL1Facts r db) (clusterOf g) =
      g.leader :: g.followers := fun g hg =>
    members_clusterOf (reflectable_nodup r db) fun _ ha => mem_of_groups hg ha
  unfold AutoMerged
  rw [reviewWorthy_groups]
  constructor
  · rintro ⟨hc, first, rest, id, hitems, rfl, haccept⟩
    obtain ⟨g, hg, rfl⟩ := List.mem_map.mp hc
    obtain ⟨hg, hlength⟩ := List.mem_filter.mp hg
    obtain ⟨rfl, rfl⟩ := List.cons.inj ((hmembers g hg).symm.trans hitems)
    exact ⟨g, hg, ⟨of_decide_eq_true hlength, haccept⟩, rfl, rfl⟩
  · rintro ⟨g, hg, ⟨hlength, haccept⟩, rfl, rfl⟩
    refine ⟨List.mem_map_of_mem (List.mem_filter.mpr ⟨hg, decide_eq_true hlength⟩), ?_⟩
    exact ⟨g.leader, g.followers, 0, hmembers g hg, rfl, haccept⟩

/-- The pairs that the accepted proposals of a store supersede. -/
def allPairs (r : ReflectionEngine) (db : Db) : List (RecordId × RecordId) :=
  ((groups r db).filter fun g => 2 ≤ g.items.length).flatMap (mergedPairs r)

theorem mem_allPairs {db : Db} {d : RecordId × RecordId} : d ∈ allPairs r db ↔
    ∃ g ∈ groups r db, Accepted r g ∧ d.1 = (primary g).id ∧ d.2 ∈ duplicates g := by
  unfold allPairs
  rw [List.mem_flatMap]
  constructor
  · rintro ⟨g, hg, hd⟩
    obtain ⟨hg, hlength⟩ := List.mem_filter.mp hg
    unfold mergedPairs at hd
    split at hd
    · obtain ⟨id, hid, rfl⟩ := List.mem_map.mp hd
      exact ⟨g, hg, ⟨of_decide_eq_true hlength, ‹_›⟩, rfl, hid⟩
    · cases hd
  · rintro ⟨g, hg, ⟨hlength, haccept⟩, hfirst, hsecond⟩
    refine ⟨g, List.mem_filter.mpr ⟨hg, decide_eq_true hlength⟩, ?_⟩
    unfold mergedPairs
    rw [if_pos haccept]
    exact List.mem_map.mpr ⟨d.2, hsecond, Prod.ext hfirst.symm rfl⟩

theorem mem_superseded {db : Db} {id : RecordId} : id ∈ (allPairs r db).map Prod.snd ↔
    ∃ g ∈ groups r db, Accepted r g ∧ id ∈ duplicates g := by
  rw [List.mem_map]
  constructor
  · rintro ⟨d, hd, rfl⟩
    obtain ⟨g, hg, haccept, _, hid⟩ := mem_allPairs.mp hd
    exact ⟨g, hg, haccept, hid⟩
  · rintro ⟨g, hg, haccept, hid⟩
    exact ⟨((primary g).id, id), mem_allPairs.mpr ⟨g, hg, haccept, rfl, hid⟩, rfl⟩

/-- A member of a group is superseded just when the group is merged into another record. -/
theorem superseded_iff {db : Db} {g : Cohort MemoryRecord} (hg : g ∈ groups r db)
    {a : MemoryRecord} (ha : a ∈ g.items) : a.id ∈ (allPairs r db).map Prod.snd ↔
      Accepted r g ∧ a.id ≠ (primary g).id := by
  rw [mem_superseded]
  constructor
  · rintro ⟨h, hh, haccept, hid⟩
    obtain ⟨hne, b, hb, hba⟩ := mem_duplicates.mp hid
    have hsame := reflectable_eq (mem_of_groups hh hb) (mem_of_groups hg ha) hba
    have hgroup := groups_same hh hg hb ha (congrArg MemoryRecord.content hsame)
    exact ⟨hgroup ▸ haccept, hgroup ▸ hne⟩
  · rintro ⟨haccept, hne⟩
    exact ⟨g, hg, haccept, mem_duplicates.mpr ⟨hne, a, ha, rfl⟩⟩

theorem Merged.live {pairs : List (RecordId × RecordId)} (h : Merged pairs w t) (id : RecordId) :
    isLiveRecord t.db id = true ↔ isLiveRecord w.db id = true ∧ id ∉ pairs.map Prod.snd := by
  by_cases hid : id ∈ pairs.map Prod.snd
  · obtain ⟨now, hrow⟩ := h.superseded id hid
    refine ⟨fun hlive => ?_, fun hlive => absurd hid hlive.2⟩
    obtain ⟨r, hread, hactive, _⟩ := isLiveRecord_iff.mp hlive
    rw [hrow] at hread
    obtain ⟨old, _, rfl⟩ := Option.map_eq_some_iff.mp hread
    cases hactive
  · rw [isLiveRecord_iff, h.others id hid, h.isTombstoned, ← isLiveRecord_iff]
    exact (and_iff_left hid).symm

theorem Merged.reflectable {pairs : List (RecordId × RecordId)} (h : Merged pairs w t)
    {a : MemoryRecord} (ha : a ∈ reflectableL1Facts r t.db) :
    a ∈ reflectableL1Facts r w.db ∧ a.id ∉ pairs.map Prod.snd := by
  obtain ⟨hrow, htier, htype, hactive, hlive, hpolicy⟩ := mem_reflectable.mp ha
  have hkept := ((h.live a.id).mp (isLiveRecord_iff.mpr ⟨a, hrow, hactive, hlive⟩)).2
  rw [h.others a.id hkept] at hrow
  rw [h.isTombstoned] at hlive
  exact ⟨mem_reflectable.mpr ⟨hrow, htier, htype, hactive, hlive, hpolicy⟩, hkept⟩

theorem live_reflectable {db : Db} {a : MemoryRecord} (ha : a ∈ reflectableL1Facts r db) :
    isLiveRecord db a.id = true := by
  obtain ⟨hrow, _, _, hactive, hlive, _⟩ := mem_reflectable.mp ha
  exact isLiveRecord_iff.mpr ⟨a, hrow, hactive, hlive⟩

theorem primary_live (h : Merged (allPairs r w.db) w t) {g : Cohort MemoryRecord}
    (hg : g ∈ groups r w.db) : isLiveRecord t.db (primary g).id = true := by
  rw [h.live, superseded_iff hg (primary_mem g)]
  exact ⟨live_reflectable (mem_of_groups hg (primary_mem g)), fun hout => hout.2 rfl⟩

theorem distinct_of_merged (h : Merged (allPairs r w.db) w t)
    (hhash : ∀ id row, w.db.readOne id = some row →
      row.contentHash = r.engine.platform.contentHash row.content)
    (hlow : 89 / 100 < r.autoAcceptThreshold) (hhigh : r.autoAcceptThreshold ≤ 19 / 20)
    {a b : MemoryRecord} (ha : a ∈ reflectableL1Facts r t.db) (hb : b ∈ reflectableL1Facts r t.db)
    (hab : a.content = b.content) : a = b := by
  obtain ⟨ha, hakept⟩ := h.reflectable ha
  obtain ⟨hb, hbkept⟩ := h.reflectable hb
  obtain ⟨g, hg, hag⟩ := mem_cohorts.mpr ha
  obtain ⟨g', hg', hbg⟩ := mem_cohorts.mpr hb
  obtain rfl := groups_same hg hg' hag hbg hab
  by_contra hne
  have hsamehash : a.contentHash = b.contentHash := by
    rw [hhash _ a (mem_reflectable.mp ha).1, hhash _ b (mem_reflectable.mp hb).1, hab]
  have haccept := (accepted_iff hlow hhigh hg).mpr ⟨a, hag, b, hbg, hne, hsamehash⟩
  rw [superseded_iff hg hag] at hakept
  rw [superseded_iff hg hbg] at hbkept
  have haprimary := not_not.mp fun hout => hakept ⟨haccept, hout⟩
  have hbprimary := not_not.mp fun hout => hbkept ⟨haccept, hout⟩
  exact hne (reflectable_eq ha hb (haprimary.trans hbprimary.symm))

theorem mergedAway_of_superseded (h : Merged (allPairs r w.db) w t) {id : RecordId}
    (hid : id ∈ (allPairs r w.db).map Prod.snd) : MergedAway r w t id := by
  obtain ⟨g, hg, haccept, hdup⟩ := mem_superseded.mp hid
  obtain ⟨now, hrow⟩ := h.superseded id hid
  obtain ⟨_, a, ha, rfl⟩ := mem_duplicates.mp hdup
  have hreflectable := mem_of_groups hg ha
  refine ⟨a, hreflectable, now, clusterOf g, primary g, rfl, ?_, ?_, ?_, ?_, ?_, ?_⟩
  · rw [hrow, (mem_reflectable.mp hreflectable).1]
    rfl
  · exact autoMerged_iff.mpr ⟨g, hg, haccept, rfl, rfl⟩
  · exact List.mem_map_of_mem ha
  · exact List.mem_map_of_mem (primary_mem g)
  · exact h.edges ((primary g).id, a.id) (mem_allPairs.mpr ⟨g, hg, haccept, rfl, hdup⟩)
  · exact primary_live h hg

theorem consolidated_of_merged (h : Merged (allPairs r w.db) w t)
    (hhash : ∀ id row, w.db.readOne id = some row →
      row.contentHash = r.engine.platform.contentHash row.content)
    (hlow : 89 / 100 < r.autoAcceptThreshold) (hhigh : r.autoAcceptThreshold ≤ 19 / 20) :
    Consolidated r w t where
  distinct _ ha _ hb hab := distinct_of_merged h hhash hlow hhigh ha hb hab
  changed id hid := by
    refine mergedAway_of_superseded h (by_contra fun hout => ?_)
    exact hid (h.others id hout)
  kept c kept hc := by
    obtain ⟨g, hg, haccept, rfl, rfl⟩ := autoMerged_iff.mp hc
    refine ⟨(primary g).id, ⟨List.mem_map_of_mem (primary_mem g), primary_live h hg⟩, ?_⟩
    rintro id ⟨hid, hlive⟩
    obtain ⟨a, ha, rfl⟩ := List.mem_map.mp hid
    rw [h.live, superseded_iff hg ha] at hlive
    exact not_not.mp fun hne => hlive.2 ⟨haccept, hne⟩
  duplicated c kept hc := by
    obtain ⟨g, hg, haccept, rfl, rfl⟩ := autoMerged_iff.mp hc
    obtain ⟨a, ha, b, hb, hne, hab⟩ := (accepted_iff hlow hhigh hg).mp haccept
    rw [members_clusterOf (reflectable_nodup r w.db) fun _ ha => mem_of_groups hg ha]
    exact ⟨a, b, hne, ha, hb, hab⟩
  reviewed c hc hnone id hid := by
    rw [clusterL1_cohorts] at hc
    obtain ⟨g, hg, rfl⟩ := List.mem_map.mp hc
    obtain ⟨a, ha, rfl⟩ := List.mem_map.mp hid
    refine h.others _ fun hout => ?_
    have haccept := ((superseded_iff hg ha).mp hout).1
    exact hnone (primary g) (autoMerged_iff.mpr ⟨g, hg, haccept, rfl, rfl⟩)
  ignored row hrow hout := by
    refine (h.others row.id fun hid => hout ?_).trans hrow
    obtain ⟨g, hg, _, hdup⟩ := mem_superseded.mp hid
    obtain ⟨_, a, ha, hsame⟩ := mem_duplicates.mp hdup
    have hreflectable := mem_of_groups hg ha
    have hread := (mem_reflectable.mp hreflectable).1
    rw [hsame, hrow] at hread
    exact Option.some.inj hread ▸ hreflectable
  tombstones := h.tombstones

theorem consolidate_run (r : ReflectionEngine) (w : World Memory) :
    ∃ ids t, r.consolidate.run w = (.ok ids, t) ∧ Merged (allPairs r w.db) w t := by
  have hmembers : ∀ g ∈ (groups r w.db).filter (fun g => 2 ≤ g.items.length), ∀ a ∈ g.items,
      a ∈ reflectableL1Facts r w.db := fun g hg a ha =>
    mem_of_groups (List.mem_filter.mp hg).1 ha
  obtain ⟨ids, t, hrun, hmerged⟩ := consolidateClusters_run (w := w) r (reflectable_nodup r w.db)
    hmembers fun g hg a ha => by
      obtain ⟨hrow, _, _, _, hlive, _⟩ := mem_reflectable.mp (hmembers g hg a ha)
      exact ⟨by rw [hrow]; rfl, hlive⟩
  refine ⟨ids, t, ?_, hmerged⟩
  unfold ReflectionEngine.consolidate
  rw [Proc.run_bind_ok (run_query _ w), reviewWorthy_groups]
  exact hrun

/-- A consolidation returns; whatever was pending or failing, it supersedes every exact
duplicate, in favour of a primary that stays live, and changes no other record. -/
theorem consolidate_removes_duplicates (r : ReflectionEngine) (w : World Memory)
    (hhash : ∀ id row, w.db.readOne id = some row →
      row.contentHash = r.engine.platform.contentHash row.content)
    (hlow : 89 / 100 < r.autoAcceptThreshold) (hhigh : r.autoAcceptThreshold ≤ 19 / 20) :
    ∃ ids t, r.consolidate.run w = (.ok ids, t) ∧ Consolidated r w t := by
  obtain ⟨ids, t, hrun, hmerged⟩ := consolidate_run r w
  exact ⟨ids, t, hrun, consolidated_of_merged hmerged hhash hlow hhigh⟩

theorem consolidate_removes_duplicates_written :
    let w := runCalls plainStrata plainWorld
      [.writeMemory "tea" {}, .writeMemory "milk" {}, .writeMemory "tea" {}]
    ∃ ids t, plainStrata.reflection.consolidate.run w = (.ok ids, t) ∧
      Consolidated plainStrata.reflection w t := by
  intro w
  have hrows : ∀ e ∈ w.db.canonical.records.entries, e.2.contentHash = e.2.content := by decide
  refine consolidate_removes_duplicates plainStrata.reflection w (fun id row hrow => ?_) ?_ ?_
  · exact hrows (id, row) (Table.mem_entries.mpr hrow)
  · change (89 / 100 : ℚ) < 9 / 10
    norm_num
  · change (9 / 10 : ℚ) ≤ 19 / 20
    norm_num

end Runs
end StrataMemory.Consolidation
