import StrataMemory.Consolidation
import StrataMemory.CrashedCalls

set_option autoImplicit false

namespace StrataMemory.ClusterSeparation
open Records Resolver Gateway Clustering Consolidation CrashedCalls NodeRuns

/-- The clusters of the records at a threshold. A record is named by its id. -/
structure Separates (p : Platform) (threshold : ℚ) (records : List MemoryRecord)
    (clusters : List Cluster) : Prop where
  partition : (clusters.flatMap Cluster.recordIds).Perm (records.map MemoryRecord.id)
  listed : ∀ c ∈ clusters, (members records c).map MemoryRecord.id = c.recordIds
  ordered : ∀ c ∈ clusters, c.recordIds.Sublist (records.map MemoryRecord.id)
  -- every cluster has a first member, and stands where that member seeded it
  represented : ∀ c ∈ clusters,
    (members records c).head?.map MemoryRecord.content = some c.representative
  seeded : (clusters.map fun c => (members records c).head?).Sublist (records.map some)
  joined : ∀ c ∈ clusters, ∀ r ∈ (members records c).tail,
    threshold ≤ jaccard p r.content c.representative
  apart : clusters.Pairwise fun c d => jaccard p c.representative d.representative < threshold ∧
    jaccard p d.representative c.representative < threshold
  later : clusters.Pairwise fun c d =>
    ∀ r ∈ members records d, jaccard p r.content c.representative < threshold

section Clusters
variable {p : Platform} {threshold : ℚ} {records : List MemoryRecord}

theorem lt_of_not_alike {a b : MemoryRecord} (h : alike p threshold a b = false) :
    jaccard p a.content b.content < threshold :=
  not_le.mp (of_decide_eq_false h)

theorem members_cohort (hids : (records.map MemoryRecord.id).Nodup) {g : Cohort MemoryRecord}
    (hg : g ∈ cohorts (alike p threshold) records) : members records (clusterOf g) = g.items :=
  members_clusterOf hids fun _ ha => mem_cohorts.mp ⟨g, hg, ha⟩

/-- Records with distinct ids are divided by any threshold, also by one that no text reaches. -/
theorem clusterL1_separates (p : Platform) (threshold : ℚ)
    (hids : (records.map MemoryRecord.id).Nodup) :
    Separates p threshold records (clusterL1 p records threshold) := by
  let gs := cohorts (alike p threshold) records
  have hmembers : ∀ g ∈ gs, members records (clusterOf g) = g.items := fun g hg =>
    members_cohort hids hg
  have hapart : gs.Pairwise fun g h => ∀ a ∈ h.items, alike p threshold a g.leader = false :=
    apart_cohorts records
  have hleader : ∀ g ∈ gs, (members records (clusterOf g)).head? = some g.leader := fun g hg => by
    rw [hmembers g hg]
    rfl
  rw [clusterL1_cohorts]
  constructor
  case partition =>
    have hflat : (gs.map clusterOf).flatMap Cluster.recordIds =
        (gs.flatMap Cohort.items).map MemoryRecord.id := by
      rw [List.flatMap_map, List.map_flatMap]
      rfl
    rw [hflat]
    exact (cohorts_perm records).map MemoryRecord.id
  case apart =>
    refine List.pairwise_map.mpr (hapart.imp fun {g h} hfar => ?_)
    have hlt := lt_of_not_alike (hfar h.leader List.mem_cons_self)
    exact ⟨(jaccard_comm p _ _).trans_lt hlt, hlt⟩
  case later =>
    refine List.pairwise_map.mpr (hapart.imp_of_mem fun {g h} _ hh hfar r hr => ?_)
    rw [hmembers h hh] at hr
    exact lt_of_not_alike (hfar r hr)
  case seeded =>
    have hseeds : (gs.map clusterOf).map (fun c => (members records c).head?) =
        (gs.map Cohort.leader).map some := by
      rw [List.map_map, List.map_map]
      exact List.map_congr_left hleader
    rw [hseeds]
    exact (leaders_sublist records).map some
  all_goals
    intro c hc
    obtain ⟨g, hg, rfl⟩ := List.mem_map.mp hc
  case listed =>
    rw [hmembers g hg]
    rfl
  case ordered => exact (items_sublist hg).map MemoryRecord.id
  case represented =>
    rw [hleader g hg]
    rfl
  case joined =>
    rw [hmembers g hg]
    exact fun r hr => of_decide_eq_true (near_leader hg r hr)

end Clusters

theorem clusterL1_separates_twins :
    Separates plainPlatform (3 / 5) [plainRecord 1 "tea", plainRecord 2 "milk", plainRecord 3 "tea"]
      [⟨[1, 3], "tea"⟩, ⟨[2], "milk"⟩] := by
  have hclusters : clusterL1 plainPlatform
      [plainRecord 1 "tea", plainRecord 2 "milk", plainRecord 3 "tea"] (3 / 5) =
        [⟨[1, 3], "tea"⟩, ⟨[2], "milk"⟩] := by decide +kernel
  rw [← hclusters]
  exact clusterL1_separates _ _ (by decide)

end StrataMemory.ClusterSeparation
