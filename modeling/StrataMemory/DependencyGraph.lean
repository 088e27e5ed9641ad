import StrataMemory.FlowAuthority
import StrataMemory.Worklists

set_option autoImplicit false

namespace StrataMemory.DependencyGraph
open KeyedTables Records Tables Procedures Worlds CommitEffects CanonicalStore
open DeletionFlows DeletionMachine DeletionInvariants FlowAuthority Worklists Engine

/-- Some edge joins the two ids, of any relation and in either direction. -/
def Joined (deps : List Dependency) (a b : RecordId) : Prop :=
  ∃ d ∈ deps, d.parentId = a ∧ d.childId = b ∨ d.childId = a ∧ d.parentId = b

def Connected (deps : List Dependency) : RecordId → RecordId → Prop :=
  Relation.ReflTransGen (Joined deps)

section Graph
variable {deps : List Dependency}

theorem reach_iff_connected {a b : RecordId} : Reach (neighbours deps) a b ↔ Connected deps a b := by
  have hstep : (fun a b => b ∈ neighbours deps a) = Joined deps := by
    funext a b
    exact propext mem_neighbours
  unfold Reach Connected
  rw [hstep]

theorem traverse_eq_explore (deps : List Dependency) (fuel : ℕ) (seen frontier : List RecordId) :
    CanonicalStore.traverse deps fuel seen frontier = explore (neighbours deps) fuel seen frontier := by
  induction fuel generalizing seen frontier with
  | zero => rfl
  | succ fuel ih =>
    cases frontier with
    | nil => rfl
    | cons current frontier =>
      unfold CanonicalStore.traverse explore
      rw [ih, ih]

def ends (deps : List Dependency) : List RecordId :=
  deps.map Dependency.parentId ++ deps.map Dependency.childId

theorem length_ends (deps : List Dependency) : (ends deps).length + 1 = traversalFuel deps := by
  rw [ends, List.length_append, List.length_map, List.length_map, traversalFuel]
  omega

theorem length_neighbours_le (deps : List Dependency) (id : RecordId) :
    (neighbours deps id).length ≤ (ends deps).count id := by
  unfold neighbours ends
  refine (List.dedup_sublist _).length_le.trans ?_
  rw [List.length_append, List.length_map, List.length_map, List.count_append]
  simp only [List.count_eq_countP, List.countP_map, ← List.countP_eq_length_filter]
  exact Nat.le_refl _

/-- The loop ends within its fuel: nothing is left to pop. -/
theorem traversal_ends (deps : List Dependency) (x : RecordId) :
    (turn (neighbours deps))^[traversalFuel deps] ([], [x]) =
      (CanonicalStore.traverse deps (traversalFuel deps) [] [x], []) := by
  refine Prod.ext ?_ (turns_end (length_neighbours_le deps) ?_)
  · rw [traverse_eq_explore, explore_eq_turns]
  · have hall : (ends deps).countP (· ∉ ([] : List RecordId)) ≤ (ends deps).length :=
      List.countP_le_length
    have hfuel := length_ends deps
    rw [List.length_singleton]
    omega

theorem mem_traverse_iff {x id : RecordId} :
    id ∈ CanonicalStore.traverse deps (traversalFuel deps) [] [x] ↔ Connected deps x id := by
  rw [traverse_eq_explore, mem_explore_iff (length_neighbours_le deps) (length_ends deps).le,
    reach_iff_connected]

theorem mem_dependencyGraph {db : Db} {x id : RecordId} :
    id ∈ dependencyGraph db x ↔ id ≠ x ∧ Connected db.canonical.dependencies x id := by
  unfold dependencyGraph
  rw [List.mem_filter, mem_traverse_iff, decide_eq_true_iff, and_comm]

theorem mem_covered {db : Db} {x id : RecordId} :
    id ∈ covered db x true ↔ id = x ∨ Connected db.canonical.dependencies x id := by
  unfold covered
  rw [if_pos rfl, List.mem_cons, mem_dependencyGraph]
  exact or_congr_right' fun hne => and_iff_right hne

theorem covered_closed {db : Db} {recordId : RecordId} {d : Dependency}
    (hd : d ∈ db.canonical.dependencies) (hchild : d.childId ∈ covered db recordId true) :
    d.parentId ∈ covered db recordId true := by
  have hedge : Joined db.canonical.dependencies d.childId d.parentId := ⟨d, hd, .inr ⟨rfl, rfl⟩⟩
  rw [mem_covered] at hchild ⊢
  rcases hchild with hsame | hconnected
  · rw [hsame] at hedge
    exact .inr (.single hedge)
  · exact .inr (hconnected.tail hedge)

end Graph

theorem tombstoneAll_only (ids : List RecordId) (mode : DeletionMode) (jobId : OpId)
    (w : World Memory) :
    let t := (tombstoneAll ids mode jobId).final w
    t.db.canonical.dependencies = w.db.canonical.dependencies ∧
      ∀ id, t.db.isTombstoned id = true → id ∈ ids ∨ w.db.isTombstoned id = true := by
  refine Proc.Preserves.forM (I := fun t : World Memory =>
    t.db.canonical.dependencies = w.db.canonical.dependencies ∧
      ∀ id, t.db.isTombstoned id = true → id ∈ ids ∨ w.db.isTombstoned id = true) _ _
    (fun id hid => Proc.Preserves.perform fun t ht => ⟨ht.1, fun other hother => ?_⟩) w
    ⟨rfl, fun _ h => .inr h⟩
  have hor := (isTombstoned_tombstone id mode jobId _ t other).symm.trans hother
  rcases Bool.or_eq_true_iff.mp hor with hsame | hold
  · exact .inl (of_decide_eq_true hsame ▸ hid)
  · exact ht.2 other hold

theorem noneTombstoned_authority (S : RecordId → Prop) :
    AuthorityInvariant fun w => ∀ id, w.db.isTombstoned id = true → S id where
  same w t h hw := by
    rw [isTombstoned_of_authority h]
    exact hw
  supersede _ _ _ hw := hw
  link _ _ _ hw := hw
  mark id state verifiedAt w hw := by
    rw [isTombstoned_mark]
    exact hw
  erase _ _ hw := hw

theorem requestDeletion_tombstones (e : MemoryEngine) (x : RecordId) (mode : DeletionMode)
    (includeDependents : Bool) (w : World Memory) (id : RecordId) :
    ((requestDeletion e.deletion x mode includeDependents).final w).db.isTombstoned id = true ↔
      id ∈ covered w.db x includeDependents ∨ w.db.isTombstoned id = true := by
  rw [requestDeletion_final]
  let ids := covered w.db x includeDependents
  let u := apply .newOperationId w
  constructor
  · have honly := (tombstoneAll_only ids mode w.operationIds u).2
    exact (noneTombstoned_authority fun id => id ∈ ids ∨ w.db.isTombstoned id = true).purgeAndVerify
      _ _ _ _ _ honly id
  · rintro (hcovered | hold)
    · refine final_isTombstoned _ _ id ?_
      exact tombstoneAll_tombstones ids mode w.operationIds u id hcovered
    · exact final_isTombstoned _ _ id (final_isTombstoned _ u id hold)

/-- For any edges the loop of the traversal ends, and what it has seen is the component of the
record. `dependency_graph` returns the rest of the component, and a deletion with dependents
tombstones the component beside what was tombstoned. -/
theorem dependency_graph_exact :
    (∀ (deps : List Dependency) (x : RecordId), ∃ turns seen,
      (turn (neighbours deps))^[turns] ([], [x]) = (seen, []) ∧
      CanonicalStore.traverse deps (traversalFuel deps) [] [x] = seen ∧
      ∀ id, id ∈ seen.filter (· ≠ x) ↔ id ≠ x ∧ Connected deps x id) ∧
    (∀ (db : Db) (x id : RecordId),
      id ∈ dependencyGraph db x ↔ id ≠ x ∧ Connected db.canonical.dependencies x id) ∧
    ∀ (e : MemoryEngine) (x : RecordId) (mode : DeletionMode) (w : World Memory) (id : RecordId),
      ((requestDeletion e.deletion x mode true).final w).db.isTombstoned id = true ↔
        w.db.isTombstoned id = true ∨ id = x ∨ Connected w.db.canonical.dependencies x id := by
  refine ⟨fun deps x => ?_, fun db x id => mem_dependencyGraph, fun e x mode w id => ?_⟩
  · refine ⟨_, _, traversal_ends deps x, rfl, fun id => ?_⟩
    rw [List.mem_filter, mem_traverse_iff, decide_eq_true_iff, and_comm]
  · rw [requestDeletion_tombstones, mem_covered, or_comm]

end StrataMemory.DependencyGraph
