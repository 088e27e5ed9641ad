import StrataMemory.BundleSoundness
import StrataMemory.NodeRuns

set_option autoImplicit false

namespace StrataMemory.Resolver
open KeyedTables Records Tables CanonicalStore NodeRuns

/-- What the pipeline reads of a merged candidate: never the list of its sources. -/
structure Evidence where
  bestScore : ℚ
  hashes : Finset String
  count : ℕ

def Merged.evidence (m : Merged) : Evidence :=
  ⟨m.bestScore, m.contentHashes.toFinset, m.evidenceCount⟩

def Evidence.add (c : Candidate) : Option Evidence → Evidence
  | none => ⟨c.score, c.hashes.toFinset, 1⟩
  | some e => ⟨max e.bestScore c.score, e.hashes ∪ c.hashes.toFinset, e.count + 1⟩

def gather (seen : RecordId → Option Evidence) (c : Candidate) : RecordId → Option Evidence :=
  Function.update seen c.recordId (some (Evidence.add c (seen c.recordId)))

def evidenceIn (out : Table RecordId Merged) (id : RecordId) : Option Evidence :=
  (out.get? id).map Merged.evidence

theorem evidenceIn_mergeOne (out : Table RecordId Merged) (c : Candidate) :
    evidenceIn (mergeOne out c) = gather (evidenceIn out) c := by
  funext id
  unfold evidenceIn mergeOne gather
  by_cases hid : id = c.recordId
  · subst hid
    rw [Table.get?_set_self, Function.update_self, Option.map_some]
    dsimp only
    cases out.get? c.recordId with
    | none => rfl
    | some m =>
      simp only [Option.map_some, Evidence.add, Merged.evidence, List.toFinset_append]
  · rw [Table.get?_set_of_ne _ _ (Ne.symm hid), Function.update_of_ne hid]

theorem Evidence.add_comm (a b : Candidate) (e : Option Evidence) :
    Evidence.add b (some (Evidence.add a e)) = Evidence.add a (some (Evidence.add b e)) := by
  cases e with
  | none => simp [Evidence.add, max_comm, Finset.union_comm]
  | some e =>
    simp only [Evidence.add, max_right_comm e.bestScore, Finset.union_right_comm e.hashes]

theorem gather_comm (seen : RecordId → Option Evidence) (a b : Candidate) :
    gather (gather seen a) b = gather (gather seen b) a := by
  unfold gather
  by_cases hid : a.recordId = b.recordId
  · simp only [hid, Function.update_self, Function.update_idem, Evidence.add_comm]
  · rw [Function.update_of_ne (Ne.symm hid), Function.update_of_ne hid,
      Function.update_comm hid]

theorem evidenceIn_perm {candidates others : List Candidate} (h : candidates.Perm others) :
    evidenceIn (merge candidates) = evidenceIn (merge others) := by
  have hfold : ∀ cs, evidenceIn (merge cs) = cs.foldl gather (evidenceIn ∅) := fun cs =>
    (List.foldl_hom evidenceIn fun out c => (evidenceIn_mergeOne out c).symm).symm
  rw [hfold, hfold]
  exact h.foldl_eq' (fun a _ b _ seen => gather_comm seen a b) _

section Survivors
variable {db : Db} {now : Time} {permit : Option (MemoryRecord → Bool)}

def weigh (item : MemoryRecord × Merged) : MemoryRecord × Evidence := (item.1, item.2.evidence)

theorem hydrate_weigh {m other : RecordId × Merged} (hid : m.1 = other.1)
    (hsame : m.2.evidence = other.2.evidence) :
    (hydrate db now permit m).map weigh = (hydrate db now permit other).map weigh := by
  obtain ⟨id, m⟩ := m
  obtain ⟨_, other⟩ := other
  cases hid
  have hhashes : m.contentHashes.toFinset = other.contentHashes.toFinset :=
    congrArg Evidence.hashes hsame
  have hmem : ∀ text, text ∈ m.contentHashes ↔ text ∈ other.contentHashes := fun text => by
    rw [← List.mem_toFinset, hhashes, List.mem_toFinset]
  have hempty : m.contentHashes.isEmpty = other.contentHashes.isEmpty := by
    rw [Bool.eq_iff_iff, List.isEmpty_iff, List.isEmpty_iff, List.eq_nil_iff_forall_not_mem,
      List.eq_nil_iff_forall_not_mem]
    exact forall_congr' fun text => not_congr (hmem text)
  unfold hydrate
  dsimp only
  cases db.readOne id with
  | none => rfl
  | some r =>
    simp only [hempty, hmem]
    split_ifs <;> simp [weigh, hsame]

theorem mem_weighed {merged : Table RecordId Merged} {pair : MemoryRecord × Evidence} :
    pair ∈ (hydrateAndFilter db merged now permit).map weigh ↔
      ∃ id m, merged.get? id = some m ∧ (hydrate db now permit (id, m)).map weigh = some pair := by
  unfold hydrateAndFilter
  simp only [List.mem_map, List.mem_filterMap, Option.map_eq_some_iff, Prod.exists]
  constructor
  · rintro ⟨r, m, ⟨id, m', hentry, hh⟩, rfl⟩
    exact ⟨id, m', Table.mem_entries.mp hentry, r, m, hh, rfl⟩
  · rintro ⟨id, m', hget, r, m, hh, rfl⟩
    exact ⟨r, m, ⟨id, m', Table.mem_entries.mpr hget, hh⟩, rfl⟩

theorem weighed_nodup (merged : Table RecordId Merged) :
    ((hydrateAndFilter db merged now permit).map weigh).Nodup := by
  have hids : (((hydrateAndFilter db merged now permit).map weigh).map fun pair =>
      pair.1.id).Nodup := by
    rw [List.map_map]
    exact survivors_nodup
  exact hids.of_map _

theorem weighed_perm {candidates others : List Candidate} (h : candidates.Perm others) :
    ((hydrateAndFilter db (merge candidates) now permit).map weigh).Perm
      ((hydrateAndFilter db (merge others) now permit).map weigh) := by
  have hsub : ∀ {cs ds : List Candidate}, cs.Perm ds →
      ∀ pair ∈ (hydrateAndFilter db (merge cs) now permit).map weigh,
        pair ∈ (hydrateAndFilter db (merge ds) now permit).map weigh := by
    intro cs ds hperm pair hpair
    obtain ⟨id, m, hget, hh⟩ := mem_weighed.mp hpair
    have hevidence : (evidenceIn (merge ds)) id = some m.evidence := by
      rw [← evidenceIn_perm hperm]
      exact congrArg (Option.map Merged.evidence) hget
    obtain ⟨m', hget', hsame⟩ := Option.map_eq_some_iff.mp hevidence
    have hhydrated : (hydrate db now permit (id, m')).map weigh =
        (hydrate db now permit (id, m)).map weigh := hydrate_weigh rfl hsame
    exact mem_weighed.mpr ⟨id, m', hget', hhydrated.trans hh⟩
  exact (List.perm_ext_iff_of_nodup (weighed_nodup _) (weighed_nodup _)).mpr fun pair =>
    ⟨hsub h pair, hsub h.symm pair⟩

end Survivors

def weight (pair : MemoryRecord × Evidence) : ℚ ×ₗ ℚ ×ₗ Time ×ₗ ℚ ×ₗ ℕ :=
  toLex (statusWeight pair.1.status, toLex (pair.1.confidence.getD 0,
    toLex (pair.1.updatedAt, toLex (pair.2.bestScore, pair.2.count))))

theorem rank_weighed (survivors : List (MemoryRecord × Merged)) :
    (rank survivors).map weigh = sortByDesc weight (survivors.map weigh) :=
  List.map_insertionSort _ _ _ _ fun _ _ _ _ => Iff.rfl

theorem keepIndices_map {α β : Type} (f : α → β) (keep : List ℕ) (xs : List α) :
    (keepIndices keep xs).map f = keepIndices keep (xs.map f) := by
  unfold keepIndices
  rw [List.zipIdx_map, List.filter_map, List.map_map, List.map_map]
  rfl

theorem route_weigh (db : Db) {item other : MemoryRecord × Merged} (h : weigh item = weigh other) :
    route db item = route db other := by
  obtain ⟨r, m⟩ := item
  obtain ⟨r', m'⟩ := other
  obtain ⟨rfl, hsame⟩ := Prod.mk.inj h
  have hcount : m.evidenceCount = m'.evidenceCount := congrArg Evidence.count hsame
  have hentry : ∀ c host status, entry db (r, m) c host status = entry db (r, m') c host status :=
    fun c host status => by simp only [entry, hcount]
  unfold route
  simp only [hentry]

theorem filterMap_of_map {α β γ : Type} {f : α → β} {g : α → Option γ}
    (hg : ∀ a b, f a = f b → g a = g b) {xs ys : List α} (h : xs.map f = ys.map f) :
    xs.filterMap g = ys.filterMap g := by
  induction xs generalizing ys with
  | nil =>
    cases ys with
    | nil => rfl
    | cons b ys => cases h
  | cons a xs ih =>
    cases ys with
    | nil => cases h
    | cons b ys =>
      obtain ⟨hhead, htail⟩ := List.cons.inj h
      rw [List.filterMap_cons, List.filterMap_cons, hg a b hhead, ih htail]

theorem shown_weighed {p : Platform} {survivors others : List (MemoryRecord × Merged)}
    {diversity : Bool} {threshold : ℚ} (h : (rank survivors).map weigh = (rank others).map weigh) :
    (shown p survivors diversity threshold).map weigh =
      (shown p others diversity threshold).map weigh := by
  have htexts : (rank survivors).map (fun item => item.1.content) =
      (rank others).map fun item => item.1.content := by
    have := congrArg (List.map fun pair : MemoryRecord × Evidence => pair.1.content) h
    simpa only [List.map_map, Function.comp_def, weigh] using this
  unfold shown
  rw [htexts]
  split
  · rw [keepIndices_map, keepIndices_map, h]
  · exact h

/-- Lists of the same candidates resolve to the same bundle, if no two survivors tie. -/
theorem resolve_perm (p : Platform) (db : Db) {candidates others : List Candidate}
    (hperm : candidates.Perm others) (now : Time) (permit : Option (MemoryRecord → Bool))
    (budgets : Budgets) (diversity : Bool) (threshold : ℚ)
    (hkeys : ((hydrateAndFilter db (merge candidates) now permit).map sortKey).Nodup) :
    resolve p db candidates now permit budgets diversity threshold =
      resolve p db others now permit budgets diversity threshold := by
  have hweights : (((hydrateAndFilter db (merge candidates) now permit).map weigh).map
      weight).Nodup := by
    rw [List.map_map]
    exact hkeys
  have hrank : (rank (hydrateAndFilter db (merge candidates) now permit)).map weigh =
      (rank (hydrateAndFilter db (merge others) now permit)).map weigh := by
    rw [rank_weighed, rank_weighed]
    exact (sortByDesc_eq (weighed_perm hperm.symm) hweights).symm
  refine BeliefBundle.ext_entries fun c => ?_
  unfold resolve
  rw [entries_buildBundle, entries_buildBundle,
    filterMap_of_map (fun _ _ => route_weigh db) (shown_weighed hrank)]

theorem resolve_perm_written :
    let w := runCalls plainStrata plainWorld [.writeMemory "tea" {}, .writeMemory "milk" {}]
    let candidates : List Candidate := [{ recordId := 1 }, { recordId := 2 }, { recordId := 1 }]
    resolve plainPlatform w.db candidates 0 none defaultBudgets true 1 =
      resolve plainPlatform w.db candidates.reverse 0 none defaultBudgets true 1 := by
  intro w candidates
  have hkeys : ((hydrateAndFilter w.db (merge candidates) 0 none).map fun item =>
      item.1.updatedAt).Nodup := by decide
  refine resolve_perm plainPlatform w.db candidates.reverse_perm.symm 0 none defaultBudgets true 1 ?_
  refine List.Nodup.of_map (fun key => (ofLex (ofLex (ofLex key).2).2).1) ?_
  rw [List.map_map]
  exact hkeys

end StrataMemory.Resolver
