import StrataMemory.BundleSoundness
import StrataMemory.NodeRuns

set_option autoImplicit false

namespace StrataMemory.Resolver
open KeyedTables Records Tables CanonicalStore

def isCurrent : Category → Bool
  | .currentBelief | .recentContext | .interactionGuidance => true
  | .openConflict | .hypothesis | .policyFlag => false

/-- No live record supersedes the id or contradicts it, from either end of the edge. -/
structure Uncontested (db : Db) (id : RecordId) : Prop where
  superseders : ∀ d ∈ db.canonical.dependencies, d.rel = .supersedes → d.childId = id →
    isLiveRecord db d.parentId = false
  contradictors : ∀ d ∈ db.canonical.dependencies, d.rel = .contradicts →
    (d.childId = id → isLiveRecord db d.parentId = false) ∧
      (d.parentId = id → isLiveRecord db d.childId = false)

theorem mem_contradictorsOf {db : Db} {id other : RecordId} : other ∈ contradictorsOf db id ↔
    ∃ d ∈ db.canonical.dependencies, d.rel = .contradicts ∧
      (d.parentId = id ∧ d.childId = other ∨ d.childId = id ∧ d.parentId = other) := by
  unfold contradictorsOf
  rw [mem_sortBy, mem_neighbours]
  simp only [List.mem_filter, decide_eq_true_eq, and_assoc]

theorem uncontested_of_route {db : Db} {id : RecordId} (hsup : isSupersededByActive db id = false)
    (hcon : activeContradictors db id = []) : Uncontested db id := by
  have hcontradictor : ∀ other ∈ contradictorsOf db id, isLiveRecord db other = false := by
    intro other hother
    rw [Bool.eq_false_iff]
    intro hlive
    have hmem : other ∈ activeContradictors db id := List.mem_filter.mpr ⟨hother, hlive⟩
    rw [hcon] at hmem
    cases hmem
  refine ⟨fun d hd hrel hchild => ?_, fun d hd hrel => ⟨?_, ?_⟩⟩
  · unfold isSupersededByActive at hsup
    rw [List.any_eq_false] at hsup
    refine Bool.eq_false_iff.mpr (hsup d.parentId (List.mem_map_of_mem ?_))
    exact List.mem_filter.mpr ⟨hd, by simp [hchild, hrel]⟩
  · rintro rfl
    exact hcontradictor _ (mem_contradictorsOf.mpr ⟨d, hd, hrel, .inr ⟨rfl, rfl⟩⟩)
  · rintro rfl
    exact hcontradictor _ (mem_contradictorsOf.mpr ⟨d, hd, hrel, .inl ⟨rfl, rfl⟩⟩)

theorem entries_category {p : Platform} {db : Db} {candidates : List Candidate} {now : Time}
    {permit : Option (MemoryRecord → Bool)} {budgets : Budgets} {diversity : Bool} {threshold : ℚ}
    {c : Category} {e : BundleEntry}
    (h : e ∈ (resolve p db candidates now permit budgets diversity threshold).entries c) :
    e.category = c ∧ ∃ item, db.readOne e.id = some item.1 ∧ db.isTombstoned e.id = false ∧
      route db item = some e := by
  have hall := mem_allEntries.mpr ⟨c, h⟩
  obtain ⟨m, _, item, hh, hroute⟩ := mem_resolve hall
  obtain ⟨hread, _, hlive, _⟩ := hydrate_some hh
  have hid : e.id = m.1 := (route_id hroute).trans (hydrate_id hh)
  refine ⟨?_, item, hid ▸ hread, hid ▸ hlive, hroute⟩
  unfold resolve at h
  rw [entries_buildBundle] at h
  simpa using (List.mem_filter.mp ((trim_sublist _ _ _).subset h)).2

/-- An entry of current truth is of a live row that no live record contests. -/
theorem current_uncontested {p : Platform} {db : Db} {candidates : List Candidate} {now : Time}
    {permit : Option (MemoryRecord → Bool)} {budgets : Budgets} {diversity : Bool} {threshold : ℚ}
    {c : Category} (hc : isCurrent c = true) {e : BundleEntry}
    (h : e ∈ (resolve p db candidates now permit budgets diversity threshold).entries c) :
    (∃ r, db.readOne e.id = some r ∧ r.status.isActive = true) ∧ isLiveRecord db e.id = true ∧
      Uncontested db e.id := by
  obtain ⟨hcategory, item, hread, hlive, hroute⟩ := entries_category h
  have hid := route_id hroute
  rcases route_cases hroute with ⟨_, rfl | rfl⟩ | ⟨hactive, hsup, ⟨_, rfl⟩ | ⟨hcon, rfl⟩⟩
  · rw [← hcategory] at hc
    cases hc
  · rw [← hcategory] at hc
    cases hc
  · rw [← hcategory] at hc
    cases hc
  · refine ⟨⟨item.1, hread, hactive⟩, ?_, uncontested_of_route hsup hcon⟩
    unfold isLiveRecord
    rw [hread]
    simp [hactive, hlive]

theorem current_unlinked {p : Platform} {db : Db} {candidates : List Candidate} {now : Time}
    {permit : Option (MemoryRecord → Bool)} {budgets : Budgets} {diversity : Bool} {threshold : ℚ}
    {c c' : Category} (hc : isCurrent c = true) (hc' : isCurrent c' = true) {e e' : BundleEntry}
    (h : e ∈ (resolve p db candidates now permit budgets diversity threshold).entries c)
    (h' : e' ∈ (resolve p db candidates now permit budgets diversity threshold).entries c')
    {d : Dependency} (hd : d ∈ db.canonical.dependencies)
    (hrel : d.rel = .supersedes ∨ d.rel = .contradicts) :
    ¬ (d.parentId = e.id ∧ d.childId = e'.id) := by
  rintro ⟨hparent, hchild⟩
  obtain ⟨_, hlive, _⟩ := current_uncontested hc h
  obtain ⟨_, _, huncontested⟩ := current_uncontested hc' h'
  have hdead : isLiveRecord db d.parentId = false := by
    rcases hrel with hrel | hrel
    · exact huncontested.superseders d hd hrel hchild
    · exact (huncontested.contradictors d hd hrel).1 hchild
  rw [hparent, hlive] at hdead
  cases hdead

structure ConflictFree (db : Db) (b : BeliefBundle) : Prop where
  uncontested : ∀ c e, isCurrent c = true → e ∈ b.entries c →
    (∃ r, db.readOne e.id = some r ∧ r.status.isActive = true) ∧ Uncontested db e.id
  unlinked : ∀ c c' e e', isCurrent c = true → isCurrent c' = true → e ∈ b.entries c →
    e' ∈ b.entries c' → ∀ d ∈ db.canonical.dependencies,
      d.rel = .supersedes ∨ d.rel = .contradicts → ¬ (d.parentId = e.id ∧ d.childId = e'.id)

theorem conflictFree_resolve (p : Platform) (db : Db) (candidates : List Candidate) (now : Time)
    (permit : Option (MemoryRecord → Bool)) (budgets : Budgets) (diversity : Bool)
    (threshold : ℚ) :
    ConflictFree db (resolve p db candidates now permit budgets diversity threshold) where
  uncontested _ _ hc he :=
    ⟨(current_uncontested hc he).1, (current_uncontested hc he).2.2⟩
  unlinked _ _ _ _ hc hc' he he' _ hd hrel := current_unlinked hc hc' he he' hd hrel

/-- Superseded, contradicted, stale, archived or deleted, or superseded by a live record. -/
def isDead (db : Db) (r : MemoryRecord) : Bool :=
  r.status = .superseded || r.status = .contradicted || r.status = .stale ||
    r.status = .archived || r.status = .deleted || isSupersededByActive db r.id

/-- The row passes every filter for some candidate: it has a hash that the candidates for its
id carry, if they carry any, and is within its window, permitted and not tombstoned. -/
structure Surfaceable (db : Db) (candidates : List Candidate) (now : Time)
    (permit : Option (MemoryRecord → Bool)) (r : MemoryRecord) : Prop where
  row : db.readOne r.id = some r
  candidate : ∃ c ∈ candidates, c.recordId = r.id
  live : db.isTombstoned r.id = false
  hash : (∃ c ∈ candidates, c.recordId = r.id ∧ c.hashes ≠ []) →
    ∃ c ∈ candidates, c.recordId = r.id ∧ r.contentHash ∈ c.hashes
  window : timeValid r now = true
  permitted : ∀ allowed, permit = some allowed → allowed r = true

theorem surfaceable_of_survivor {db : Db} {candidates : List Candidate} {now : Time}
    {permit : Option (MemoryRecord → Bool)} {item : MemoryRecord × Merged}
    (h : item ∈ hydrateAndFilter db (merge candidates) now permit) :
    Surfaceable db candidates now permit item.1 := by
  obtain ⟨⟨id, m⟩, hm, hh⟩ := List.mem_filterMap.mp h
  obtain ⟨hread, _, hlive, hhash, hvalid, hpermit⟩ := hydrate_some hh
  have hget := Table.mem_entries.mp hm
  have hid : item.1.id = id := hydrate_id hh
  subst hid
  refine ⟨hread, (merge_contains candidates _).mp (Table.contains_of_get? hget), hlive, ?_, hvalid,
    hpermit⟩
  rintro ⟨c, hc, hcid, hcarries⟩
  obtain ⟨text, htext⟩ := List.exists_mem_of_ne_nil _ hcarries
  have hmem : text ∈ m.contentHashes := (mem_merge_hashes hget).mpr ⟨c, hc, hcid, htext⟩
  refine (mem_merge_hashes hget).mp (hhash.resolve_left fun hnone => ?_)
  rw [hnone] at hmem
  cases hmem

theorem survivor_of_surfaceable {db : Db} {candidates : List Candidate} {now : Time}
    {permit : Option (MemoryRecord → Bool)} {r : MemoryRecord}
    (h : Surfaceable db candidates now permit r) :
    ∃ m, (r, m) ∈ hydrateAndFilter db (merge candidates) now permit := by
  have hcontains := (merge_contains candidates r.id).mpr h.candidate
  obtain ⟨m, hget⟩ := Option.isSome_iff_exists.mp hcontains
  have hmem : (r.id, m) ∈ (merge candidates).entries := Table.mem_entries.mpr hget
  have hhash : (!m.contentHashes.isEmpty && !decide (r.contentHash ∈ m.contentHashes)) = false := by
    cases hempty : m.contentHashes with
    | nil => rfl
    | cons text rest =>
      have hfirst : text ∈ m.contentHashes := by simp [hempty]
      obtain ⟨c, hc, hcid, htext⟩ := (mem_merge_hashes hget).mp hfirst
      have hcarried := h.hash ⟨c, hc, hcid, List.ne_nil_of_mem htext⟩
      rw [← hempty, decide_eq_true ((mem_merge_hashes hget).mpr hcarried), Bool.not_true,
        Bool.and_false]
  have hpermit : (permit.any fun allowed => !allowed r) = false := by
    cases hp : permit with
    | none => rfl
    | some allowed => simp [h.permitted allowed hp]
  refine ⟨m, List.mem_filterMap.mpr ⟨(r.id, m), hmem, ?_⟩⟩
  unfold hydrate
  simp only [h.row, h.live, hhash, h.window, hpermit]
  rfl

def ShowsNoDead (db : Db) (b : BeliefBundle) : Prop :=
  ∀ e ∈ b.allEntries, ∀ r, db.readOne e.id = some r → isDead db r = false

theorem not_dead_of_active {db : Db} {r : MemoryRecord} (hactive : r.status.isActive = true)
    (hsup : isSupersededByActive db r.id = false) : isDead db r = false := by
  unfold isDead
  rw [hsup]
  cases hstatus : r.status <;> simp [Status.isActive, hstatus] at hactive ⊢

/-- A row that is routed by what it is has an entry when nothing is trimmed. -/
theorem shown_of_survivor (p : Platform) {db : Db} {candidates : List Candidate} {now : Time}
    {permit : Option (MemoryRecord → Bool)} {item : MemoryRecord × Merged}
    (h : item ∈ hydrateAndFilter db (merge candidates) now permit)
    (hkind : routedByKind item.1 = true) (threshold : ℚ) :
    ∃ e ∈ (resolve p db candidates now permit [] false threshold).allEntries,
      e.id = item.1.id := by
  obtain ⟨e, hroute⟩ : ∃ e, route db item = some e := by
    unfold route
    dsimp only
    split
    · exact ⟨_, rfl⟩
    · rename_i hreflection
      rw [if_pos (by simpa [routedByKind, hreflection] using hkind)]
      exact ⟨_, rfl⟩
  refine ⟨e, mem_allEntries.mpr ⟨e.category, ?_⟩, route_id hroute⟩
  unfold resolve
  rw [entries_buildBundle]
  change e ∈ List.filter _ _
  refine List.mem_filter.mpr ⟨List.mem_filterMap.mpr ⟨item, ?_, hroute⟩, decide_eq_true rfl⟩
  exact (mem_sortByDesc _ _ _).mpr h

/-- Whatever the budgets and the diversity, the bundle shows no dead record exactly when no
reflection, guardrail or L4 record that can surface is dead. -/
theorem shows_no_dead_iff (p : Platform) (db : Db) (candidates : List Candidate) (now : Time)
    (permit : Option (MemoryRecord → Bool)) :
    (∀ budgets diversity threshold,
      ShowsNoDead db (resolve p db candidates now permit budgets diversity threshold)) ↔
    ∀ r, Surfaceable db candidates now permit r → routedByKind r = true → isDead db r = false := by
  constructor
  · intro hshows r hr hkind
    obtain ⟨m, hmem⟩ := survivor_of_surfaceable hr
    obtain ⟨e, he, hid⟩ := shown_of_survivor p hmem hkind 0
    exact hshows [] false 0 e he r (hid ▸ hr.row)
  · intro hkinds budgets diversity threshold e he r hread
    obtain ⟨item, hitem, hroute⟩ := mem_buildBundle he
    have hsurfaceable := surfaceable_of_survivor hitem
    have hsame : r = item.1 :=
      Option.some.inj ((hread.symm.trans (by rw [route_id hroute])).trans hsurfaceable.row)
    subst hsame
    rcases route_cases hroute with ⟨hkind, _⟩ | ⟨hactive, hsup, _⟩
    · exact hkinds _ hsurfaceable hkind
    · exact not_dead_of_active hactive hsup

open NodeRuns in
/-- A reflection that has been superseded is still shown, as a hypothesis. -/
theorem superseded_reflection_surfaces :
    let w := runCalls plainStrata plainWorld
      [.writeMemory "tea" { recordType := .reflection }, .supersedeMemory 1 "milk" {}]
    ¬ ShowsNoDead w.db (resolve plainPlatform w.db [{ recordId := 1 }] 0 none) := by
  intro w hshows
  have hentry : (resolve plainPlatform w.db [{ recordId := 1 }] 0 none).allEntries.any
      (·.id = 1) = true := by decide
  have hrow : (w.db.readOne 1).any (isDead w.db) = true := by decide
  obtain ⟨e, he, hid⟩ := List.any_eq_true.mp hentry
  cases hread : w.db.readOne 1 with
  | none =>
    rw [hread] at hrow
    cases hrow
  | some r =>
    rw [hread] at hrow
    have hlive := hshows e he r (of_decide_eq_true hid ▸ hread)
    exact absurd (hrow.symm.trans hlive) (by decide)

end StrataMemory.Resolver
