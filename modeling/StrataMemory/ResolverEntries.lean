import StrataMemory.Resolver

set_option autoImplicit false

namespace StrataMemory.Resolver
open KeyedTables Records Tables CanonicalStore

theorem mem_allEntries {b : BeliefBundle} {e : BundleEntry} :
    e ∈ b.allEntries ↔ ∃ c, e ∈ b.entries c := by
  unfold BeliefBundle.allEntries
  simp only [List.mem_append]
  constructor
  · rintro (((((h | h) | h) | h) | h) | h)
    exacts [⟨.currentBelief, h⟩, ⟨.recentContext, h⟩, ⟨.interactionGuidance, h⟩,
      ⟨.openConflict, h⟩, ⟨.hypothesis, h⟩, ⟨.policyFlag, h⟩]
  · rintro ⟨c, h⟩
    cases c <;> simp only [BeliefBundle.entries] at h <;> simp [h]

theorem entries_add (b : BeliefBundle) (e : BundleEntry) (c : Category) :
    (b.add e).entries c = if e.category = c then b.entries c ++ [e] else b.entries c := by
  unfold BeliefBundle.add
  cases he : e.category <;> cases c <;> rfl

theorem entries_applyBudgets (budgets : Budgets) (b : BeliefBundle) (c : Category) :
    (applyBudgets budgets b).entries c = trim budgets c (b.entries c) := by
  cases c <;> rfl

theorem trim_sublist (budgets : Budgets) (c : Category) (es : List BundleEntry) :
    (trim budgets c es).Sublist es := by
  unfold trim
  split
  · exact List.Sublist.refl es
  · split
    · exact List.take_sublist _ es
    · exact List.Sublist.refl es

theorem entries_routeAll (db : Db) (ranked : List (MemoryRecord × Merged)) (c : Category) :
    (routeAll db ranked).entries c =
      (ranked.filterMap (route db)).filter fun e => e.category = c := by
  have hfold : ∀ (items : List (MemoryRecord × Merged)) (b : BeliefBundle),
      (items.foldl (addRouted db) b).entries c =
        b.entries c ++ (items.filterMap (route db)).filter fun e => e.category = c := by
    intro items
    induction items with
    | nil => intro b; simp
    | cons item items ih =>
      intro b
      rw [List.foldl_cons, ih]
      unfold addRouted
      cases hr : route db item with
      | none => simp [hr]
      | some e =>
        simp only [List.filterMap_cons_some hr, entries_add]
        by_cases hc : e.category = c <;> simp [hc]
  have hempty : ({} : BeliefBundle).entries c = [] := by cases c <;> rfl
  unfold routeAll
  rw [hfold, hempty, List.nil_append]

theorem keepIndices_sublist {α : Type} (keep : List ℕ) (xs : List α) :
    (keepIndices keep xs).Sublist xs := by
  have h := (List.filter_sublist (l := xs.zipIdx) (p := fun item => item.2 ∈ keep)).map Prod.fst
  rwa [List.zipIdx_map_fst] at h

theorem mem_buildBundle {p : Platform} {db : Db} {survivors : List (MemoryRecord × Merged)}
    {budgets : Budgets} {diversity : Bool} {threshold : ℚ} {e : BundleEntry}
    (h : e ∈ (buildBundle p db survivors budgets diversity threshold).allEntries) :
    ∃ item ∈ survivors, route db item = some e := by
  obtain ⟨c, hc⟩ := mem_allEntries.mp h
  unfold buildBundle at hc
  rw [entries_applyBudgets] at hc
  have hrouted := (trim_sublist _ _ _).subset hc
  rw [entries_routeAll] at hrouted
  obtain ⟨item, hitem, hr⟩ := List.mem_filterMap.mp (List.mem_of_mem_filter hrouted)
  refine ⟨item, ?_, hr⟩
  have hranked : item ∈ rank survivors := by
    split at hitem
    · exact (keepIndices_sublist _ _).subset hitem
    · exact hitem
  exact (mem_sortByDesc _ _ _).mp hranked

/-- The two kinds of record that are routed by what they are, whatever their status. -/
def routedByKind (r : MemoryRecord) : Bool :=
  r.recordType = .reflection || r.recordType = .guardrail || r.tier = .l4

theorem route_cases {db : Db} {item : MemoryRecord × Merged} {e : BundleEntry}
    (h : route db item = some e) :
    (routedByKind item.1 = true ∧ (e = entry db item .hypothesis ∨ e = entry db item .policyFlag)) ∨
      item.1.status.isActive = true ∧ isSupersededByActive db item.1.id = false ∧
        ((activeContradictors db item.1.id ≠ [] ∧
            e = entry db item .openConflict (some .useCautiously) (some "contradicted")) ∨
          activeContradictors db item.1.id = [] ∧ e = entry db item (categoryFor item.1)) := by
  unfold route at h
  dsimp only at h
  split at h
  · rename_i hreflection
    cases h
    exact .inl ⟨by simp [routedByKind, hreflection], .inl rfl⟩
  split at h
  · rename_i hkind
    cases h
    exact .inl ⟨by rcases hkind with h | h <;> simp [routedByKind, h], .inr rfl⟩
  split at h
  · cases h
  rename_i hactive
  split at h
  · cases h
  rename_i hsuperseded
  refine .inr ⟨by simpa using hactive, by simpa using hsuperseded, ?_⟩
  split at h
  · rename_i hcontradicted
    cases h
    exact .inl ⟨by simpa using hcontradicted, rfl⟩
  · rename_i hcontradicted
    cases h
    exact .inr ⟨by simpa using hcontradicted, rfl⟩

theorem route_entry {db : Db} {item : MemoryRecord × Merged} {e : BundleEntry}
    (h : route db item = some e) : ∃ c host status, e = entry db item c host status := by
  rcases route_cases h with ⟨_, rfl | rfl⟩ | ⟨_, _, ⟨_, rfl⟩ | ⟨_, rfl⟩⟩ <;>
    exact ⟨_, _, _, rfl⟩

theorem route_id {db : Db} {item : MemoryRecord × Merged} {e : BundleEntry}
    (h : route db item = some e) : e.id = item.1.id := by
  obtain ⟨c, host, status, rfl⟩ := route_entry h
  rfl

theorem route_claim {db : Db} {item : MemoryRecord × Merged} {e : BundleEntry}
    (h : route db item = some e) : e.claim = item.1.content := by
  obtain ⟨c, host, status, rfl⟩ := route_entry h
  rfl

theorem hydrate_some {db : Db} {now : Time} {permit : Option (MemoryRecord → Bool)}
    {m : RecordId × Merged} {item : MemoryRecord × Merged} (h : hydrate db now permit m = some item) :
    db.readOne m.1 = some item.1 ∧ item.2 = m.2 ∧ db.isTombstoned m.1 = false ∧
      (m.2.contentHashes = [] ∨ item.1.contentHash ∈ m.2.contentHashes) ∧
      timeValid item.1 now = true ∧ (∀ p, permit = some p → p item.1 = true) := by
  unfold hydrate at h
  split at h
  · cases h
  · rename_i r hr
    split at h
    · cases h
    · rename_i ht
      split at h
      · cases h
      · rename_i hh
        split at h
        · cases h
        · rename_i hv
          split at h
          · cases h
          · rename_i hp
            cases h
            refine ⟨hr, rfl, by simpa using ht, ?_, by simpa using hv, ?_⟩
            · by_cases hm : r.contentHash ∈ m.2.contentHashes
              · exact .inr hm
              · exact .inl (by simpa [hm] using hh)
            · rintro p rfl
              simpa using hp

theorem mem_resolve {p : Platform} {db : Db} {candidates : List Candidate} {now : Time}
    {permit : Option (MemoryRecord → Bool)} {budgets : Budgets} {diversity : Bool} {threshold : ℚ}
    {e : BundleEntry}
    (h : e ∈ (resolve p db candidates now permit budgets diversity threshold).allEntries) :
    ∃ m ∈ (merge candidates).entries, ∃ item, hydrate db now permit m = some item ∧
      route db item = some e := by
  obtain ⟨item, hitem, hr⟩ := mem_buildBundle h
  obtain ⟨m, hm, hh⟩ := List.mem_filterMap.mp hitem
  exact ⟨m, hm, item, hh, hr⟩

theorem resolve_not_tombstoned {p : Platform} {db : Db} {candidates : List Candidate} {now : Time}
    {permit : Option (MemoryRecord → Bool)} {budgets : Budgets} {diversity : Bool} {threshold : ℚ}
    {e : BundleEntry}
    (h : e ∈ (resolve p db candidates now permit budgets diversity threshold).allEntries) :
    db.isTombstoned e.id = false := by
  obtain ⟨m, _, item, hh, hr⟩ := mem_resolve h
  obtain ⟨hread, _, hlive, _⟩ := hydrate_some hh
  rw [route_id hr, Db.readOne_id hread]
  exact hlive

end StrataMemory.Resolver
