import StrataMemory.StoreHistories

set_option autoImplicit false

namespace StrataMemory.InsertionOrders
open KeyedTables Records Tables ListOrders VectorStore StoreRefinement Histories StoreHistories

/-- The call adds the pair `y`, and `x` is there by then. -/
def Enters (x y : RecordId × ℤ) (h : List StoreCall) (c : StoreCall) : Prop :=
  ¬ Kept y h ∧ ∃ before after, c.records.map key = before ++ y :: after ∧ y ∉ before ∧
    (Kept x h ∨ x ∈ before)

/-- The pair `y` was added after `x`, and no purge since has dropped either. -/
def Ahead (x y : RecordId × ℤ) : List StoreCall → Prop :=
  SinceAt (Enters x y) fun h c => c = .purgeDeleted ∧ (Removed x.1 h ∨ Removed y.1 h)

/-- `h'` is `h` with one purge inserted. -/
def PurgedOnce (h h' : List StoreCall) : Prop :=
  ∃ before after, h = before ++ after ∧ h' = before ++ .purgeDeleted :: after

section Order
variable {x y : RecordId × ℤ} {h h' : List StoreCall} {s : InMemoryVectorStore}

theorem ahead_concat (c : StoreCall) : Ahead x y (h ++ [c]) ↔
    Enters x y h c ∨ Ahead x y h ∧ ¬ (c = .purgeDeleted ∧ (Removed x.1 h ∨ Removed y.1 h)) :=
  sinceAt_concat _ _ h c

theorem not_enters {c : StoreCall} (hc : c.records = []) : ¬ Enters x y h c := by
  rintro ⟨_, before, after, heq, _⟩
  rw [hc] at heq
  exact absurd heq.symm (List.append_ne_nil_of_right_ne_nil _ (List.cons_ne_nil _ _))

theorem pair_keys_upsertOne (s : InMemoryVectorStore) (rec : VectorRecord) :
    [x, y].Sublist (s.upsertOne rec).byKey.keys ↔
      [x, y].Sublist s.byKey.keys ∨ y ∉ s.byKey.keys ∧ y = key rec ∧ x ∈ s.byKey.keys := by
  have hkeys := Table.keys_assignIn (key rec) rec s.byKey.entries
  change [x, y].Sublist ((Table.assignIn (key rec) rec s.byKey.entries).map Prod.fst) ↔ _
  by_cases hold : key rec ∈ s.byKey.entries.map Prod.fst
  · rw [hkeys, if_pos hold]
    exact ⟨.inl, fun hor => hor.resolve_right fun hnew => hnew.1 (hnew.2.1 ▸ hold)⟩
  · rw [hkeys, if_neg hold, pair_sublist_concat]
    exact or_congr Iff.rfl ⟨fun hend => ⟨hend.1 ▸ hold, hend⟩, And.right⟩

theorem mem_keys_upsertOne (s : InMemoryVectorStore) (rec : VectorRecord) (k : RecordId × ℤ) :
    k ∈ (s.upsertOne rec).byKey.keys ↔ k = key rec ∨ k ∈ s.byKey.keys :=
  Table.mem_keys_assignIn (key rec) k rec s.byKey.entries

theorem pair_keys_upsert (s : InMemoryVectorStore) (records : List VectorRecord) :
    [x, y].Sublist (s.upsert records).2.byKey.keys ↔ [x, y].Sublist s.byKey.keys ∨
      y ∉ s.byKey.keys ∧ ∃ before after, records.map key = before ++ y :: after ∧ y ∉ before ∧
        (x ∈ s.byKey.keys ∨ x ∈ before) := by
  change [x, y].Sublist (records.foldl InMemoryVectorStore.upsertOne s).byKey.keys ↔ _
  induction records generalizing s with
  | nil =>
    refine ⟨.inl, fun hor => hor.resolve_right ?_⟩
    rintro ⟨_, before, after, heq, _⟩
    exact absurd heq.symm (List.append_ne_nil_of_right_ne_nil _ (List.cons_ne_nil _ _))
  | cons rec records ih =>
    rw [List.foldl_cons, ih, pair_keys_upsertOne]
    simp only [mem_keys_upsertOne, not_or]
    constructor
    · rintro ((hold | ⟨hnew, rfl, hx⟩) | ⟨⟨hne, hnew⟩, before, after, heq, hy, hx⟩)
      · exact .inl hold
      · exact .inr ⟨hnew, [], records.map key, rfl, List.not_mem_nil, .inl hx⟩
      · refine .inr ⟨hnew, key rec :: before, after, by rw [List.map_cons, heq]; rfl, ?_, ?_⟩
        · exact fun hmem => (List.mem_cons.mp hmem).elim hne hy
        · rcases hx with (rfl | hx) | hx
          · exact .inr List.mem_cons_self
          · exact .inl hx
          · exact .inr (List.mem_cons_of_mem _ hx)
    · rintro (hold | ⟨hnew, before, after, heq, hy, hx⟩)
      · exact .inl (.inl hold)
      · rcases before with _ | ⟨first, before⟩
        · obtain ⟨rfl, _⟩ := List.cons.inj heq
          exact .inl (.inr ⟨hnew, rfl, hx.resolve_right List.not_mem_nil⟩)
        · obtain ⟨rfl, hrest⟩ := List.cons.inj heq
          have hne : y ≠ key rec := fun hsame => hy (hsame ▸ List.mem_cons_self)
          have hy' : y ∉ before := fun hmem => hy (List.mem_cons_of_mem _ hmem)
          refine .inr ⟨⟨hne, hnew⟩, before, after, hrest, hy', ?_⟩
          rcases hx with hx | hx
          · exact .inl (.inr hx)
          · exact (List.mem_cons.mp hx).imp .inl (fun hx => hx)

theorem mem_keys_iff_kept (h : List StoreCall) (k : RecordId × ℤ) :
    k ∈ (runStore h).byKey.keys ↔ Kept k h :=
  (Table.lookupIn_isSome k (runStore h).byKey.entries).symm.trans ((follows_runStore h).kept k)

theorem keys_purgeDeleted (s : InMemoryVectorStore) :
    s.purgeDeleted.2.byKey.keys = s.byKey.keys.filter fun k => k.1 ∉ s.deleted := by
  unfold Table.keys
  rw [List.filter_map]
  refine congrArg (List.map Prod.fst) (List.filter_congr fun e he => ?_)
  have hkey : s.byKey.contains e.1 = true :=
    (Table.lookupIn_isSome _ _).mpr (List.mem_map_of_mem he)
  rw [Bool.eq_iff_iff, Bool.not_eq_true', decide_eq_false_iff_not, mem_purged_keys]
  simp [hkey]

theorem keys_order (h : List StoreCall) (x y : RecordId × ℤ) :
    [x, y].Sublist (runStore h).byKey.keys ↔ Ahead x y h := by
  induction h using List.reverseRecOn with
  | nil =>
    have hnone : ¬ [x, y].Sublist (runStore []).byKey.keys :=
      fun hpair => absurd (List.sublist_nil.mp hpair) (List.cons_ne_nil x [y])
    exact iff_of_false hnone (not_sinceAt_nil _ _)
  | append_singleton h c ih =>
    have hrun : runStore (h ++ [c]) = afterCall (runStore h) c := by simp [runStore]
    rw [hrun, ahead_concat]
    cases c with
    | upsert records =>
      have hno : ¬ (StoreCall.upsert records = .purgeDeleted ∧ (Removed x.1 h ∨ Removed y.1 h)) := by
        simp
      rw [afterCall, pair_keys_upsert, ih, and_iff_left hno, mem_keys_iff_kept, mem_keys_iff_kept,
        or_comm]
      rfl
    | remove ids =>
      have hno : ¬ (StoreCall.remove ids = .purgeDeleted ∧ (Removed x.1 h ∨ Removed y.1 h)) := by
        simp
      rw [or_iff_right (not_enters rfl), and_iff_left hno, ← ih]
      rfl
    | purgeDeleted =>
      rw [or_iff_right (not_enters rfl), afterCall, keys_purgeDeleted, pair_sublist_filter, ih]
      refine and_congr_right fun hahead => ?_
      have hpair := ih.mpr hahead
      have hx : Kept x h := (mem_keys_iff_kept h x).mp (hpair.subset (by simp))
      have hy : Kept y h := (mem_keys_iff_kept h y).mp (hpair.subset (by simp))
      have hs := follows_runStore h
      rw [decide_eq_true_iff, decide_eq_true_iff, hs.hidden x hx, hs.hidden y hy, and_iff_right rfl,
        not_or]

theorem Ahead.ne (hahead : Ahead x y h) : x ≠ y := by
  rintro rfl
  have hpair := (keys_order h x x).mpr hahead
  exact pair_sublist_asymm (runStore h).byKey.nodup_keys hpair hpair

theorem Ahead.asymm (hahead : Ahead x y h) : ¬ Ahead y x h := by
  rw [← keys_order] at hahead ⊢
  exact pair_sublist_asymm (runStore h).byKey.nodup_keys hahead

theorem ahead_or (hne : x ≠ y) (hx : Kept x h) (hy : Kept y h) : Ahead x y h ∨ Ahead y x h := by
  rw [← keys_order, ← keys_order]
  rw [← mem_keys_iff_kept] at hx hy
  exact pair_sublist_or hne hx hy

theorem PurgedOnce.concat (honce : PurgedOnce h h') (c : StoreCall) :
    PurgedOnce (h ++ [c]) (h' ++ [c]) := by
  obtain ⟨before, after, rfl, rfl⟩ := honce
  exact ⟨before, after ++ [c], List.append_assoc .., List.append_assoc ..⟩

theorem purgesInserted_refl (h : List StoreCall) : PurgesInserted h h := by
  induction h using List.reverseRecOn with
  | nil => exact .nil
  | append_singleton h c ih => exact .keep c ih

theorem PurgedOnce.inserted (honce : PurgedOnce h h') : PurgesInserted h h' := by
  obtain ⟨before, after, rfl, rfl⟩ := honce
  induction after using List.reverseRecOn with
  | nil =>
    rw [List.append_nil]
    exact .insert (purgesInserted_refl before)
  | append_singleton after c ih =>
    have hkept := PurgesInserted.keep c ih
    rwa [List.append_assoc, List.append_assoc] at hkept

theorem dropped_once (hins : PurgesInserted h h') (hkept : Kept y h) (hdropped : ¬ Kept y h') :
    ∃ h₁, PurgedOnce h h₁ ∧ PurgesInserted h₁ h' ∧ ¬ Kept y h₁ := by
  induction hins with
  | nil => exact absurd hkept hdropped
  | @keep h h' c hins ih =>
    have hremoved := (hins.statements y).2.1
    rw [kept_concat, not_or] at hdropped
    obtain ⟨hold, hpurge⟩ := ((kept_concat _ _ _).mp hkept).resolve_left hdropped.1
    rw [← hremoved] at hpurge
    obtain ⟨h₁, honce, hins₁, hnot⟩ := ih hold fun hk => hdropped.2 ⟨hk, hpurge⟩
    refine ⟨h₁ ++ [c], honce.concat c, .keep c hins₁, ?_⟩
    rw [kept_concat, not_or]
    exact ⟨hdropped.1, fun hk => hnot hk.1⟩
  | @insert h h' hins ih =>
    by_cases hk : Kept y h'
    · -- The last of the purges drops the pair.
      have hremoved := (hins.statements y).2.1
      have hwhile : Removed y.1 h' := by
        by_contra hnot
        exact hdropped ((kept_concat _ _ _).mpr (.inr ⟨hk, fun hboth => hnot hboth.2⟩))
      refine ⟨h ++ [.purgeDeleted], ⟨h, [], (List.append_nil h).symm, rfl⟩, .keep _ hins, ?_⟩
      rw [kept_concat, not_or]
      exact ⟨not_upserts_of_no_records rfl, fun hk => hk.2 ⟨rfl, hremoved.mp hwhile⟩⟩
    · obtain ⟨h₁, honce, hins₁, hnot⟩ := ih hkept hk
      exact ⟨h₁, honce, .insert hins₁, hnot⟩

theorem enters_once (hins : PurgesInserted h h') {c : StoreCall} (henters : Enters x y h' c) :
    Enters x y h c ∨ ∃ h₁, PurgedOnce h h₁ ∧ Enters x y h₁ c := by
  obtain ⟨hnew, before, after, heq, hy, hx⟩ := henters
  by_cases hkept : Kept y h
  · obtain ⟨h₁, honce, hins₁, hnot⟩ := dropped_once hins hkept hnew
    refine .inr ⟨h₁, honce, hnot, before, after, heq, hy, hx.imp_left fun hk => ?_⟩
    exact (hins₁.statements x).2.2.1 hk
  · refine .inl ⟨hkept, before, after, heq, hy, hx.imp_left fun hk => ?_⟩
    exact (hins.statements x).2.2.1 hk

theorem ahead_once (hins : PurgesInserted h h') (hahead : Ahead x y h') :
    Ahead x y h ∨ ∃ h₁, PurgedOnce h h₁ ∧ Ahead x y h₁ := by
  induction hins with
  | nil => exact absurd hahead (not_sinceAt_nil _ _)
  | @keep h h' c hins ih =>
    rcases (ahead_concat c).mp hahead with henters | ⟨hold, hundropped⟩
    · rcases enters_once hins henters with henters | ⟨h₁, honce, henters⟩
      · exact .inl ((ahead_concat c).mpr (.inl henters))
      · exact .inr ⟨h₁ ++ [c], honce.concat c, (ahead_concat c).mpr (.inl henters)⟩
    · rw [(hins.statements x).2.1, (hins.statements y).2.1] at hundropped
      rcases ih hold with hold | ⟨h₁, honce, hold⟩
      · exact .inl ((ahead_concat c).mpr (.inr ⟨hold, hundropped⟩))
      · refine .inr ⟨h₁ ++ [c], honce.concat c, (ahead_concat c).mpr (.inr ⟨hold, ?_⟩)⟩
        have hremoved := fun k => (honce.inserted.statements k).2.1
        rwa [hremoved x, hremoved y]
  | insert hins ih =>
    rcases (ahead_concat .purgeDeleted).mp hahead with henters | ⟨hold, _⟩
    · exact absurd henters (not_enters rfl)
    · exact ih hold

end Order
end StrataMemory.InsertionOrders
