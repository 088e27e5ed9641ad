import StrataMemory.Consolidation
import StrataMemory.CurrentTruth
import StrataMemory.FlowInvariants

set_option autoImplicit false

namespace StrataMemory.Consolidation
open KeyedTables Records Tables Procedures Worlds CommitEffects CanonicalStore ManagedSurfaces
open SurfaceRounds Resolver Engine MemoryEngine Gateway ReflectionEngine Clustering
open VerifiedDeletions FlowInvariants NodeRuns

/-- Offered alone and with nothing trimmed, the record is placed in current truth. -/
def InCurrentTruth (p : Platform) (policy : SensitivityPolicy) (db : Db) (now : Time)
    (id : RecordId) : Prop :=
  ∃ c, isCurrent c = true ∧ ∃ e ∈ (resolve p db [{ recordId := id }] now
    (some policy.canRecall) []).entries c, e.id = id

/-- What the resolver asks of a row before it is current truth. -/
structure Believed (policy : SensitivityPolicy) (db : Db) (now : Time) (r : MemoryRecord) :
    Prop where
  live : db.isTombstoned r.id = false
  window : timeValid r now = true
  permitted : policy.canRecall r = true
  plain : routedByKind r = false
  active : r.status.isActive = true
  corrected : ∀ other ∈ supersedersOf db r.id, isLiveRecord db other = false
  contradicted : ∀ other ∈ contradictorsOf db r.id, isLiveRecord db other = false

theorem isCurrent_categoryFor (r : MemoryRecord) : isCurrent (categoryFor r) = true := by
  unfold categoryFor
  split_ifs <;> rfl

theorem isSupersededByActive_eq_false {db : Db} {id : RecordId} :
    isSupersededByActive db id = false ↔
      ∀ other ∈ supersedersOf db id, isLiveRecord db other = false := by
  unfold isSupersededByActive
  rw [List.any_eq_false]
  simp only [Bool.not_eq_true]

theorem activeContradictors_eq_nil {db : Db} {id : RecordId} : activeContradictors db id = [] ↔
    ∀ other ∈ contradictorsOf db id, isLiveRecord db other = false := by
  unfold activeContradictors
  rw [List.filter_eq_nil_iff]
  simp only [Bool.not_eq_true]

/-- A row that is not routed by what it is has an entry of current truth just when it is live
and no live record contests it. -/
theorem route_current {db : Db} {item : MemoryRecord × Resolver.Merged} :
    (∃ e, route db item = some e ∧ isCurrent e.category = true) ↔
      routedByKind item.1 = false ∧ item.1.status.isActive = true ∧
        isSupersededByActive db item.1.id = false ∧ activeContradictors db item.1.id = [] := by
  constructor
  · rintro ⟨e, hroute, hcurrent⟩
    have hplain : routedByKind item.1 = false := by
      by_contra hkind
      rw [Bool.not_eq_false] at hkind
      unfold route at hroute
      unfold routedByKind at hkind
      simp only [Bool.or_eq_true, decide_eq_true_eq] at hkind
      dsimp only at hroute
      split at hroute
      · cases hroute
        cases hcurrent
      · rename_i hreflection
        rw [if_pos (by tauto)] at hroute
        cases hroute
        cases hcurrent
    rcases route_cases hroute with ⟨hkind, _⟩ | ⟨hactive, hsup, ⟨_, rfl⟩ | ⟨hcon, _⟩⟩
    · rw [hplain] at hkind
      cases hkind
    · cases hcurrent
    · exact ⟨hplain, hactive, hsup, hcon⟩
  · rintro ⟨hplain, hactive, hsup, hcon⟩
    unfold routedByKind at hplain
    simp only [Bool.or_eq_false_iff, decide_eq_false_iff_not] at hplain
    refine ⟨entry db item (categoryFor item.1), ?_, isCurrent_categoryFor _⟩
    unfold route
    simp [hplain, hactive, hsup, hcon]

theorem inCurrentTruth_iff {p : Platform} {policy : SensitivityPolicy} {db : Db} {now : Time}
    {id : RecordId} : InCurrentTruth p policy db now id ↔
      ∃ r, db.readOne id = some r ∧ Believed policy db now r := by
  let m : Resolver.Merged := ⟨id, 0, ["structured"], [], 1⟩
  have hmerge : (merge [{ recordId := id }]).entries = [(id, m)] := rfl
  have hentries : ∀ c, (resolve p db [{ recordId := id }] now (some policy.canRecall)
      []).entries c = _ := entries_buildBundle p db _ false (17 / 20) []
  constructor
  · rintro ⟨c, hc, e, he, hid⟩
    rw [hentries] at he
    obtain ⟨hrouted, hcategory⟩ := List.mem_filter.mp he
    obtain ⟨item, hitem, hroute⟩ := List.mem_filterMap.mp hrouted
    have hsurvivor := (mem_sortByDesc _ _ _).mp hitem
    obtain ⟨hrow, _, hlive, _, hwindow, hpermitted⟩ := surfaceable_of_survivor hsurvivor
    obtain ⟨hplain, hactive, hsup, hcon⟩ := route_current.mp
      ⟨e, hroute, by rw [of_decide_eq_true hcategory]; exact hc⟩
    have hsame : item.1.id = id := (route_id hroute).symm.trans hid
    exact ⟨item.1, hsame ▸ hrow, hlive, hwindow, hpermitted _ rfl, hplain, hactive,
      isSupersededByActive_eq_false.mp hsup, activeContradictors_eq_nil.mp hcon⟩
  · rintro ⟨r, hrow, h⟩
    have hid := Db.readOne_id hrow
    subst hid
    obtain ⟨e, hroute, hcurrent⟩ : ∃ e, route db (r, m) = some e ∧ isCurrent e.category = true :=
      route_current.mpr ⟨h.plain, h.active, isSupersededByActive_eq_false.mpr h.corrected,
        activeContradictors_eq_nil.mpr h.contradicted⟩
    have hhydrate : hydrate db now (some policy.canRecall) (r.id, m) = some (r, m) := by
      unfold hydrate
      simp only [hrow, h.live, h.window, h.permitted, Option.any_some]
      rfl
    refine ⟨e.category, hcurrent, e, ?_, route_id hroute⟩
    rw [hentries]
    refine List.mem_filter.mpr ⟨List.mem_filterMap.mpr ⟨(r, m), ?_, hroute⟩, decide_eq_true rfl⟩
    refine (mem_sortByDesc _ _ _).mpr (List.mem_filterMap.mpr ⟨(r.id, m), ?_, hhydrate⟩)
    rw [hmerge]
    exact List.mem_singleton_self _

/-- Each edge that `db` did not have is to a record that has been superseded. -/
def OnlySupersedes (db : Db) (t : World Memory) : Prop :=
  ∀ d ∈ t.db.canonical.dependencies, d ∈ db.canonical.dependencies ∨
    d.rel = .supersedes ∧ ∃ r, t.db.readOne d.childId = some r ∧ r.status = .superseded

section Edges
variable {db : Db} {w t : World Memory}

theorem OnlySupersedes.of_authority (h : OnlySupersedes db w) (hsame : authority t = authority w) :
    OnlySupersedes db t := by
  intro d hd
  rw [readOne_of_authority hsame]
  exact h d (dependencies_of_authority hsame ▸ hd)

theorem OnlySupersedes.setStatus (h : OnlySupersedes db w) (id : RecordId) :
    OnlySupersedes db (apply (.setStatus id .superseded) w) := by
  intro d hd
  refine (h d hd).imp_right fun ⟨hrel, r, hrow, hstatus⟩ => ⟨hrel, ?_⟩
  rw [readOne_setStatus]
  by_cases hid : d.childId = id
  · subst hid
    rw [Function.update_self, hrow]
    exact ⟨_, rfl, rfl⟩
  · rw [Function.update_of_ne hid]
    exact ⟨r, hrow, hstatus⟩

theorem OnlySupersedes.addDependency (h : OnlySupersedes db w) (primaryId id : RecordId) :
    OnlySupersedes db
      (apply (.addDependency primaryId id .supersedes) (apply (.setStatus id .superseded) w)) := by
  have hset := h.setStatus id
  intro d hd
  rw [readOne_addDependency]
  rcases mem_addDependency_iff.mp hd with hd | ⟨hallowed, rfl⟩
  · exact hset d hd
  · obtain ⟨r, hrow⟩ := Option.isSome_iff_exists.mp (Bool.and_eq_true_iff.mp hallowed).2
    have hread : (apply (.setStatus id .superseded) w).db.readOne id = some r := hrow
    refine .inr ⟨rfl, r, hread, ?_⟩
    rw [readOne_setStatus, Function.update_self] at hread
    obtain ⟨_, _, rfl⟩ := Option.map_eq_some_iff.mp hread
    rfl

theorem onlySupersedes_supersedeDuplicates (primaryId : RecordId) (ids : List RecordId) :
    (supersedeDuplicates primaryId ids).Preserves (OnlySupersedes db) := by
  induction ids with
  | nil => exact Proc.Preserves.pure _
  | cons d rest ih =>
    intro w hw
    unfold Proc.final
    rw [supersedeDuplicates_cons]
    split
    · exact ih w hw
    · have hset : (CanonicalStore.setStatus d .superseded : Prog Memory Unit).run w =
          (.ok (), apply (.setStatus d .superseded) w) := rfl
      change OnlySupersedes db (Proc.final _ w)
      rw [Proc.final_bind_ok hset]
      have hedge := hw.addDependency primaryId d
      have hrun := addDependency_run primaryId d .supersedes (apply (.setStatus d .superseded) w)
      split at hrun
      · rw [Proc.final_bind_ok hrun]
        exact (ih.bind fun _ => Proc.Preserves.pure _) _ hedge
      · unfold Proc.final
        rw [Proc.run_bind, hrun]
        exact hedge

theorem merging_onlySupersedes (s : Strata) : MergingInvariant s (OnlySupersedes db) where
  draw _ hw := hw
  propose _ _ hw := hw
  merge primaryId ids := by
    refine (onlySupersedes_supersedeDuplicates primaryId ids).bind fun removed => ?_
    split
    · refine Proc.Preserves.bind (fun w hw => ?_) fun _ => Proc.Preserves.pure _
      exact hw.of_authority (authority_purge (engine_lawful s.engine) removed.dedup w)
    · exact Proc.Preserves.pure _

theorem onlySupersedes_consolidate (r : ReflectionEngine) (w : World Memory) :
    OnlySupersedes w.db (r.consolidate.final w) :=
  (merging_onlySupersedes ⟨r.engine, r.autoAcceptThreshold⟩).consolidate w fun _ hd => .inl hd

theorem supersedersOf_live (hold : w.db.canonical.dependencies ⊆ t.db.canonical.dependencies)
    (hnew : OnlySupersedes w.db t) {id : RecordId} (hlive : isLiveRecord t.db id = true)
    {other : RecordId} : other ∈ supersedersOf t.db id ↔ other ∈ supersedersOf w.db id := by
  unfold supersedersOf
  simp only [List.mem_map, List.mem_filter, Bool.and_eq_true, decide_eq_true_eq]
  constructor
  · rintro ⟨d, ⟨hd, hchild, hrel⟩, hparent⟩
    rcases hnew d hd with hd | ⟨_, r, hrow, hstatus⟩
    · exact ⟨d, ⟨hd, hchild, hrel⟩, hparent⟩
    · obtain ⟨r', hrow', hactive, _⟩ := isLiveRecord_iff.mp hlive
      rw [hchild, hrow'] at hrow
      cases hrow
      rw [hstatus] at hactive
      cases hactive
  · rintro ⟨d, ⟨hd, hchild, hrel⟩, hparent⟩
    exact ⟨d, ⟨hold hd, hchild, hrel⟩, hparent⟩

theorem contradictorsOf_merged (hold : w.db.canonical.dependencies ⊆ t.db.canonical.dependencies)
    (hnew : OnlySupersedes w.db t) {id other : RecordId} :
    other ∈ contradictorsOf t.db id ↔ other ∈ contradictorsOf w.db id := by
  rw [mem_contradictorsOf, mem_contradictorsOf]
  constructor
  · rintro ⟨d, hd, hrel, hends⟩
    rcases hnew d hd with hd | ⟨hsupersedes, _⟩
    · exact ⟨d, hd, hrel, hends⟩
    · rw [hrel] at hsupersedes
      cases hsupersedes
  · rintro ⟨d, hd, hrel, hends⟩
    exact ⟨d, hold hd, hrel, hends⟩

end Edges

/-- The consolidation of `db` merges the record into `kept`. -/
def MergedInto (r : ReflectionEngine) (db : Db) (kept : MemoryRecord) (id : RecordId) : Prop :=
  ∃ c, AutoMerged r db c kept ∧ id ∈ c.recordIds ∧ id ≠ kept.id

/-- Each L1 fact of current truth is still there, or the primary that superseded it is. -/
def KeepsCurrentTruth (r : ReflectionEngine) (w t : World Memory) (now : Time) : Prop :=
  ∀ a : MemoryRecord, w.db.readOne a.id = some a → a.tier = .l1 → a.recordType = .fact →
    InCurrentTruth r.engine.platform r.engine.policy w.db now a.id →
    InCurrentTruth r.engine.platform r.engine.policy t.db now a.id ∨
      ∃ kept, MergedInto r w.db kept a.id ∧
        (⟨kept.id, a.id, .supersedes⟩ : Dependency) ∈ t.db.canonical.dependencies ∧
        InCurrentTruth r.engine.platform r.engine.policy t.db now kept.id

/-- A primary that replaces a fact of current truth is within its window, and the live records
that contest it are themselves merged away. -/
def PrimariesRecallable (r : ReflectionEngine) (db : Db) (now : Time) : Prop :=
  ∀ kept id, MergedInto r db kept id →
    InCurrentTruth r.engine.platform r.engine.policy db now id →
    timeValid kept now = true ∧
      ∀ other, other ∈ supersedersOf db kept.id ∨ other ∈ contradictorsOf db kept.id →
        isLiveRecord db other = true → ∃ kept', MergedInto r db kept' other

section Recallable
variable {r : ReflectionEngine} {w t : World Memory} {now : Time}

theorem mergedInto_iff {db : Db} {kept : MemoryRecord} {id : RecordId} : MergedInto r db kept id ↔
    ∃ g ∈ groups r db, Accepted r g ∧ kept = primary g ∧ id ∈ duplicates g := by
  unfold MergedInto
  constructor
  · rintro ⟨c, hc, hid, hne⟩
    obtain ⟨g, hg, haccept, rfl, rfl⟩ := autoMerged_iff.mp hc
    obtain ⟨a, ha, rfl⟩ := List.mem_map.mp hid
    exact ⟨g, hg, haccept, rfl, mem_duplicates.mpr ⟨hne, a, ha, rfl⟩⟩
  · rintro ⟨g, hg, haccept, rfl, hid⟩
    obtain ⟨hne, a, ha, rfl⟩ := mem_duplicates.mp hid
    exact ⟨clusterOf g, autoMerged_iff.mpr ⟨g, hg, haccept, rfl, rfl⟩, List.mem_map_of_mem ha, hne⟩

theorem mem_superseded_iff {db : Db} {id : RecordId} :
    id ∈ (allPairs r db).map Prod.snd ↔ ∃ kept, MergedInto r db kept id := by
  rw [mem_superseded]
  simp only [mergedInto_iff]
  constructor
  · rintro ⟨g, hg, haccept, hid⟩
    exact ⟨primary g, g, hg, haccept, rfl, hid⟩
  · rintro ⟨_, g, hg, haccept, _, hid⟩
    exact ⟨g, hg, haccept, hid⟩

theorem MergedInto.unique {db : Db} {kept kept' : MemoryRecord} {id : RecordId}
    (h : MergedInto r db kept id) (h' : MergedInto r db kept' id) : kept = kept' := by
  obtain ⟨g, hg, _, rfl, hid⟩ := mergedInto_iff.mp h
  obtain ⟨g', hg', _, rfl, hid'⟩ := mergedInto_iff.mp h'
  obtain ⟨_, a, ha, rfl⟩ := mem_duplicates.mp hid
  obtain ⟨_, b, hb, hba⟩ := mem_duplicates.mp hid'
  have hsame := reflectable_eq (mem_of_groups hg' hb) (mem_of_groups hg ha) hba
  rw [groups_same hg hg' ha hb (congrArg MemoryRecord.content hsame).symm]

/-- A record that is not merged away is current truth afterwards just when its row lets it be
and every live record that contests it is merged away. -/
theorem believed_kept (h : Merged (allPairs r w.db) w t) (hnew : OnlySupersedes w.db t)
    {policy : SensitivityPolicy} {a : MemoryRecord} (hrow : w.db.readOne a.id = some a)
    (hkept : a.id ∉ (allPairs r w.db).map Prod.snd) :
    InCurrentTruth r.engine.platform policy t.db now a.id ↔
      w.db.isTombstoned a.id = false ∧ timeValid a now = true ∧ policy.canRecall a = true ∧
        routedByKind a = false ∧ a.status.isActive = true ∧
        ∀ other, other ∈ supersedersOf w.db a.id ∨ other ∈ contradictorsOf w.db a.id →
          isLiveRecord w.db other = true → ∃ kept, MergedInto r w.db kept other := by
  have hrow' : t.db.readOne a.id = some a := (h.others a.id hkept).trans hrow
  have hdead : ∀ other, isLiveRecord t.db other = false ↔
      (isLiveRecord w.db other = true → ∃ kept, MergedInto r w.db kept other) := fun other => by
    rw [← Bool.not_eq_true, h.live, mem_superseded_iff]
    tauto
  rw [inCurrentTruth_iff]
  constructor
  · rintro ⟨a', hread, hbelieved⟩
    cases Option.some.inj (hrow'.symm.trans hread)
    have hlive : isLiveRecord t.db a.id = true :=
      isLiveRecord_iff.mpr ⟨a, hrow', hbelieved.active, hbelieved.live⟩
    refine ⟨h.isTombstoned a.id ▸ hbelieved.live, hbelieved.window, hbelieved.permitted,
      hbelieved.plain, hbelieved.active, fun other hother => (hdead other).mp ?_⟩
    rcases hother with hother | hother
    · exact hbelieved.corrected other ((supersedersOf_live h.older hnew hlive).mpr hother)
    · exact hbelieved.contradicted other ((contradictorsOf_merged h.older hnew).mpr hother)
  · rintro ⟨htomb, hwindow, hpermitted, hplain, hactive, hothers⟩
    rw [← h.isTombstoned] at htomb
    have hlive : isLiveRecord t.db a.id = true :=
      isLiveRecord_iff.mpr ⟨a, hrow', hactive, htomb⟩
    refine ⟨a, hrow', htomb, hwindow, hpermitted, hplain, hactive, fun other hother => ?_,
      fun other hother => ?_⟩
    · have hbefore := (supersedersOf_live h.older hnew hlive).mp hother
      exact (hdead other).mpr (hothers other (.inl hbefore))
    · have hbefore := (contradictorsOf_merged h.older hnew).mp hother
      exact (hdead other).mpr (hothers other (.inr hbefore))

theorem stays_current (h : Merged (allPairs r w.db) w t) (hnew : OnlySupersedes w.db t)
    {policy : SensitivityPolicy} {a : MemoryRecord} (hrow : w.db.readOne a.id = some a)
    (hkept : a.id ∉ (allPairs r w.db).map Prod.snd)
    (hcurrent : InCurrentTruth r.engine.platform policy w.db now a.id) :
    InCurrentTruth r.engine.platform policy t.db now a.id := by
  obtain ⟨a', hread, hb⟩ := inCurrentTruth_iff.mp hcurrent
  cases Option.some.inj (hrow.symm.trans hread)
  refine (believed_kept h hnew hrow hkept).mpr
    ⟨hb.live, hb.window, hb.permitted, hb.plain, hb.active, fun other hother hlive => ?_⟩
  rcases hother with hother | hother
  · rw [hb.corrected other hother] at hlive
    cases hlive
  · rw [hb.contradicted other hother] at hlive
    cases hlive

theorem not_current_of_superseded (h : Merged (allPairs r w.db) w t) {policy : SensitivityPolicy}
    {id : RecordId} (hid : id ∈ (allPairs r w.db).map Prod.snd) :
    ¬ InCurrentTruth r.engine.platform policy t.db now id := by
  intro hcurrent
  obtain ⟨a, hread, hb⟩ := inCurrentTruth_iff.mp hcurrent
  have hid' := Db.readOne_id hread
  have hlive : isLiveRecord t.db id = true :=
    isLiveRecord_iff.mpr ⟨a, hread, hb.active, hid' ▸ hb.live⟩
  exact ((h.live id).mp hlive).2 hid

theorem keepsCurrentTruth_iff (hpolicy : r.engine.policy = {}) (h : Merged (allPairs r w.db) w t)
    (hnew : OnlySupersedes w.db t) :
    KeepsCurrentTruth r w t now ↔ PrimariesRecallable r w.db now := by
  have hprimary : ∀ kept id, MergedInto r w.db kept id → kept ∈ reflectableL1Facts r w.db ∧
      kept.id ∉ (allPairs r w.db).map Prod.snd := by
    intro kept id hmerged
    obtain ⟨g, hg, _, rfl, _⟩ := mergedInto_iff.mp hmerged
    refine ⟨mem_of_groups hg (primary_mem g), fun hout => ?_⟩
    exact ((superseded_iff hg (primary_mem g)).mp hout).2 rfl
  constructor
  · intro hkeeps kept id hmerged hcurrent
    obtain ⟨hreflectable, hkept⟩ := hprimary kept id hmerged
    obtain ⟨g, hg, _, _, hid⟩ := mergedInto_iff.mp hmerged
    obtain ⟨_, a, ha, rfl⟩ := mem_duplicates.mp hid
    obtain ⟨hrow, htier, htype, _⟩ := mem_reflectable.mp (mem_of_groups hg ha)
    have hgone := mem_superseded_iff.mpr ⟨kept, hmerged⟩
    rcases hkeeps a hrow htier htype hcurrent with hstays | ⟨kept', hmerged', _, hprimary⟩
    · exact absurd hstays (not_current_of_superseded h hgone)
    · cases hmerged.unique hmerged'
      obtain ⟨_, hwindow, _, _, _, hothers⟩ :=
        (believed_kept h hnew (mem_reflectable.mp hreflectable).1 hkept).mp hprimary
      exact ⟨hwindow, hothers⟩
  · intro hprimaries a hrow htier htype hcurrent
    by_cases hgone : a.id ∈ (allPairs r w.db).map Prod.snd
    · obtain ⟨kept, hmerged⟩ := mem_superseded_iff.mp hgone
      obtain ⟨hwindow, hothers⟩ := hprimaries kept a.id hmerged hcurrent
      obtain ⟨hreflectable, hkept⟩ := hprimary kept a.id hmerged
      obtain ⟨hread, hl1, hfact, hactive, hlive, hreflects⟩ := mem_reflectable.mp hreflectable
      obtain ⟨g, hg, haccept, rfl, hid⟩ := mergedInto_iff.mp hmerged
      refine .inr ⟨primary g, hmerged, ?_, ?_⟩
      · exact h.edges ((primary g).id, a.id) (mem_allPairs.mpr ⟨g, hg, haccept, rfl, hid⟩)
      · -- The default policy recalls whatever reflection may use.
        have hpermitted : r.engine.policy.canRecall (primary g) = true := by
          rw [hpolicy] at hreflects ⊢
          exact hreflects
        have hplain : routedByKind (primary g) = false := by simp [routedByKind, hl1, hfact]
        exact (believed_kept h hnew hread hkept).mpr
          ⟨hlive, hwindow, hpermitted, hplain, hactive, hothers⟩
    · exact .inl (stays_current h hnew hrow hgone hcurrent)

/-- A consolidation keeps each L1 fact of current truth, or the primary that it is merged into,
just when those primaries are within their windows and contested by no live record that the
consolidation leaves live. -/
theorem consolidate_keeps_current_truth_iff (r : ReflectionEngine)
    (hpolicy : r.engine.policy = {}) (w : World Memory) (now : Time) :
    ∃ ids t, r.consolidate.run w = (.ok ids, t) ∧
      (KeepsCurrentTruth r w t now ↔ PrimariesRecallable r w.db now) := by
  obtain ⟨ids, t, hrun, hmerged⟩ := consolidate_run r w
  have hnew := onlySupersedes_consolidate r w
  rw [Proc.final_of_run hrun] at hnew
  exact ⟨ids, t, hrun, keepsCurrentTruth_iff hpolicy hmerged hnew⟩

theorem consolidate_keeps_current_truth_written :
    let w := runCalls plainStrata plainWorld
      [.writeMemory "tea" {}, .writeMemory "tea" {}, .writeMemory "milk" {}]
    ∃ ids t, plainStrata.reflection.consolidate.run w = (.ok ids, t) ∧
      (KeepsCurrentTruth plainStrata.reflection w t 0 ↔
        PrimariesRecallable plainStrata.reflection w.db 0) :=
  consolidate_keeps_current_truth_iff plainStrata.reflection rfl _ 0

/-- A salient memory that has expired replaces the valid one of the same text. -/
theorem expired_primary_hides_duplicate :
    let w := runCalls plainStrata plainWorld
      [.writeMemory "tea" { salience := some 1, validUntil := some 5 }, .writeMemory "tea" {}]
    ∃ ids t, plainStrata.reflection.consolidate.run w = (.ok ids, t) ∧
      ¬ KeepsCurrentTruth plainStrata.reflection w t 10 := by
  intro w
  obtain ⟨ids, t, hrun, hmerged⟩ := consolidate_run plainStrata.reflection w
  refine ⟨ids, t, hrun, fun hkeeps => ?_⟩
  have hnew := onlySupersedes_consolidate plainStrata.reflection w
  rw [Proc.final_of_run hrun] at hnew
  have hprimaries := (keepsCurrentTruth_iff rfl hmerged hnew).mp hkeeps
  let c : Cluster := ⟨[2, 1], "tea"⟩
  let rows := members (reflectableL1Facts plainStrata.reflection w.db) c
  have hcluster : c ∈ reviewWorthy (clusterL1 plainPlatform
      (reflectableL1Facts plainStrata.reflection w.db)) := by decide +kernel
  have hchosen : rows.head?.any (fun first =>
      (choosePrimary first rows.tail).id = 1 ∧ timeValid (choosePrimary first rows.tail) 10 = false ∧
        9 / 10 ≤ (mergeProposal c first rows.tail 0).confidence) = true := by decide +kernel
  have hcurrent : ((resolve plainPlatform w.db [{ recordId := 2 }] 10
      (some plainStrata.reflection.engine.policy.canRecall) []).entries .currentBelief).any
        (·.id = 2) = true := by decide +kernel
  obtain ⟨e, he, hid⟩ := List.any_eq_true.mp hcurrent
  obtain ⟨first, hfirst, hprimary⟩ := (Option.any_eq_true _ _).mp hchosen
  obtain ⟨hone, hexpired, haccept⟩ := of_decide_eq_true hprimary
  have hauto : AutoMerged plainStrata.reflection w.db c (choosePrimary first rows.tail) :=
    ⟨hcluster, first, rows.tail, 0, List.eq_cons_of_mem_head? hfirst, rfl, haccept⟩
  have hmerged2 : MergedInto plainStrata.reflection w.db (choosePrimary first rows.tail) 2 :=
    ⟨c, hauto, by decide, by rw [hone]; decide⟩
  have hwindow := (hprimaries _ 2 hmerged2 ⟨.currentBelief, rfl, e, he, of_decide_eq_true hid⟩).1
  rw [hexpired] at hwindow
  cases hwindow

end Recallable

end StrataMemory.Consolidation
