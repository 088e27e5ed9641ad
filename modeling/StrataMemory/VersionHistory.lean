import StrataMemory.CrashedCalls

set_option autoImplicit false

namespace StrataMemory.VersionHistory
open KeyedTables Records Tables Procedures Worlds CommitEffects CanonicalStore CrashedCalls NodeRuns

variable {V : Type}

inductive CanonicalCall where
  | write (record : MemoryRecord)
  | supersede (oldId : RecordId) (record : MemoryRecord)
  | setStatus (id : RecordId) (status : Status)
  | tombstone (id : RecordId) (mode : DeletionMode) (jobId : OpId) (state : DeletionState)
  | hardDelete (id : RecordId)

def execute : CanonicalCall → Prog V Unit
  | .write record => discard (CanonicalStore.write record)
  | .supersede oldId record => discard (CanonicalStore.supersede oldId record)
  | .setStatus id status => CanonicalStore.setStatus id status
  | .tombstone id mode jobId state => commit (.tombstone id mode jobId state)
  | .hardDelete id => commit (.hardDelete id)

def afterCall (w : World V) (c : CanonicalCall) : World V := (execute c).final w

def runStore (w : World V) (calls : List CanonicalCall) : World V := calls.foldl afterCall w

abbrev Text := String × String

def Version.text (v : Version) : Text := (v.content, v.contentHash)

def headText (r : MemoryRecord) : Text := (r.content, r.contentHash)

def write (written : RecordId → List Text) (r : MemoryRecord) : RecordId → List Text :=
  Function.update written r.id (written r.id ++ [headText r])

/-- What has been written to each id since it was last erased. -/
def enter (written : RecordId → List Text) : CanonicalCall → RecordId → List Text
  | .write record | .supersede _ record => write written record
  | .hardDelete id => Function.update written id []
  | .setStatus .. | .tombstone .. => written

def written (calls : List CanonicalCall) : RecordId → List Text := calls.foldl enter fun _ => []

def versionsOf (c : Canonical) (id : RecordId) : List Version :=
  sortBy Version.versionId (c.versions.filter fun v => v.recordId = id)

structure Heads (versions : List Version) (row : MemoryRecord) (last : Version) : Prop where
  newest : versions.getLast? = some last
  largest : ∀ v ∈ versions, v.versionId ≤ last.versionId
  pointer : row.currentVersionId = some last.versionId
  text : Version.text last = headText row

/-- The versions stand in the order of their ids, and are those of the texts. -/
structure Chronicled (texts : RecordId → List Text) (w : World V) : Prop where
  increasing : w.db.canonical.versions.Pairwise fun v u => v.versionId < u.versionId
  recorded : ∀ id, (w.db.canonical.versions.filter fun v => v.recordId = id).map Version.text =
    texts id
  head : ∀ id row, w.db.readOne id = some row → ∃ last,
    (w.db.canonical.versions.filter fun v => v.recordId = id).getLast? = some last ∧
      row.currentVersionId = some last.versionId ∧ Version.text last = headText row

theorem lt_nextVersionId {c : Canonical} {v : Version} (hv : v ∈ c.versions) :
    v.versionId < c.nextVersionId := by
  have hle : ∀ (ids : List ℤ) (start : ℤ), start ≤ ids.foldl max start ∧
      ∀ id ∈ ids, id ≤ ids.foldl max start := by
    intro ids
    induction ids with
    | nil => exact fun start => ⟨le_refl _, fun _ h => absurd h List.not_mem_nil⟩
    | cons id ids ih =>
      intro start
      obtain ⟨hstart, hrest⟩ := ih (max start id)
      refine ⟨(le_max_left _ _).trans hstart, fun other hother => ?_⟩
      rcases List.mem_cons.mp hother with rfl | hother
      · exact (le_max_right _ _).trans hstart
      · exact hrest other hother
  exact Int.lt_add_one_of_le ((hle _ 0).2 _ (List.mem_map_of_mem hv))

section Steps
variable {texts : RecordId → List Text} {w : World V}

theorem Chronicled.write (h : Chronicled texts w) (r : MemoryRecord) :
    Chronicled (write texts r) (apply (.write r) w) := by
  have hversions := versions_write r w
  have hother : ∀ {id}, id ≠ r.id →
      ((apply (.write r) w).db.canonical.versions.filter fun v => v.recordId = id) =
        w.db.canonical.versions.filter fun v => v.recordId = id := by
    intro id hne
    rw [hversions, List.filter_append, List.filter_cons_of_neg (by simpa using Ne.symm hne),
      List.filter_nil, List.append_nil]
  have hself : ((apply (.write r) w).db.canonical.versions.filter fun v => v.recordId = r.id) =
      (w.db.canonical.versions.filter fun v => v.recordId = r.id) ++
        [⟨w.db.canonical.nextVersionId, r.id, r.content, r.contentHash, r.status, w.now⟩] := by
    rw [hversions, List.filter_append]
    exact congrArg (_ ++ ·) (List.filter_cons_of_pos (by simp))
  constructor
  · rw [hversions, List.pairwise_append]
    refine ⟨h.increasing, List.pairwise_singleton _ _, fun v hv u hu => ?_⟩
    cases List.mem_singleton.mp hu
    exact lt_nextVersionId hv
  · intro id
    by_cases hid : id = r.id
    · subst hid
      rw [hself, List.map_append, h.recorded, VersionHistory.write, Function.update_self]
      rfl
    · rw [hother hid, h.recorded, VersionHistory.write, Function.update_of_ne hid]
  · intro id row hrow
    by_cases hid : id = r.id
    · subst hid
      obtain ⟨_, htext, hsame⟩ := readOne_write_text w r
      cases hrow.symm.trans htext
      rw [readOne_write_synced] at hrow
      cases hrow
      refine ⟨⟨w.db.canonical.nextVersionId, r.id, r.content, r.contentHash, r.status, w.now⟩,
        ?_, Canonical.syncCurrentVersion_pointer _ _ _, hsame.symm⟩
      rw [hself, List.getLast?_concat]
    · rw [readOne_write_of_ne (Ne.symm hid)] at hrow
      rw [hother hid]
      exact h.head id row hrow

theorem Chronicled.same {t : World V} (h : Chronicled texts w)
    (hversions : t.db.canonical.versions = w.db.canonical.versions)
    (hrows : ∀ id row, t.db.readOne id = some row → ∃ old, w.db.readOne id = some old ∧
      old.currentVersionId = row.currentVersionId ∧ headText old = headText row) :
    Chronicled texts t := by
  refine ⟨hversions ▸ h.increasing, fun id => hversions ▸ h.recorded id, fun id row hrow => ?_⟩
  obtain ⟨old, hold, hpointer, htext⟩ := hrows id row hrow
  obtain ⟨last, hlast, hcurrent, hsame⟩ := h.head id old hold
  exact ⟨last, hversions ▸ hlast, hpointer ▸ hcurrent, hsame.trans htext⟩

theorem Chronicled.setStatus (h : Chronicled texts w) (id : RecordId) (status : Status) :
    Chronicled texts (apply (.setStatus id status) w) := by
  refine h.same rfl fun other row hrow => ?_
  rw [readOne_setStatus] at hrow
  by_cases hid : other = id
  · subst hid
    rw [Function.update_self] at hrow
    obtain ⟨old, hold, rfl⟩ := Option.map_eq_some_iff.mp hrow
    exact ⟨old, hold, rfl, rfl⟩
  · rw [Function.update_of_ne hid] at hrow
    exact ⟨row, hrow, rfl, rfl⟩

theorem Chronicled.addDependency (h : Chronicled texts w) (parentId childId : RecordId)
    (rel : Relation) : Chronicled texts (apply (.addDependency parentId childId rel) w) := by
  refine h.same ?_ fun id row hrow => ?_
  · change (w.db.canonical.addDependency parentId childId rel).versions = _
    unfold Canonical.addDependency
    split
    · split <;> rfl
    · rfl
  · rw [readOne_addDependency] at hrow
    exact ⟨row, hrow, rfl, rfl⟩

theorem Chronicled.hardDelete (h : Chronicled texts w) (id : RecordId) :
    Chronicled (Function.update texts id []) (apply (.hardDelete id) w) := by
  have hversions : (apply (.hardDelete id) w).db.canonical.versions =
      w.db.canonical.versions.filter fun v => v.recordId ≠ id := rfl
  have hother : ∀ {other}, other ≠ id →
      ((apply (.hardDelete id) w).db.canonical.versions.filter fun v => v.recordId = other) =
        w.db.canonical.versions.filter fun v => v.recordId = other := by
    intro other hne
    rw [hversions, List.filter_filter]
    refine List.filter_congr fun v _ => ?_
    by_cases hv : v.recordId = other
    · simp [hv, hne]
    · simp [hv]
  refine ⟨hversions ▸ h.increasing.filter _, fun other => ?_, fun other row hrow => ?_⟩
  · by_cases hid : other = id
    · subst hid
      have hnone : ((apply (.hardDelete other) w).db.canonical.versions.filter
          fun v => v.recordId = other) = [] := by
        rw [hversions, List.filter_filter]
        exact List.filter_eq_nil_iff.mpr fun v _ => by simp
      rw [hnone, Function.update_self]
      rfl
    · rw [hother hid, h.recorded, Function.update_of_ne hid]
  · have hread : (apply (.hardDelete id) w).db.readOne other =
        if other = id then none else w.db.readOne other := Table.get?_erase ..
    rw [hread] at hrow
    split at hrow
    · cases hrow
    · rename_i hne
      rw [hother hne]
      exact h.head other row hrow

/-- One call of the store. -/
theorem chronicled_afterCall (h : Chronicled texts w) (c : CanonicalCall) :
    Chronicled (enter texts c) (afterCall w c) := by
  cases c with
  | write record => exact h.write record
  | supersede oldId record =>
    have hfinal : afterCall w (.supersede oldId record) =
        apply (.addDependency record.id oldId .supersedes)
          (apply (.setStatus oldId .superseded) (apply (.write record) w)) := by
      obtain ⟨written, hwrite, _, hid⟩ := write_run record w
      let v := apply (.setStatus oldId .superseded) (apply (.write record) w)
      have hedge := addDependency_run (V := V) written.id oldId .supersedes v
      refine (Proc.final_discard _ w).trans ((Proc.final_bind_ok hwrite).trans ?_)
      refine (Proc.final_bind_ok (run_commit _ _)).trans ?_
      refine (Proc.final_bind_pure _ (fun _ => written) v).trans ?_
      rw [Proc.final_of_run hedge, hid]
    rw [hfinal]
    exact ((h.write record).setStatus oldId .superseded).addDependency _ _ _
  | setStatus id status => exact h.setStatus id status
  | tombstone id mode jobId state =>
    exact (h.setStatus id .deleted).same rfl fun _ row hrow => ⟨row, hrow, rfl, rfl⟩
  | hardDelete id => exact h.hardDelete id

end Steps

theorem chronicled_runStore {w : World V} (hstart : w.db = Db.empty) (calls : List CanonicalCall) :
    Chronicled (written calls) (runStore w calls) := by
  have hempty : Chronicled (fun _ => []) w := by
    refine ⟨?_, fun id => ?_, fun id row hrow => ?_⟩
    · rw [hstart]
      exact List.Pairwise.nil
    · rw [hstart]
      rfl
    · rw [hstart] at hrow
      cases hrow
  have hrun : ∀ calls (texts : RecordId → List Text) (w : World V), Chronicled texts w →
      Chronicled (calls.foldl enter texts) (runStore w calls) := by
    intro calls
    induction calls with
    | nil => exact fun _ _ h => h
    | cons c calls ih => exact fun texts w h => ih _ _ (chronicled_afterCall h c)
  exact hrun calls _ w hempty

/-- In every run from a new store, the versions of a record that is there carry what has been
written to it since it was last erased, and its head row is that of the last of them. -/
theorem version_history {w : World V} (hstart : w.db = Db.empty) (calls : List CanonicalCall)
    (id : RecordId) (row : MemoryRecord) (hrow : (runStore w calls).db.readOne id = some row) :
    let versions := versionsOf (runStore w calls).db.canonical id
    versions.Pairwise (fun v u => v.versionId < u.versionId) ∧
      versions.map Version.text = written calls id ∧ ∃ last, Heads versions row last := by
  have h := chronicled_runStore hstart calls
  let c := (runStore w calls).db.canonical
  have hincreasing : (c.versions.filter fun v => v.recordId = id).Pairwise fun v u =>
      v.versionId < u.versionId := h.increasing.filter _
  have hsorted : versionsOf c id = c.versions.filter fun v => v.recordId = id :=
    List.Pairwise.insertionSort_eq (hincreasing.imp fun h => h.le)
  obtain ⟨last, hnewest, hpointer, htext⟩ := h.head id row hrow
  intro versions
  have hversions : versions = c.versions.filter fun v => v.recordId = id := hsorted
  rw [hversions]
  refine ⟨hincreasing, h.recorded id, last, hnewest, fun v hv => ?_, hpointer, htext⟩
  obtain ⟨before, hbefore⟩ := List.getLast?_eq_some_iff.mp hnewest
  rw [hbefore] at hv hincreasing
  rcases List.mem_append.mp hv with hv | hv
  · exact ((List.pairwise_append.mp hincreasing).2.2 v hv last (List.mem_singleton_self _)).le
  · cases List.mem_singleton.mp hv
    exact le_refl _

theorem version_history_reused :
    let calls : List CanonicalCall := [.write { plainRecord 1 "tea" with currentVersionId := some (-7) },
      .write (plainRecord 2 "milk"), .hardDelete 2, .supersede 9 (plainRecord 1 "water"),
      .tombstone 1 .logical 3 .canonicalTombstoned]
    ∃ row last, (runStore plainWorld calls).db.readOne 1 = some row ∧
      (versionsOf (runStore plainWorld calls).db.canonical 1).map Version.text =
        [("tea", "tea"), ("water", "water")] ∧
      Heads (versionsOf (runStore plainWorld calls).db.canonical 1) row last ∧ last.versionId = 2 := by
  intro calls
  have hsome : ((runStore plainWorld calls).db.readOne 1).isSome = true := by decide
  obtain ⟨row, hrow⟩ := Option.isSome_iff_exists.mp hsome
  obtain ⟨_, htexts, last, hlast⟩ := version_history rfl calls 1 row hrow
  refine ⟨row, last, hrow, htexts, hlast, ?_⟩
  have hids : ((versionsOf (runStore plainWorld calls).db.canonical 1).getLast?).map
      Version.versionId = some 2 := by decide
  rw [hlast.newest] at hids
  exact Option.some.inj hids

end StrataMemory.VersionHistory
