import StrataMemory.Worlds

set_option autoImplicit false

namespace StrataMemory.CommitEffects
open KeyedTables Records Tables Procedures Worlds

variable {V : Type}

/-- Commits that leave the canonical tables, the tombstones and the generations alone. -/
def isIndexWork : Commit V → Bool
  | .readClock | .newOperationId | .newRecordId | .recordIndexAck .. | .indexPosting ..
  | .removePostings _ | .rebuildPostings | .enqueue _ | .recover | .setOpState .. | .finish ..
  | .failOp .. | .deferOp .. | .retryOp _ | .acquire | .release | .memory _ => true
  | _ => false

def authority (w : World V) : Canonical × Table RecordId Tombstone :=
  (w.db.canonical, w.db.tombstones)

theorem isTombstoned_of_authority {w t : World V} (h : authority t = authority w) :
    t.db.isTombstoned = w.db.isTombstoned :=
  congrArg (fun a : Canonical × Table RecordId Tombstone => a.2.contains) h

theorem readOne_of_authority {w t : World V} (h : authority t = authority w) :
    t.db.readOne = w.db.readOne :=
  congrArg (fun a : Canonical × Table RecordId Tombstone => a.1.records.get?) h

theorem dependencies_of_authority {w t : World V} (h : authority t = authority w) :
    t.db.canonical.dependencies = w.db.canonical.dependencies :=
  congrArg (fun a : Canonical × Table RecordId Tombstone => a.1.dependencies) h

theorem authority_apply {c : Commit V} (h : isIndexWork c = true) (w : World V) :
    authority (apply c w) = authority w := by
  cases c <;> first | rfl | cases h

theorem authority_final {α : Type} {p : Prog V α} (hp : p.Uses fun c => isIndexWork c = true)
    (w : World V) : authority (p.final w) = authority w :=
  hp.run (R := fun s t => authority t = authority s) (fun _ => rfl)
    (fun _ _ _ h h' => h'.trans h) (fun _ s hc => authority_apply hc s) w

def isTombstone : Commit V → Bool
  | .tombstone .. => true
  | _ => false

def isErasure : Commit V → Bool
  | .hardDelete _ => true
  | _ => false

/-- No commit removes a tombstone. -/
theorem apply_isTombstoned (c : Commit V) (w : World V) (id : RecordId)
    (h : w.db.isTombstoned id = true) : (apply c w).db.isTombstoned id = true := by
  cases c with
  | tombstone rid mode jobId state =>
    change (w.db.tombstones.set rid _).contains id = true
    rw [Table.contains_set, show w.db.tombstones.contains id = true from h, Bool.or_true]
  | setTombstoneState rid state verifiedAt =>
    change (w.db.tombstones.modify rid _).contains id = true
    rw [Table.contains_modify]
    exact h
  | registerGeneration generation modelId status =>
    simp only [apply, World.stamp]
    split <;> exact h
  | _ => exact h

theorem reaches_isTombstoned {α : Type} {p q : Prog V α} {w t : World V} {cs : List (Commit V)}
    (h : Proc.Reaches p w cs q t) (id : RecordId) (hw : w.db.isTombstoned id = true) :
    t.db.isTombstoned id = true :=
  ((Proc.Uses.of_forall (P := fun _ => True) (fun _ => trivial) p).reaches
    (R := fun (s t : World V) => s.db.isTombstoned id = true → t.db.isTombstoned id = true)
    (fun _ hs => hs) (fun _ _ _ hst htu hs => htu (hst hs))
    (fun c s _ hs => apply_isTombstoned c s id hs) h).1 hw

theorem final_isTombstoned {α : Type} (p : Prog V α) (w : World V) (id : RecordId)
    (h : w.db.isTombstoned id = true) : (p.final w).db.isTombstoned id = true :=
  (Proc.Uses.of_forall (P := fun _ => True) (fun _ => trivial) p).preserves
    (I := fun w => w.db.isTombstoned id = true) (fun c s _ hs => apply_isTombstoned c s id hs) w h

theorem run_isTombstoned {α : Type} {p : Prog V α} {w u : World V} {r : Except PyError α}
    (hrun : p.run w = (r, u)) (id : RecordId) (h : w.db.isTombstoned id = true) :
    u.db.isTombstoned id = true := by
  have hu : u = p.final w := congrArg Prod.snd hrun.symm
  rw [hu]
  exact final_isTombstoned p w id h

theorem registerGeneration_kept (generation : ℤ) (modelId : String) (status : GenerationStatus)
    (w : World V) :
    let t := apply (.registerGeneration generation modelId status) w
    t.db.opLog = w.db.opLog ∧ t.db.canonical = w.db.canonical ∧ t.db.postings = w.db.postings := by
  simp only [apply, World.stamp]
  split <;> exact ⟨rfl, rfl, rfl⟩

theorem authority_registerGeneration (generation : ℤ) (modelId : String) (status : GenerationStatus)
    (w : World V) : authority (apply (.registerGeneration generation modelId status) w) = authority w := by
  simp only [apply, World.stamp]
  split <;> rfl

theorem headRow_id (c : Canonical) (now : Time) (r : MemoryRecord) : (c.headRow now r).id = r.id := by
  unfold Canonical.headRow
  split <;> rfl

theorem headRow_status (c : Canonical) (now : Time) (r : MemoryRecord) :
    (c.headRow now r).status = r.status := by
  unfold Canonical.headRow
  split <;> rfl

theorem readOne_write_of_ne {w : World V} {r : MemoryRecord} {id : RecordId} (hne : r.id ≠ id) :
    (apply (.write r) w).db.readOne id = w.db.readOne id := by
  change ((w.db.canonical.putRow (w.db.canonical.headRow w.now r)).insertVersion w.now r).records.get?
    id = _
  have hput : (w.db.canonical.putRow (w.db.canonical.headRow w.now r)).records.get? id =
      w.db.readOne id :=
    Table.get?_set_of_ne _ _ (headRow_id w.db.canonical w.now r ▸ hne)
  unfold Canonical.insertVersion
  split
  · change (Table.modify _ r.id _).get? id = _
    rw [Table.get?_modify, if_neg hne]
    exact hput
  · exact hput

theorem contains_putRow (c : Canonical) (now : Time) (r : MemoryRecord) :
    (c.putRow (c.headRow now r)).records.contains r.id = true := by
  change (Table.set _ (c.headRow now r).id _).contains _ = true
  rw [headRow_id, Table.contains_set, decide_eq_true rfl, Bool.true_or]

theorem readOne_write_synced (w : World V) (r : MemoryRecord) :
    (apply (.write r) w).db.readOne r.id = some (Canonical.syncCurrentVersion
      w.db.canonical.nextVersionId w.now (w.db.canonical.headRow w.now r)) := by
  have hput : (w.db.canonical.putRow (w.db.canonical.headRow w.now r)).records.get? r.id =
      some (w.db.canonical.headRow w.now r) := by
    change (Table.set _ (w.db.canonical.headRow w.now r).id _).get? r.id = _
    rw [headRow_id]
    exact Table.get?_set_self _ _ _
  change ((w.db.canonical.putRow (w.db.canonical.headRow w.now r)).insertVersion
    w.now r).records.get? r.id = _
  unfold Canonical.insertVersion
  rw [dif_pos (contains_putRow _ _ _)]
  change (Table.modify _ r.id _).get? r.id = _
  rw [Table.get?_modify, if_pos rfl]
  exact congrArg (Option.map _) hput

theorem versions_write (r : MemoryRecord) (w : World V) :
    (apply (.write r) w).db.canonical.versions = w.db.canonical.versions ++
      [⟨w.db.canonical.nextVersionId, r.id, r.content, r.contentHash, r.status, w.now⟩] := by
  change (Canonical.insertVersion _ w.now r).versions = _
  unfold Canonical.insertVersion
  rw [dif_pos (contains_putRow _ _ _)]
  rfl

theorem readOne_write_field {α : Type} (f : MemoryRecord → α)
    (hhead : ∀ c now r, f (Canonical.headRow c now r) = f r)
    (hsync : ∀ version now r, f (Canonical.syncCurrentVersion version now r) = f r)
    (w : World V) (r : MemoryRecord) :
    ∃ row, (apply (.write r) w).db.readOne r.id = some row ∧ f row = f r :=
  ⟨_, readOne_write_synced w r, (hsync _ _ _).trans (hhead _ _ _)⟩

theorem readOne_write_self (w : World V) (r : MemoryRecord) :
    ∃ row, (apply (.write r) w).db.readOne r.id = some row ∧ row.status = r.status := by
  refine readOne_write_field MemoryRecord.status headRow_status (fun version now r => ?_) w r
  unfold Canonical.syncCurrentVersion
  split <;> rfl

theorem readOne_write_text (w : World V) (r : MemoryRecord) :
    ∃ row, (apply (.write r) w).db.readOne r.id = some row ∧
      (row.content, row.contentHash) = (r.content, r.contentHash) := by
  refine readOne_write_field (fun r : MemoryRecord => (r.content, r.contentHash))
    (fun c now r => ?_) (fun version now r => ?_) w r
  · unfold Canonical.headRow
    split <;> rfl
  · unfold Canonical.syncCurrentVersion
    split <;> rfl

/-- A write is one point update of the rows, and keeps the status it was given. -/
theorem readOne_write (w : World V) (r : MemoryRecord) :
    ∃ row, row.status = r.status ∧
      (apply (.write r) w).db.readOne = Function.update w.db.readOne r.id (some row) := by
  obtain ⟨row, hrow, hstatus⟩ := readOne_write_self w r
  refine ⟨row, hstatus, funext fun id => ?_⟩
  by_cases hid : id = r.id
  · subst hid
    rw [Function.update_self]
    exact hrow
  · rw [Function.update_of_ne hid]
    exact readOne_write_of_ne (Ne.symm hid)

theorem readOne_setStatus (id : RecordId) (status : Status) (w : World V) :
    (apply (.setStatus id status) w).db.readOne = Function.update w.db.readOne id
      ((w.db.readOne id).map fun r => { r with status := status, updatedAt := w.now }) := by
  funext other
  refine (Table.get?_modify _ _ _ _).trans ?_
  by_cases hid : id = other
  · subst hid
    rw [if_pos rfl, Function.update_self]
    rfl
  · rw [if_neg hid, Function.update_of_ne (Ne.symm hid)]
    rfl

theorem readOne_addDependency (parentId childId : RecordId) (rel : Relation) (w : World V) :
    (apply (.addDependency parentId childId rel) w).db.readOne = w.db.readOne := by
  have hrecords : (w.db.canonical.addDependency parentId childId rel).records =
      w.db.canonical.records := by
    unfold Canonical.addDependency
    split
    · split <;> rfl
    · rfl
  exact congrArg Table.get? hrecords

theorem readOne_of_hardDelete {id other : RecordId} {w : World V} {r : MemoryRecord}
    (h : (apply (.hardDelete id) w).db.readOne other = some r) : w.db.readOne other = some r := by
  change (w.db.canonical.records.erase id).get? other = some r at h
  rw [Table.get?_erase] at h
  split at h
  · cases h
  · exact h

theorem readOne_of_tombstone {id other : RecordId} {mode : DeletionMode} {jobId : OpId}
    {state : DeletionState} {w : World V} {r : MemoryRecord}
    (h : (apply (.tombstone id mode jobId state) w).db.readOne other = some r) :
    id = other ∧ r.status = .deleted ∨ id ≠ other ∧ w.db.readOne other = some r := by
  change (w.db.canonical.records.modify id _).get? other = some r at h
  rw [Table.get?_modify] at h
  split at h
  · rename_i hsame
    obtain ⟨old, _, rfl⟩ := Option.map_eq_some_iff.mp h
    exact .inl ⟨hsame, rfl⟩
  · rename_i hne
    exact .inr ⟨hne, h⟩

theorem isTombstoned_mark (id : RecordId) (state : DeletionState) (verifiedAt : Option Time)
    (w : World V) :
    (apply (.setTombstoneState id state verifiedAt) w).db.isTombstoned = w.db.isTombstoned :=
  funext fun _ => Table.contains_modify ..

theorem isTombstoned_tombstone (id : RecordId) (mode : DeletionMode) (jobId : OpId)
    (state : DeletionState) (w : World V) (other : RecordId) :
    (apply (.tombstone id mode jobId state) w).db.isTombstoned other =
      (decide (id = other) || w.db.isTombstoned other) :=
  Table.contains_set ..

theorem contains_setStatus (d : RecordId) (status : Status) (w : World V) (id : RecordId) :
    (apply (.setStatus d status) w).db.canonical.records.contains id =
      w.db.canonical.records.contains id :=
  Table.contains_modify ..

theorem edgeAllowed_setStatus (d : RecordId) (status : Status) (w : World V) (a b : RecordId) :
    (apply (.setStatus d status) w).db.canonical.edgeAllowed a b = w.db.canonical.edgeAllowed a b := by
  unfold Canonical.edgeAllowed
  rw [contains_setStatus, contains_setStatus]

theorem dependencies_write (r : MemoryRecord) (w : World V) :
    (apply (.write r) w).db.canonical.dependencies = w.db.canonical.dependencies := by
  change (Canonical.insertVersion _ w.now r).dependencies = _
  unfold Canonical.insertVersion
  split <;> rfl

/-- An edge that the foreign keys refuse leaves the world as it was. -/
theorem apply_refused {a b : RecordId} (rel : Relation) {w : World V}
    (hrefused : w.db.canonical.edgeAllowed a b = false) :
    apply (.addDependency a b rel) w = w := by
  have hsame : w.db.canonical.addDependency a b rel = w.db.canonical := by
    unfold Canonical.addDependency
    rw [dif_neg (by rw [hrefused]; exact Bool.false_ne_true)]
  change { w with db := { w.db with canonical := w.db.canonical.addDependency a b rel } } = w
  rw [hsame]

theorem mem_addDependency_iff {c : Canonical} {parentId childId : RecordId} {rel : Relation}
    {d : Dependency} : d ∈ (c.addDependency parentId childId rel).dependencies ↔
      d ∈ c.dependencies ∨ c.edgeAllowed parentId childId = true ∧ d = ⟨parentId, childId, rel⟩ := by
  unfold Canonical.addDependency
  split
  · rename_i hallowed
    split
    · rename_i hold
      refine ⟨.inl, fun h => h.elim id ?_⟩
      rintro ⟨_, rfl⟩
      exact hold
    · rw [List.mem_append, List.mem_singleton]
      exact or_congr_right (iff_and_self.mpr fun _ => hallowed)
  · rename_i hrefused
    exact ⟨.inl, fun h => h.elim id fun hnew => absurd hnew.1 hrefused⟩

theorem mem_addDependency {c : Canonical} {d : Dependency} (hd : d ∈ c.dependencies)
    (parentId childId : RecordId) (rel : Relation) :
    d ∈ (c.addDependency parentId childId rel).dependencies :=
  mem_addDependency_iff.mpr (.inl hd)

theorem mem_addDependency_self {c : Canonical} {parentId childId : RecordId}
    (h : c.edgeAllowed parentId childId = true) (rel : Relation) :
    ⟨parentId, childId, rel⟩ ∈ (c.addDependency parentId childId rel).dependencies :=
  mem_addDependency_iff.mpr (.inr ⟨h, rfl⟩)

theorem hasPosting_indexPosting (w : World V) (id : RecordId) (content : String) :
    (apply (.indexPosting id content) w).db.hasPosting =
      Function.update w.db.hasPosting id true := by
  funext other
  refine (Table.contains_set _ _ _ _).trans ?_
  by_cases hid : other = id
  · subst hid
    rw [Function.update_self, decide_eq_true rfl, Bool.true_or]
  · rw [Function.update_of_ne hid, decide_eq_false (Ne.symm hid), Bool.false_or]
    rfl

end StrataMemory.CommitEffects
