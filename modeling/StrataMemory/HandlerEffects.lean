import StrataMemory.Engine

set_option autoImplicit false

namespace StrataMemory.HandlerEffects
open KeyedTables Records Tables Procedures Worlds Engine VectorStore

def touchesMemory : Commit Memory → Bool
  | .memory _ => true
  | _ => false

theorem memory_apply {c : Commit Memory} (h : touchesMemory c = false) (w : World Memory) :
    (apply c w).memory = w.memory := by
  cases c with
  | memory f => cases h
  | registerGeneration generation modelId status => simp only [apply, World.stamp]
  | _ => rfl

theorem proposals_applyToStore (name : String) (op : Operation) (m : Memory) :
    (applyToStore name op m).2.proposals = m.proposals := by
  unfold applyToStore
  cases op.opType <;> rfl

theorem settings_applyToStore (name : String) (op : Operation) (m : Memory) :
    (applyToStore name op m).2.faults = m.faults ∧
      (applyToStore name op m).2.activeGeneration = m.activeGeneration := by
  unfold applyToStore
  cases op.opType <;> exact ⟨rfl, rfl⟩

theorem proposals_makeHandler (name : String) (op : Operation) (m : Memory) :
    (makeHandler name op m).2.proposals = m.proposals := by
  unfold makeHandler
  split
  · rfl
  · exact proposals_applyToStore name op m

theorem handler_eq {e : MemoryEngine} {name : String} {handler : Coordinator.Handler Memory}
    (h : e.coordinator.handlers name = some handler) :
    name ∈ e.vectorNames ∧ handler = makeHandler name := by
  change (if name ∈ e.vectorNames then some (makeHandler name) else none) = some handler at h
  split at h
  · rename_i hname
    cases h
    exact ⟨hname, rfl⟩
  · cases h

def presentAfter (op : Operation) (id : RecordId) (present : Bool) : Bool :=
  match op.opType with
  | .upsertIndex => op.records.any (fun rec => rec.id = id) || present
  | .removeIndex | .hardPurge => id ∉ op.targetIds && present
  | .tombstone | .reindexPromote => present

theorem presentAfter_again (op : Operation) (id : RecordId) (present : Bool) :
    presentAfter op id (presentAfter op id present) = presentAfter op id present := by
  unfold presentAfter
  cases op.opType with
  | upsertIndex =>
    dsimp only
    rw [← Bool.or_assoc, Bool.or_self]
  | removeIndex | hardPurge =>
    dsimp only
    rw [← Bool.and_assoc, Bool.and_self]
  | tombstone | reindexPromote => rfl

theorem store_setStore (m : Memory) (name other : String) (s : InMemoryVectorStore) :
    (m.setStore name s).store other = if name = other then s else m.store other := by
  unfold Memory.store Memory.setStore
  dsimp only
  rw [Table.get?_set]
  split <;> rfl

theorem vectorContains_setStore (m : Memory) (name other : String) (s : InMemoryVectorStore)
    (id : RecordId) : Memory.vectorContains other (m.setStore name s) id =
      if name = other then s.contains id else Memory.vectorContains other m id := by
  unfold Memory.vectorContains
  rw [store_setStore]
  split <;> rfl

theorem vectorContains_applyToStore (name other : String) (op : Operation) (m : Memory)
    (id : RecordId) : Memory.vectorContains other (applyToStore name op m).2 id =
      if name = other then presentAfter op id (Memory.vectorContains name m id)
      else Memory.vectorContains other m id := by
  unfold applyToStore presentAfter
  cases op.opType with
  | upsertIndex =>
    dsimp only
    rw [vectorContains_setStore, InMemoryVectorStore.contains_upsert]
    rfl
  | removeIndex =>
    dsimp only
    rw [vectorContains_setStore, InMemoryVectorStore.contains_remove]
    rfl
  | hardPurge =>
    dsimp only
    rw [vectorContains_setStore, InMemoryVectorStore.contains_remove]
    rfl
  | tombstone =>
    dsimp only
    split
    · rename_i h
      rw [h]
    · rfl
  | reindexPromote =>
    dsimp only
    split
    · rename_i h
      rw [h]
    · rfl

/-- An adapter that refuses changes nothing; one that does not applies the operation. -/
theorem vectorContains_makeHandler (name other : String) (op : Operation) (m : Memory)
    (id : RecordId) : Memory.vectorContains other (makeHandler name op m).2 id =
      if m.faults m.calls = false ∧ name = other then
        presentAfter op id (Memory.vectorContains name m id)
      else Memory.vectorContains other m id := by
  unfold makeHandler
  by_cases hfault : m.faults m.calls = true
  · rw [if_pos hfault, if_neg (by simp [hfault])]
    rfl
  · have hok : m.faults m.calls = false := Bool.eq_false_iff.mpr hfault
    rw [if_neg hfault]
    change Memory.vectorContains other (applyToStore name op m).2 id = _
    rw [vectorContains_applyToStore]
    simp [hok]

theorem get_acks {ids : List RecordId} {id : RecordId} (h : id ∈ ids) :
    Acks.get (ids.map fun i => (i, true)) id = true := by
  unfold Acks.get
  induction ids with
  | nil => cases h
  | cons i ids ih =>
    by_cases hid : id = i
    · subst hid
      simp
    · have hne : (id == i) = false := beq_eq_false_iff_ne.mpr hid
      have htail := ih ((List.mem_cons.mp h).resolve_left hid)
      simpa [List.lookup_cons, hne] using htail

def touched (op : Operation) : List RecordId := op.targetIds ++ op.records.map VectorRecord.id

theorem presentAfter_of_not_touched {op : Operation} {id : RecordId} (h : id ∉ touched op)
    (present : Bool) : presentAfter op id present = present := by
  rw [touched, List.mem_append, not_or] at h
  unfold presentAfter
  cases op.opType with
  | upsertIndex =>
    have hany : (op.records.any fun rec => rec.id = id) = false := by
      rw [List.any_eq_false]
      intro rec hrec he
      exact h.2 (List.mem_map.mpr ⟨rec, hrec, of_decide_eq_true he⟩)
    dsimp only
    rw [hany, Bool.false_or]
  | removeIndex | hardPurge => simp [h.1]
  | tombstone | reindexPromote => rfl

end StrataMemory.HandlerEffects
