import StrataMemory.SharedQueue

set_option autoImplicit false

namespace StrataMemory.PurgeFacts
open KeyedTables Records Tables Procedures Worlds
open HandlerEffects Engine Interleavings SharedViews SharedQueue

variable {base : OpId} {x : RecordId} {ids : List RecordId}

/-- Applications of the queue keep the fact, and so does dropping the posting of `x`. -/
structure Kept (x : RecordId) (F : View → Prop) : Prop where
  queue : ∀ v u, QueueMove v u → F v → F u
  unpost : ∀ v, F v → F { v with posting := fun id => id ≠ x && v.posting id }

/-- The update had written `n` pieces of content, and `F` holds until it writes more. -/
def Since (n : ℕ) (F : View → Prop) (v : View) : Prop := n ≤ v.contents ∧ (v.contents = n → F v)

theorem Kept.and {F G : View → Prop} (hF : Kept x F) (hG : Kept x G) :
    Kept x fun v => F v ∧ G v where
  queue v u hvu hv := ⟨hF.queue v u hvu hv.1, hG.queue v u hvu hv.2⟩
  unpost v hv := ⟨hF.unpost v hv.1, hG.unpost v hv.2⟩

theorem Kept.const (q : Prop) : Kept x fun _ => q where
  queue _ _ _ hv := hv
  unpost _ hv := hv

theorem Kept.imp {F : View → Prop} (q : Prop) (hF : Kept x F) : Kept x fun v => q → F v where
  queue v u hvu hv hq := hF.queue v u hvu (hv hq)
  unpost v hv hq := hF.unpost v (hv hq)

theorem Kept.update {F : View → Prop} (hF : Kept x F) {v u : View} (hvu : UpdateMove x v u)
    (heq : u.contents = v.contents) (hv : F v) : F u := by
  cases hvu with
  | idle => exact hv
  | writer h => exact hF.queue v u h.queueMove hv
  | unpost => exact hF.unpost v hv
  | write row first =>
    rw [first] at heq
    cases heq
  | post second =>
    rw [second] at heq
    cases heq
  | enqueue third waiting =>
    rw [third] at heq
    cases heq

theorem closed_since {F : View → Prop} (hF : Kept x F) (n : ℕ) :
    Closed x .deletion (Since n F) := by
  rintro v u hvu ⟨hn, hv⟩
  have hle : v.contents ≤ u.contents := (hvu : UpdateMove x v u).contents_le
  refine ⟨hn.trans hle, fun hu => ?_⟩
  have heq : u.contents = v.contents := by omega
  exact hF.update hvu heq (hv (heq ▸ hu))

theorem Since.move {F G : View → Prop} {n : ℕ} {v u : View} (h : Since n F v)
    (heq : u.contents = v.contents) (hFG : F v → G u) : Since n G u :=
  ⟨heq ▸ h.1, fun hu => hFG (h.2 (heq ▸ hu))⟩

theorem Since.mono {F G : View → Prop} {n : ℕ} {v : View} (h : Since n F v)
    (hFG : F v → G v) : Since n G v :=
  h.move rfl hFG

theorem Since.queue {F : View → Prop} (hF : Kept x F) {n : ℕ} {v u : View} (h : Since n F v)
    (hvu : QueueMove v u) : Since n F u :=
  h.move hvu.contents_eq (hF.queue v u hvu)

theorem Since.and {F G : View → Prop} {n : ℕ} {v : View} (hF : Since n F v) (hG : Since n G v) :
    Since n (fun v => F v ∧ G v) v :=
  ⟨hF.1, fun hv => ⟨hF.2 hv, hG.2 hv⟩⟩

theorem Since.earlier {F : View → Prop} {n k : ℕ} {v : View} (h : Since k F v) (hnk : n ≤ k) :
    Since n F v := by
  refine ⟨hnk.trans h.1, fun hv => h.2 ?_⟩
  have hk := h.1
  omega

theorem Since.undone {F : View → Prop} {n : ℕ} {v : View} (h : Since n F v) (hF : ¬F v) :
    n < v.contents :=
  Nat.lt_of_le_of_ne h.1 fun hn => hF (h.2 hn.symm)

def Unposted (ids : List RecordId) (v : View) : Prop := ∀ id ∈ ids, v.posting id = false

def Erased (ids : List RecordId) (v : View) : Prop := ∀ id ∈ ids, v.row id = none

def Dropped (ids : List RecordId) (v : View) : Prop := ∀ id ∈ ids, v.artifact id = false

abbrev Emptied (ids : List RecordId) : View → Prop := Settled ids false

theorem kept_unposted : Kept x (Unposted ids) where
  queue v u hvu hv := by
    cases hvu <;> exact hv
  unpost v hv id hid := by
    change (_ && v.posting id) = false
    rw [hv id hid, Bool.and_false]

theorem kept_erased : Kept x (Erased ids) where
  queue v u hvu hv := by
    cases hvu <;> exact hv
  unpost _ hv := hv

theorem kept_settles (b : Bool) (f : ℕ) : Kept x (Settles ids b f) where
  queue _ _ hvu hv := hv.queue hvu
  unpost _ hv := hv

theorem kept_settled (b : Bool) : Kept x (Settled ids b) where
  queue _ _ hvu hv := hv.queue hvu
  unpost _ hv := hv

theorem closed_dropped : Closed x .deletion (Dropped ids) := by
  intro v u hvu hv
  cases (hvu : UpdateMove x v u) with
  | idle | unpost | write | post | enqueue => exact hv
  | writer h => cases h <;> exact hv

/-- The ids are tombstoned, `r` removals have been queued, and the row of `x` is marked
deleted, except that in the logical mode the update may have written it later. -/
structure Guarded (x : RecordId) (ids : List RecordId) (mode : DeletionMode) (r : ℕ)
    (v : View) : Prop where
  tombstoned : ∀ id ∈ ids, v.tombstoned id = true
  removals : v.removals = r
  marked : x ∈ ids → v.marked = true → ∀ row, v.row x = some row → row.status = .deleted
  rewritten : x ∈ ids → mode = .logical → v.marked = false →
    1 ≤ v.contents ∧ ∃ row, v.row x = some row ∧ row.status ≠ .deleted

/-- The last removal was queued when the update had written `n` pieces of content. -/
def Answer (n : ℕ) (v : View) : Prop := v.removed = true → v.contents = 3 → n = 3

theorem Guarded.queue {mode : DeletionMode} {r : ℕ} {v u : View} (h : Guarded x ids mode r v)
    (hvu : QueueMove v u) : Guarded x ids mode r u := by
  cases hvu <;> exact ⟨h.tombstoned, h.removals, h.marked, h.rewritten⟩

theorem Answer.queue {n : ℕ} {v u : View} (h : Answer n v) (hvu : QueueMove v u) : Answer n u := by
  cases hvu <;> exact h

theorem closed_guarded (mode : DeletionMode) (r : ℕ) :
    Closed x .deletion (Guarded x ids mode r) := by
  intro v u hvu hv
  cases (hvu : UpdateMove x v u) with
  | idle => exact hv
  | writer h => exact hv.queue h.queueMove
  | unpost => exact ⟨hv.tombstoned, hv.removals, hv.marked, hv.rewritten⟩
  | write row first =>
    refine ⟨hv.tombstoned, hv.removals, fun _ hmarked r hr => ?_, fun hx hmode hmarked => ?_⟩
    · change Function.update v.row x (some row) x = some r at hr
      rw [Function.update_self] at hr
      cases hr
      exact of_decide_eq_true (Bool.and_eq_true_iff.mp hmarked).1
    · refine ⟨le_rfl, row, Function.update_self _ _ _, fun hstatus => ?_⟩
      -- the first row that is written finds the mark in place
      have hunmarked : v.marked = false := by
        change (decide (row.status = .deleted) && v.marked) = false at hmarked
        rwa [hstatus, decide_eq_true rfl, Bool.true_and] at hmarked
      have hone := (hv.rewritten hx hmode hunmarked).1
      omega
  | post second =>
    refine ⟨hv.tombstoned, hv.removals, hv.marked, fun hx hmode hmarked => ?_⟩
    exact ⟨Nat.le_succ 1, (hv.rewritten hx hmode hmarked).2⟩
  | enqueue third waiting =>
    refine ⟨hv.tombstoned, hv.removals, hv.marked, fun hx hmode hmarked => ?_⟩
    exact ⟨Nat.le_add_left 1 2, (hv.rewritten hx hmode hmarked).2⟩

theorem closed_answer (n : ℕ) : Closed x .deletion (Answer n) := by
  intro v u hvu hv
  cases (hvu : UpdateMove x v u) with
  | idle | unpost => exact hv
  | writer h => exact hv.queue h.queueMove
  | write row first =>
    intro _ hu
    have hthree : 1 = 3 := hu
    omega
  | post second =>
    intro _ hu
    have hthree : 2 = 3 := hu
    omega
  | enqueue third waiting => exact fun hu => absurd hu Bool.false_ne_true

variable {m : Shared}

theorem view_removePostings (ids : List RecordId) :
    view x (m.commit .deletion (.removePostings ids)) =
      { view x m with posting := fun id => !decide (id ∈ ids) && (view x m).posting id } :=
  congrArg (fun posting => { view x m with posting := posting })
    (funext fun _ => Table.contains_eraseAll _ _ _)

theorem view_rebuildPostings : view x (m.commit .deletion .rebuildPostings) =
    { view x m with posting := fun id => ((view x m).row id).isSome } :=
  congrArg (fun posting => { view x m with posting := posting })
    (funext fun _ => Table.contains_mapValues _ _ _)

theorem view_hardDelete (id : RecordId) : view x (m.commit .deletion (.hardDelete id)) =
    { view x m with row := fun j => if j = id then none else (view x m).row j } :=
  congrArg (fun row => { view x m with row := row }) (funext fun _ => Table.get?_erase _ _ _)

theorem view_setTombstoneState (id : RecordId) (state : DeletionState) (verifiedAt : Option Time) :
    view x (m.commit .deletion (.setTombstoneState id state verifiedAt)) = view x m :=
  congrArg (fun tombstoned => { view x m with tombstoned := tombstoned })
    (funext fun _ => Table.contains_modify _ _ _ _)

theorem view_dropArtifacts (ids : List RecordId) :
    view x (m.commit .deletion (.memory fun v => { v with artifacts := v.artifacts.eraseAll ids })) =
      { view x m with artifact := fun id => !decide (id ∈ ids) && (view x m).artifact id } :=
  congrArg (fun artifact => { view x m with artifact := artifact })
    (funext fun _ => Table.contains_eraseAll _ _ _)

def markDeleted (now : Time) (r : MemoryRecord) : MemoryRecord :=
  { r with status := .deleted, updatedAt := now }

theorem view_tombstone (id : RecordId) (mode : DeletionMode) (jobId : OpId)
    (state : DeletionState) : view x (m.commit .deletion (.tombstone id mode jobId state)) =
      { view x m with
        tombstoned := fun j => decide (id = j) || (view x m).tombstoned j
        row := fun j => if id = j then ((view x m).row j).map (markDeleted m.state.now)
          else (view x m).row j
        marked := decide (id = x) || (view x m).marked } := by
  have htombstoned : (apply (.tombstone id mode jobId state) m.state).db.isTombstoned =
      fun j => decide (id = j) || m.state.db.isTombstoned j :=
    funext fun j => Table.contains_set _ _ _ _
  have hrow : (apply (.tombstone id mode jobId state) m.state).db.readOne =
      fun j => if id = j then (m.state.db.readOne j).map (markDeleted m.state.now)
        else m.state.db.readOne j :=
    funext fun j => Table.get?_modify _ _ _ _
  change View.mk _ (apply (.tombstone id mode jobId state) m.state).db.readOne _ _
    (apply (.tombstone id mode jobId state) m.state).db.isTombstoned _ _ _ _ _
    ((decide (id = x) && true) || tombstonedLast x m.history) = _
  rw [htombstoned, hrow, Bool.and_true]
  rfl

theorem view_enqueue {op : Operation} (hfresh : op.opId ∉
    m.state.db.opLog.rows.map fun r => r.operation.opId) :
    ∃ row, row.operation = op ∧ view x (m.commit .deletion (.enqueue op)) =
      { view x m with
          live := (view x m).live ++ [row], removals := (view x m).removals + 1
          removed := true } := by
  refine ⟨_, rfl, congrArg (fun live => { view x m with
    live := live, removals := (view x m).removals + 1, removed := true })
      (PendingRows.notDone_append hfresh)⟩

end StrataMemory.PurgeFacts
