import StrataMemory.FlowInvariants
import StrataMemory.VerifiedDeletions

set_option autoImplicit false

namespace StrataMemory.DeletionJobs
open KeyedTables Records Tables Procedures Worlds CommitEffects ManagedSurfaces
open DeletionFlows DeletionMachine SurfaceRounds DeletionInvariants VerifiedDeletions FlowInvariants
open Engine Gateway NodeRuns

variable {V : Type}

theorem mem_jobRows {db : Db} {jobId : OpId} {id : RecordId} {t : Tombstone} :
    (id, t) ∈ jobRows db jobId ↔ db.tombstones.get? id = some t ∧ t.jobId = jobId := by
  unfold jobRows
  rw [mem_sortBy, List.mem_filter, Table.mem_entries, decide_eq_true_iff]

def ticket (db : Db) (id : RecordId) : Option (OpId × DeletionMode) :=
  (db.tombstones.get? id).map fun t => (t.jobId, t.mode)

theorem ticket_eq_some {db : Db} {id : RecordId} {jobId : OpId} {mode : DeletionMode} :
    ticket db id = some (jobId, mode) ↔
      ∃ t, (id, t) ∈ jobRows db jobId ∧ t.mode = mode := by
  unfold ticket
  rw [Option.map_eq_some_iff]
  constructor
  · rintro ⟨t, ht, he⟩
    cases he
    exact ⟨t, mem_jobRows.mpr ⟨ht, rfl⟩, rfl⟩
  · rintro ⟨t, ht, rfl⟩
    obtain ⟨hget, rfl⟩ := mem_jobRows.mp ht
    exact ⟨t, hget, rfl⟩

theorem ticket_eq_none {db : Db} {id : RecordId} :
    ticket db id = none ↔ db.isTombstoned id = false := by
  unfold ticket
  rw [Option.map_eq_none_iff]
  exact Table.get?_eq_none

theorem ticket_of_no_entries {db : Db} (h : db.tombstones.entries = []) (id : RecordId) :
    ticket db id = none := by
  unfold ticket Table.get?
  rw [h]
  rfl

theorem ticket_mark (rid id : RecordId) (state : DeletionState) (verifiedAt : Option Time)
    (w : World V) :
    ticket (apply (.setTombstoneState rid state verifiedAt) w).db id = ticket w.db id := by
  change ((w.db.tombstones.modify rid _).get? id).map _ = (w.db.tombstones.get? id).map _
  rw [Table.get?_modify]
  split
  · rw [Option.map_map]
    rfl
  · rfl

/-- A request takes over the mode of a tombstone, never the job. -/
theorem ticket_tombstone (rid id : RecordId) (mode : DeletionMode) (jobId : OpId)
    (state : DeletionState) (w : World V) :
    ticket (apply (.tombstone rid mode jobId state) w).db id =
      if rid = id then some (((ticket w.db id).map Prod.fst).getD jobId, mode)
      else ticket w.db id := by
  change ((w.db.tombstones.set rid _).get? id).map _ = _
  rw [Table.get?_set]
  by_cases h : rid = id
  · subst h
    unfold ticket
    cases w.db.tombstones.get? rid <;> simp [upsertTombstone]
  · rw [if_neg h, if_neg h]
    rfl

theorem ticket_apply {c : Commit V} (h : isTombstone c = false) (w : World V) (id : RecordId) :
    ticket (apply c w).db id = ticket w.db id := by
  cases c with
  | tombstone rid mode jobId state => cases h
  | setTombstoneState rid state verifiedAt => exact ticket_mark rid id state verifiedAt w
  | registerGeneration generation modelId status =>
    simp only [apply, World.stamp]
    split <;> rfl
  | _ => rfl

theorem isTombstone_of_isIndexWork {c : Commit V} (h : isIndexWork c = true) :
    isTombstone c = false := by
  cases c <;> first | rfl | cases h

theorem ticket_tombstoneAll (ids : List RecordId) (mode : DeletionMode) (jobId : OpId)
    (w : World V) (id : RecordId) :
    ticket ((tombstoneAll ids mode jobId).final w).db id =
      if id ∈ ids then some (((ticket w.db id).map Prod.fst).getD jobId, mode)
      else ticket w.db id := by
  induction ids generalizing w with
  | nil => rfl
  | cons rid rest ih =>
    change ticket ((tombstoneAll rest mode jobId).final
      (apply (.tombstone rid mode jobId .canonicalTombstoned) w)).db id = _
    rw [ih, ticket_tombstone]
    by_cases hr : rid = id
    · subst hr
      simp
    · have hr' : ¬ id = rid := fun h => hr h.symm
      simp [hr, hr']

theorem ticket_deletion {svc : DeletionService V} (hsvc : ∀ s ∈ svc.registry, IndexOnly s)
    (jobId : OpId) (ids : List RecordId) (mode : DeletionMode)
    (g : RecordId → Option (OpId × DeletionMode)) :
    DeletionInvariant svc jobId ids mode fun w => ∀ id, ticket w.db id = g id where
  clock _ hw := hw
  mark rid _ state verifiedAt w hw id := (ticket_mark rid id state verifiedAt w).trans (hw id)
  ack _ _ _ _ hw := hw
  erase _ _ _ _ hw := hw
  rebuild _ _ hw := hw
  remove s hs := ((hsvc s hs).remove_uses ids).preserves fun _ w hc hw id =>
    (ticket_apply (isTombstone_of_isIndexWork hc) w id).trans (hw id)
  absent s hs rid := ((hsvc s hs).absent_uses rid).preserves fun _ w hc hw id =>
    (ticket_apply (isTombstone_of_isIndexWork hc) w id).trans (hw id)

theorem ticket_request {svc : DeletionService V} (hsvc : ∀ s ∈ svc.registry, IndexOnly s)
    (recordId : RecordId) (mode : DeletionMode) (includeDependents : Bool) (w : World V)
    (id : RecordId) :
    ticket ((requestDeletion svc recordId mode includeDependents).final w).db id =
      if id ∈ covered w.db recordId includeDependents then
        some (((ticket w.db id).map Prod.fst).getD w.operationIds, mode)
      else ticket w.db id := by
  rw [requestDeletion_final]
  exact (ticket_deletion hsvc _ _ _ _).purgeAndVerify _ _
    (fun id => ticket_tombstoneAll _ mode w.operationIds (apply .newOperationId w) id) id

/-- The status of the job names exactly the ids, in the mode, and a retry targets them. -/
def Accounted (db : Db) (jobId : OpId) (ids : List RecordId) (mode : DeletionMode) : Prop :=
  ∃ status, deletionStatus db jobId = some status ∧ (∀ id, id ∈ status.recordIds ↔ id ∈ ids) ∧
    status.mode = mode ∧ retryTarget db jobId = some (status.recordIds, mode)

theorem rollUp_isSome {states : List DeletionState} (h : states ≠ []) :
    (rollUp states).isSome = true := by
  obtain ⟨state, rest, rfl⟩ := List.exists_cons_of_ne_nil h
  unfold rollUp
  rw [List.find?_isSome]
  refine ⟨state, ?_, decide_eq_true List.mem_cons_self⟩
  cases state <;> decide

theorem accounted_iff (db : Db) (jobId : OpId) {ids : List RecordId} (mode : DeletionMode)
    (hids : ids ≠ []) (hmode : ∀ id ∈ ids, ∀ t, (id, t) ∈ jobRows db jobId → t.mode = mode) :
    Accounted db jobId ids mode ↔ ∀ id, id ∈ (jobRows db jobId).map Prod.fst ↔ id ∈ ids := by
  unfold Accounted deletionStatus retryTarget
  cases hrows : jobRows db jobId with
  | nil =>
    constructor
    · rintro ⟨_, hstatus, _⟩
      cases hstatus
    · intro h
      obtain ⟨id, rest, rfl⟩ := List.exists_cons_of_ne_nil hids
      cases (h id).mpr List.mem_cons_self
  | cons row rows =>
    have hstates : (row :: rows).map (fun r => r.2.state) ≠ [] := List.cons_ne_nil _ _
    obtain ⟨state, hstate⟩ := Option.isSome_iff_exists.mp (rollUp_isSome hstates)
    dsimp only
    rw [hstate]
    constructor
    · rintro ⟨_, hstatus, hmem, _, _⟩
      cases hstatus
      exact hmem
    · intro h
      have hrow : row.2.mode = mode := hmode row.1 ((h row.1).mp List.mem_cons_self) row.2
        (by rw [hrows]; exact List.mem_cons_self)
      exact ⟨_, rfl, h, hrow, by rw [hrow]⟩

def JobsDrawn (w : World V) : Prop :=
  ∀ id jobId mode, ticket w.db id = some (jobId, mode) → jobId < w.operationIds

theorem operationIds_apply (c : Commit V) (w : World V) :
    w.operationIds ≤ (apply c w).operationIds := by
  cases c <;> first | exact Nat.le_refl _ | exact Nat.le_succ _

theorem operationIds_final {α : Type} (p : Prog V α) (w : World V) :
    w.operationIds ≤ (p.final w).operationIds :=
  (Proc.Uses.of_forall (P := fun _ => True) (fun _ => trivial) p).run
    (R := fun s t : World V => s.operationIds ≤ t.operationIds) (fun _ => Nat.le_refl _)
    (fun _ _ _ h h' => Nat.le_trans h h') (fun c t _ => operationIds_apply c t) w

theorem JobsDrawn.apply {c : Commit V} (hc : isTombstone c = false) {w : World V}
    (h : JobsDrawn w) : JobsDrawn (apply c w) := by
  intro id jobId mode hid
  rw [ticket_apply hc] at hid
  exact Nat.lt_of_lt_of_le (h id jobId mode hid) (operationIds_apply c w)

theorem operationIds_request (svc : DeletionService V) (recordId : RecordId)
    (mode : DeletionMode) (includeDependents : Bool) (w : World V) :
    w.operationIds < ((requestDeletion svc recordId mode includeDependents).final w).operationIds := by
  rw [requestDeletion_final]
  refine Nat.lt_of_lt_of_le ?_ (operationIds_final _ _)
  refine Nat.lt_of_lt_of_le ?_ (operationIds_final _ _)
  exact Nat.lt_succ_self w.operationIds

theorem JobsDrawn.request {svc : DeletionService V} (hsvc : ∀ s ∈ svc.registry, IndexOnly s)
    (recordId : RecordId) (mode : DeletionMode) (includeDependents : Bool) {w : World V}
    (h : JobsDrawn w) : JobsDrawn ((requestDeletion svc recordId mode includeDependents).final w) := by
  intro id jobId m hid
  have hdrawn := operationIds_request svc recordId mode includeDependents w
  rw [ticket_request hsvc] at hid
  split at hid
  · cases hticket : ticket w.db id with
    | none =>
      rw [hticket] at hid
      cases hid
      exact hdrawn
    | some old =>
      rw [hticket] at hid
      cases hid
      exact Nat.lt_trans (h id old.1 old.2 hticket) hdrawn
  · exact Nat.lt_trans (h id jobId m hid) hdrawn

theorem jobsDrawn_of_reachable {s : Strata} {w : World Memory} (h : Reachable s w) :
    JobsDrawn w := by
  refine h.invariant ?_ (kept_by_calls (fun c w hc hw => hw.apply hc)
    fun recordId mode includeDependents w hw =>
      hw.request (engine_indexOnly s.engine) recordId mode includeDependents)
  intro w hw id jobId mode hid
  rw [hw.db] at hid
  cases hid

theorem mem_jobRows_request {svc : DeletionService V} (hsvc : ∀ s ∈ svc.registry, IndexOnly s)
    (recordId : RecordId) (mode : DeletionMode) (includeDependents : Bool) {w : World V}
    (hw : JobsDrawn w) (id : RecordId) :
    (∃ t, (id, t) ∈ jobRows ((requestDeletion svc recordId mode includeDependents).final w).db
        w.operationIds) ↔
      id ∈ covered w.db recordId includeDependents ∧ w.db.isTombstoned id = false := by
  have hticket := ticket_request hsvc recordId mode includeDependents w id
  rw [← ticket_eq_none]
  constructor
  · rintro ⟨t, ht⟩
    rw [ticket_eq_some.mpr ⟨t, ht, rfl⟩] at hticket
    split at hticket
    · rename_i hid
      refine ⟨hid, ?_⟩
      cases hold : ticket w.db id with
      | none => rfl
      | some old =>
        rw [hold] at hticket
        have hjob : w.operationIds = old.1 := (Prod.mk.inj (Option.some.inj hticket)).1
        exact absurd hjob (Nat.ne_of_gt (hw id old.1 old.2 hold))
    · exact absurd (hw id _ _ hticket.symm) (Nat.lt_irrefl _)
  · rintro ⟨hid, hnone⟩
    rw [if_pos hid, hnone] at hticket
    obtain ⟨t, ht, _⟩ := ticket_eq_some.mp hticket
    exact ⟨t, ht⟩

/-- A request returns its job, and the job accounts for the request exactly when none
of the covered records was tombstoned before. -/
theorem accounted_after_iff (s : Strata) {w : World Memory} (hw : Reachable s w)
    (recordId : RecordId) (mode : DeletionMode) (includeDependents : Bool) :
    ∃ jobId u, (requestDeletion s.engine.deletion recordId mode includeDependents).run w =
        (.ok jobId, u) ∧
      (Accounted u.db jobId (covered w.db recordId includeDependents) mode ↔
        ∀ id ∈ covered w.db recordId includeDependents, w.db.isTombstoned id = false) := by
  let ids := covered w.db recordId includeDependents
  let u := (requestDeletion s.engine.deletion recordId mode includeDependents).final w
  have hsvc : ∀ t ∈ s.engine.deletion.registry, IndexOnly t := engine_indexOnly s.engine
  have hrows := mem_jobRows_request hsvc recordId mode includeDependents
    (jobsDrawn_of_reachable hw)
  have hmode : ∀ id ∈ ids, ∀ t, (id, t) ∈ jobRows u.db w.operationIds → t.mode = mode := by
    intro id hid t ht
    have hticket := ticket_request hsvc recordId mode includeDependents w id
    rw [if_pos hid, ticket_eq_some.mpr ⟨t, ht, rfl⟩] at hticket
    exact (Prod.mk.inj (Option.some.inj hticket)).2
  refine ⟨w.operationIds, u, ?_, ?_⟩
  · have hlawful : ∀ t ∈ s.engine.deletion.registry, Lawful t := engine_lawful s.engine
    have hrun := congrArg Prod.fst (requestDeletion_run hlawful recordId mode includeDependents w)
    exact Prod.ext hrun rfl
  have hids : ids ≠ [] := List.cons_ne_nil _ _
  rw [accounted_iff u.db w.operationIds mode hids hmode]
  have hmem : ∀ id, id ∈ (jobRows u.db w.operationIds).map Prod.fst ↔
      id ∈ ids ∧ w.db.isTombstoned id = false := by
    intro id
    rw [← hrows, List.mem_map]
    constructor
    · rintro ⟨⟨_, t⟩, ht, rfl⟩
      exact ⟨t, ht⟩
    · rintro ⟨t, ht⟩
      exact ⟨(id, t), ht, rfl⟩
  constructor
  · exact fun h id hid => ((hmem id).mp ((h id).mpr hid)).2
  · intro h id
    rw [hmem]
    exact ⟨And.left, fun hid => ⟨hid, h id hid⟩⟩

theorem accounted_after_escalation :
    let w := runCalls plainStrata plainWorld [.writeMemory "tea" {}, .requestDeletion 1 .logical true]
    ∃ jobId u, (requestDeletion plainStrata.engine.deletion 1 .hard true).run w = (.ok jobId, u) ∧
      (Accounted u.db jobId (covered w.db 1 true) .hard ↔
        ∀ id ∈ covered w.db 1 true, w.db.isTombstoned id = false) :=
  accounted_after_iff plainStrata ⟨plainWorld, _, started_plainWorld, rfl⟩ 1 .hard true

/-- The escalating job is done and unknown: it owns no tombstone. -/
theorem escalated_job_unknown :
    let w := runCalls plainStrata plainWorld [.writeMemory "tea" {}, .requestDeletion 1 .logical true]
    let u := after plainStrata w (.requestDeletion 1 .hard true)
    Reachable plainStrata w ∧ EndsIn [1] .verified u ∧ covered w.db 1 true = [1] ∧
      deletionStatus u.db w.operationIds = none ∧ retryTarget u.db w.operationIds = none :=
  ⟨⟨plainWorld, _, started_plainWorld, rfl⟩, by decide⟩

def versionsOf (c : Canonical) (id : RecordId) : List Version :=
  c.versions.filter fun v => v.recordId = id

def Kept (id : RecordId) (c d : Canonical) : Prop :=
  d.records.contains id = c.records.contains id ∧ versionsOf d id = versionsOf c id

theorem kept_setStatus (id rid : RecordId) (c d : Canonical) (now : Time) (status : Status)
    (h : Kept id c d) : Kept id c (d.setStatus now rid status) := by
  refine ⟨?_, h.2⟩
  change (d.records.modify rid _).contains id = _
  rw [Table.contains_modify]
  exact h.1

theorem kept_deleteRow {id rid : RecordId} (hne : id ≠ rid) {c d : Canonical} (h : Kept id c d) :
    Kept id c (d.deleteRow rid) := by
  constructor
  · change (d.records.erase rid).contains id = _
    rw [Table.contains_erase, decide_eq_false hne]
    exact h.1
  · refine Eq.trans ?_ h.2
    change (d.versions.filter fun v => decide (v.recordId ≠ rid)).filter _ = d.versions.filter _
    rw [List.filter_filter]
    refine List.filter_congr fun v _ => ?_
    by_cases hv : v.recordId = id
    · simp [hv, hne]
    · simp [hv]

theorem kept_deletion {svc : DeletionService V} (hsvc : ∀ s ∈ svc.registry, IndexOnly s)
    (jobId : OpId) {ids : List RecordId} {mode : DeletionMode} (c : Canonical) {id : RecordId}
    (hid : mode = .hard → id ∉ ids) :
    DeletionInvariant svc jobId ids mode fun w => Kept id c w.db.canonical where
  clock _ hw := hw
  mark _ _ _ _ _ hw := hw
  ack _ _ _ _ hw := hw
  erase hmode rid hrid _ hw := by
    refine kept_deleteRow (fun h => hid hmode ?_) hw
    rw [h]
    exact hrid
  rebuild _ _ hw := hw
  remove s hs := ((hsvc s hs).remove_uses ids).preserves fun _ w hc hw =>
    (congrArg (Kept id c) (congrArg Prod.fst (authority_apply hc w))).mpr hw
  absent s hs rid := ((hsvc s hs).absent_uses rid).preserves fun _ w hc hw =>
    (congrArg (Kept id c) (congrArg Prod.fst (authority_apply hc w))).mpr hw

/-- When the first row of the job is hard, each row is, or a hard request covered it. -/
def ModeShared (db : Db) (asked : List RecordId) (jobId : OpId) : Prop :=
  ∀ ids, retryTarget db jobId = some (ids, .hard) →
    ∀ id ∈ ids, ticket db id = some (jobId, .hard) ∨ id ∈ asked

/-- Runs of requests and retries: the world, and the records that hard requests have
covered. At the start those are the records whose tombstone is hard. -/
inductive Requests (svc : DeletionService V) (w₀ : World V) : World V → List RecordId → Prop where
  | start {asked : List RecordId}
      (h : ∀ id jobId, ticket w₀.db id = some (jobId, .hard) → id ∈ asked) : Requests svc w₀ w₀ asked
  | request {w : World V} {asked : List RecordId} (before : Requests svc w₀ w asked)
      (recordId : RecordId) (mode : DeletionMode) (includeDependents : Bool) :
      Requests svc w₀ ((requestDeletion svc recordId mode includeDependents).final w)
        (if mode = .hard then covered w.db recordId includeDependents ++ asked else asked)
  | retry {w : World V} {asked : List RecordId} (before : Requests svc w₀ w asked) (jobId : OpId)
      (shared : ModeShared w.db asked jobId) :
      Requests svc w₀ ((retry svc jobId).final w) asked

/-- A tombstone is hard only where a hard request covered the record. -/
theorem Requests.asked_of_hard {svc : DeletionService V} (hsvc : ∀ s ∈ svc.registry, IndexOnly s)
    {w₀ w : World V} {asked : List RecordId} (h : Requests svc w₀ w asked) (id : RecordId)
    (jobId : OpId) (hid : ticket w.db id = some (jobId, .hard)) : id ∈ asked := by
  induction h generalizing id jobId with
  | start h => exact h id jobId hid
  | request before recordId mode includeDependents ih =>
    rw [ticket_request hsvc] at hid
    split at hid
    · rename_i hcovered
      obtain ⟨_, hmode⟩ := Prod.mk.inj (Option.some.inj hid)
      rw [if_pos hmode]
      exact List.mem_append_left _ hcovered
    · split
      · exact List.mem_append_right _ (ih id jobId hid)
      · exact ih id jobId hid
  | @retry w asked before jobId' shared ih =>
    refine ih id jobId ?_
    rw [retry_final] at hid
    split at hid
    · exact hid
    · exact ((ticket_deletion hsvc jobId' _ _ fun i => ticket w.db i).purgeAndVerify _ w
        (fun _ => rfl) id).symm.trans hid

/-- In every run whose retried jobs share their mode, a record that no hard request
covered keeps its row and its version history. -/
theorem kept_unless_asked (svc : DeletionService V) (hsvc : ∀ s ∈ svc.registry, IndexOnly s)
    {w₀ w : World V} {asked : List RecordId} (h : Requests svc w₀ w asked) (id : RecordId)
    (hid : id ∉ asked) : Kept id w₀.db.canonical w.db.canonical := by
  induction h with
  | start _ => exact ⟨rfl, rfl⟩
  | @request w asked before recordId mode includeDependents ih =>
    have hold : id ∉ asked := fun hm => hid (by
      split
      · exact List.mem_append_right _ hm
      · exact hm)
    have hnew : mode = .hard → id ∉ covered w.db recordId includeDependents := fun hmode hm => hid (by
      rw [if_pos hmode]
      exact List.mem_append_left _ hm)
    exact requestDeletion_keeps (I := fun t : World V => Kept id w₀.db.canonical t.db.canonical)
      (ih hold) (fun rid _ t ht => kept_setStatus id rid _ _ _ .deleted ht)
      (kept_deletion hsvc _ _ hnew)
  | @retry w asked before jobId shared ih =>
    rw [retry_final]
    cases htarget : retryTarget w.db jobId with
    | none => exact ih hid
    | some target =>
      obtain ⟨ids, mode⟩ := target
      refine (kept_deletion hsvc jobId _ ?_).purgeAndVerify _ _ (ih hid)
      rintro rfl hm
      rcases shared ids htarget id hm with hhard | hasked
      · exact hid (before.asked_of_hard hsvc id jobId hhard)
      · exact hid hasked

theorem kept_after_retry :
    let w₀ := runCalls plainStrata plainWorld
      [.writeMemory "tea" {}, .writeMemory "milk" {}, .linkSource 1 2]
    let w := (requestDeletion plainStrata.engine.deletion 1 .logical true).final w₀
    Kept 2 w₀.db.canonical ((retry plainStrata.engine.deletion w₀.operationIds).final w).db.canonical :=
  kept_unless_asked plainStrata.engine.deletion (engine_indexOnly _)
    (.retry (.request (.start fun id jobId h => by
      rw [ticket_of_no_entries (by decide)] at h
      cases h) 1 .logical true) _ fun ids h => by
        rw [show retryTarget _ _ = some ([1, 2], .logical) by decide] at h
        cases h) 2 List.not_mem_nil

/-- Two linked records are deleted logically, then one of them hard and alone. Retrying
the first job erases the other too. -/
theorem logical_record_erased_by_retry :
    let w₀ := runCalls plainStrata plainWorld
      [.writeMemory "tea" {}, .writeMemory "milk" {}, .linkSource 1 2]
    let w₁ := after plainStrata w₀ (.requestDeletion 1 .logical true)
    let w₂ := after plainStrata w₁ (.requestDeletion 1 .hard false)
    covered w₁.db 1 false = [1] ∧ (w₂.db.readOne 2).isSome = true ∧
      (after plainStrata w₂ (.retryDeletion w₀.operationIds)).db.readOne 2 = none := by
  decide

end StrataMemory.DeletionJobs
