import StrataMemory.SurfaceRounds

set_option autoImplicit false

namespace StrataMemory.DeletionMachine
open KeyedTables Records Tables Procedures Worlds CommitEffects
open ManagedSurfaces DeletionFlows SurfaceRounds

variable {V : Type}

def stateOf (db : Db) (id : RecordId) : Option DeletionState :=
  (db.tombstones.get? id).map Tombstone.state

def EndsIn (ids : List RecordId) (state : DeletionState) (w : World V) : Prop :=
  ∀ id ∈ ids, stateOf w.db id = some state

instance (ids : List RecordId) (state : DeletionState) (w : World V) :
    Decidable (EndsIn ids state w) :=
  inferInstanceAs (Decidable (∀ id ∈ ids, stateOf w.db id = some state))

theorem stateOf_isSome (db : Db) (id : RecordId) :
    (stateOf db id).isSome = db.isTombstoned id :=
  Option.isSome_map

theorem stateOf_mark (rid id : RecordId) (state : DeletionState) (verifiedAt : Option Time)
    (w : World V) : stateOf (apply (.setTombstoneState rid state verifiedAt) w).db id =
      if rid = id then (stateOf w.db id).map fun _ => state else stateOf w.db id := by
  change ((w.db.tombstones.modify rid _).get? id).map Tombstone.state = _
  rw [Table.get?_modify]
  split
  · rw [Option.map_map, stateOf, Option.map_map]
    rfl
  · rfl

theorem markAll_returns (ids : List RecordId) (state : DeletionState) (verifiedAt : Option Time) :
    (markAll ids state verifiedAt : Prog V Unit).Returns :=
  Proc.Returns.forM _ _ fun _ _ => returns_commit _

theorem markAll_uses {P : Commit V → Prop} (ids : List RecordId) (state : DeletionState)
    (verifiedAt : Option Time) (hP : ∀ id ∈ ids, P (.setTombstoneState id state verifiedAt)) :
    (markAll ids state verifiedAt).Uses P :=
  Proc.Uses.forM _ _ fun id hid => (uses_commit _ _).mpr (hP id hid)

theorem markAll_endsIn (ids : List RecordId) (state : DeletionState) (verifiedAt : Option Time)
    (w : World V) (h : ∀ id ∈ ids, w.db.isTombstoned id = true) :
    EndsIn ids state ((markAll ids state verifiedAt).final w) := by
  have hfinal : ∀ (ids : List RecordId) (w : World V) (id : RecordId),
      stateOf ((markAll ids state verifiedAt).final w).db id =
        if id ∈ ids then (stateOf w.db id).map fun _ => state else stateOf w.db id := by
    intro ids
    induction ids with
    | nil => exact fun _ _ => rfl
    | cons rid rest ih =>
      intro w id
      change stateOf ((markAll rest state verifiedAt).final
        (apply (.setTombstoneState rid state verifiedAt) w)).db id = _
      rw [ih, stateOf_mark]
      by_cases hr : rid = id
      · subst hr
        simp [Function.comp_def]
      · have hr' : ¬ id = rid := fun he => hr he.symm
        simp [hr, hr']
  intro id hid
  rw [hfinal, if_pos hid]
  have hsome : (stateOf w.db id).isSome = true := (stateOf_isSome _ _).trans (h id hid)
  obtain ⟨s, hs⟩ := Option.isSome_iff_exists.mp hsome
  rw [hs]
  rfl

theorem tombstoneAll_uses {P : Commit V → Prop} (ids : List RecordId) (mode : DeletionMode)
    (jobId : OpId) (hP : ∀ id ∈ ids, P (.tombstone id mode jobId .canonicalTombstoned)) :
    (tombstoneAll ids mode jobId).Uses P :=
  Proc.Uses.forM _ _ fun id hid => (uses_commit _ _).mpr (hP id hid)

theorem tombstoneAll_run (ids : List RecordId) (mode : DeletionMode) (jobId : OpId)
    (w : World V) : (tombstoneAll ids mode jobId).run w =
      (.ok (), (tombstoneAll ids mode jobId).final w) :=
  ((Proc.Returns.forM _ _ fun _ _ => returns_commit _).run w).choose_spec

theorem tombstoneAll_tombstones (ids : List RecordId) (mode : DeletionMode) (jobId : OpId)
    (w : World V) :
    ∀ id ∈ ids, ((tombstoneAll ids mode jobId).final w).db.isTombstoned id = true := by
  induction ids generalizing w with
  | nil => exact fun _ h => nomatch h
  | cons rid rest ih =>
    intro id hid
    change ((tombstoneAll rest mode jobId).final
      (apply (.tombstone rid mode jobId .canonicalTombstoned) w)).db.isTombstoned id = true
    rcases List.mem_cons.mp hid with rfl | hid
    · refine final_isTombstoned _ _ _ ?_
      change (w.db.tombstones.set id _).contains id = true
      rw [Table.contains_set, decide_eq_true rfl, Bool.true_or]
    · exact ih _ id hid

def confirm (svc : DeletionService V) (ids : List RecordId) (mode : DeletionMode) :
    Prog V Bool := do
  if ← verifyNotRetrievable svc.registry ids mode then
    let now ← nowMs
    markAll ids .verified (some now)
    return true
  else return false

def eraseWhenHard (svc : DeletionService V) (ids : List RecordId) : DeletionMode → Prog V Unit
  | .logical => return ()
  | .hard => hardErase svc ids

theorem purgeRound_eq (svc : DeletionService V) (jobId : OpId) (ids : List RecordId)
    (mode : DeletionMode) : purgeRound svc jobId ids mode = (do
      markAll ids .indexDeleting
      let report ← purge svc.registry ids
      recordReport jobId report
      if report.allTrue then do
        eraseWhenHard svc ids mode
        confirm svc ids mode
      else return false) := by
  have hconfirm : confirm svc ids mode = (do
      let b ← verifyNotRetrievable svc.registry ids mode
      if (!b) = true then return false
      else do
        let now ← nowMs
        markAll ids .verified (some now)
        return true) := by
    unfold confirm
    refine bind_congr fun b => ?_
    cases b <;> rfl
  unfold purgeRound
  refine bind_congr fun _ => bind_congr fun report => bind_congr fun _ => ?_
  cases report.allTrue with
  | false => rfl
  | true =>
    rw [hconfirm]
    cases mode <;> rfl

/-- The verification that ended a deletion: asked from `v` on, right after the erasure,
every surface answered absent for every id, and nothing but the marks was written after
the last answer. -/
structure Verified (svc : DeletionService V) (ids : List RecordId) (mode : DeletionMode)
    (v u : World V) : Prop where
  erasure : ∃ x, v = (eraseWhenHard svc ids mode).final x
  answers : ∃ v', AnswersAbsent (questions svc.registry ids) v v' ∧
    u = (markAll ids .verified (some v'.now)).final (apply .readClock v')
  marked : EndsIn ids .verified u
  tombstoned : ∀ id ∈ ids, u.db.isTombstoned id = true
  erased : mode = .hard → ∀ id ∈ ids, Erased u.db.canonical id

theorem markAll_final (ids : List RecordId) (state : DeletionState)
    (verifiedAt : Option Time) (w : World V) : ∃ tombstones,
    (markAll ids state verifiedAt).final w = { w with db := { w.db with tombstones := tombstones } } := by
  induction ids generalizing w with
  | nil => exact ⟨w.db.tombstones, rfl⟩
  | cons id rest ih => exact ih (apply (.setTombstoneState id state verifiedAt) w)

theorem confirm_run {svc : DeletionService V} (hr : ∀ s ∈ svc.registry, Lawful s)
    (hnames : (svc.registry.map ManagedSurface.name).Nodup) (ids : List RecordId)
    (mode : DeletionMode) (x : World V) :
    ∃ b u, (confirm svc ids mode).run ((eraseWhenHard svc ids mode).final x) = (.ok b, u) ∧
      (b = true → Verified svc ids mode ((eraseWhenHard svc ids mode).final x) u) := by
  let w := (eraseWhenHard svc ids mode).final x
  obtain ⟨b, v, hv, hauth, hb⟩ := verifyNotRetrievable_run hr hnames ids mode w
  unfold confirm
  rw [Proc.run_bind_ok hv]
  cases b with
  | false => exact ⟨false, v, rfl, nofun⟩
  | true =>
    obtain ⟨hanswers, hgone⟩ := hb rfl
    rw [List.all_eq_true] at hgone
    let marked : World V := (markAll ids .verified (some v.now)).final (apply .readClock v)
    have hmarked : (markAll ids .verified (some v.now)).run (apply .readClock v) =
        (.ok (), marked) := ((markAll_returns ids _ _).run _).choose_spec
    have htombstoned : ∀ id ∈ ids, (apply .readClock v).db.isTombstoned id = true := by
      intro id hid
      have h := hgone id hid
      unfold isGone at h
      exact (Bool.and_eq_true_iff.mp h).1
    refine ⟨true, marked, ?_, fun _ =>
      ⟨⟨x, rfl⟩, ⟨v, hanswers, rfl⟩, markAll_endsIn ids _ _ _ htombstoned, fun id hid =>
        final_isTombstoned _ _ id (htombstoned id hid), ?_⟩⟩
    · change (nowMs >>= fun now => markAll ids .verified (some now) >>= fun _ => pure true).run v = _
      rw [Proc.run_bind_ok (run_nowMs v), Proc.run_bind_ok hmarked]
      rfl
    · intro hmode id hid
      have h := hgone id hid
      subst hmode
      have hmissing : v.db.canonical.records.contains id = false := by
        simpa [isGone, Db.readOne, Table.contains] using (Bool.and_eq_true_iff.mp h).2
      obtain ⟨_, hmarks⟩ := markAll_final ids .verified (some v.now) (apply .readClock v)
      change Erased ((markAll ids .verified (some v.now)).final (apply .readClock v)).db.canonical id
      rw [hmarks]
      exact erased_of_missing hmissing

theorem recordReport_returns (jobId : OpId) (report : Report) :
    (recordReport jobId report : Prog V Unit).Returns :=
  Proc.Returns.forM _ _ fun _ _ => Proc.Returns.forM _ _ fun _ _ => returns_commit _

theorem eraseWhenHard_returns (svc : DeletionService V) (ids : List RecordId)
    (mode : DeletionMode) : (eraseWhenHard svc ids mode).Returns := by
  cases mode with
  | logical => exact Proc.Returns.pure _
  | hard =>
    refine Proc.Returns.bind (Proc.Returns.forM _ _ fun _ _ => returns_commit _) fun _ => ?_
    split
    · exact returns_commit _
    · exact Proc.Returns.pure _

/-- A round returns; when it says `VERIFIED`, its last part was a full verification. -/
theorem purgeRound_run {svc : DeletionService V} (hr : ∀ s ∈ svc.registry, Lawful s)
    (hnames : (svc.registry.map ManagedSurface.name).Nodup) (jobId : OpId) (ids : List RecordId)
    (mode : DeletionMode) (w : World V) :
    ∃ b u, (purgeRound svc jobId ids mode).run w = (.ok b, u) ∧
      (b = true → ∃ v cs q, Proc.Reaches (purgeRound svc jobId ids mode) w cs q v ∧
        Verified svc ids mode v u) := by
  rw [purgeRound_eq]
  obtain ⟨_, hmark⟩ := (markAll_returns (V := V) ids .indexDeleting none).run w
  obtain ⟨report, hpurge⟩ := (purgeInto_returns hr ids ∅).run
    ((markAll ids .indexDeleting).final w)
  let w₂ := (purgeInto ids svc.registry ∅).final ((markAll ids .indexDeleting).final w)
  obtain ⟨_, hreport⟩ := (recordReport_returns (V := V) jobId report).run w₂
  rw [Proc.run_bind_ok hmark, Proc.run_bind_ok (p := purge svc.registry ids) hpurge,
    Proc.run_bind_ok hreport]
  by_cases hall : report.allTrue = true
  · let w₃ := (recordReport jobId report).final w₂
    let w₄ := (eraseWhenHard svc ids mode).final w₃
    obtain ⟨_, herase⟩ := (eraseWhenHard_returns svc ids mode).run w₃
    obtain ⟨b, u, hu, hb⟩ := confirm_run hr hnames ids mode w₃
    have hlast : Proc.Reaches (if report.allTrue = true then
          eraseWhenHard svc ids mode >>= fun _ => confirm svc ids mode else pure false)
        w₃ ((eraseWhenHard svc ids mode).trace w₃) (confirm svc ids mode) w₄ := by
      rw [if_pos hall]
      exact Proc.Reaches.second _ herase
    rw [if_pos hall, Proc.run_bind_ok herase]
    exact ⟨b, u, hu, fun h => ⟨_, _, _, (Proc.Reaches.second _ hmark).trans
      ((Proc.Reaches.second _ hpurge).trans ((Proc.Reaches.second _ hreport).trans hlast)), hb h⟩⟩
  · rw [if_neg hall]
    exact ⟨false, _, rfl, nofun⟩

theorem purgeAndVerify_zero (svc : DeletionService V) (jobId : OpId) (ids : List RecordId)
    (mode : DeletionMode) : purgeAndVerify svc jobId ids mode 0 =
      (purgeRound svc jobId ids mode >>= fun b =>
        if b then pure () else markAll ids .manualAttention) := rfl

theorem purgeAndVerify_succ (svc : DeletionService V) (jobId : OpId) (ids : List RecordId)
    (mode : DeletionMode) (retries : ℕ) : purgeAndVerify svc jobId ids mode (retries + 1) =
      (purgeRound svc jobId ids mode >>= fun b =>
        if b then pure ()
        else markAll ids .partialFailure >>= fun _ =>
          purgeAndVerify svc jobId ids mode retries) := rfl

theorem confirm_returns {svc : DeletionService V} (hr : ∀ s ∈ svc.registry, Lawful s)
    (ids : List RecordId) (mode : DeletionMode) : (confirm svc ids mode).Returns := by
  refine Proc.Returns.bind ((verifyInto_returns hr ids ∅).bind fun results => ?_) fun b => ?_
  · split
    · exact Proc.Returns.pure _
    · exact fun w => ⟨_, congrArg Prod.fst (canonicallyGone_run mode ids w)⟩
  · split
    · exact Proc.Returns.bind returns_nowMs fun now =>
        (markAll_returns ids _ _).bind fun _ => Proc.Returns.pure _
    · exact Proc.Returns.pure _

theorem purgeRound_returns {svc : DeletionService V} (hr : ∀ s ∈ svc.registry, Lawful s)
    (jobId : OpId) (ids : List RecordId) (mode : DeletionMode) :
    (purgeRound svc jobId ids mode).Returns := by
  rw [purgeRound_eq]
  refine (markAll_returns ids _ _).bind fun _ => (purgeInto_returns hr ids ∅).bind fun report => ?_
  refine (recordReport_returns jobId report).bind fun _ => ?_
  split
  · exact (eraseWhenHard_returns svc ids mode).bind fun _ => confirm_returns hr ids mode
  · exact Proc.Returns.pure _

theorem purgeAndVerify_returns {svc : DeletionService V} (hr : ∀ s ∈ svc.registry, Lawful s)
    (jobId : OpId) (ids : List RecordId) (mode : DeletionMode) (retries : ℕ) :
    (purgeAndVerify svc jobId ids mode retries).Returns := by
  induction retries with
  | zero =>
    rw [purgeAndVerify_zero]
    refine (purgeRound_returns hr jobId ids mode).bind fun b => ?_
    split
    · exact Proc.Returns.pure _
    · exact markAll_returns ids _ _
  | succ retries ih =>
    rw [purgeAndVerify_succ]
    refine (purgeRound_returns hr jobId ids mode).bind fun b => ?_
    split
    · exact Proc.Returns.pure _
    · exact (markAll_returns ids _ _).bind fun _ => ih

theorem requestDeletion_run {svc : DeletionService V} (hr : ∀ s ∈ svc.registry, Lawful s)
    (recordId : RecordId) (mode : DeletionMode) (includeDependents : Bool) (w : World V) :
    (requestDeletion svc recordId mode includeDependents).run w = (.ok w.operationIds,
      (purgeAndVerify svc w.operationIds (covered w.db recordId includeDependents) mode
        svc.maxRetries).final
        ((tombstoneAll (covered w.db recordId includeDependents) mode w.operationIds).final
          (apply .newOperationId w))) := by
  let ids := covered w.db recordId includeDependents
  have hloop := (purgeAndVerify_returns hr w.operationIds ids mode svc.maxRetries).run
    ((tombstoneAll ids mode w.operationIds).final (apply .newOperationId w))
  obtain ⟨_, hloop⟩ := hloop
  change (tombstoneAll ids mode w.operationIds >>= fun _ =>
    purgeAndVerify svc w.operationIds ids mode svc.maxRetries >>= fun _ =>
      pure w.operationIds).run (apply .newOperationId w) = _
  rw [Proc.run_bind_ok (tombstoneAll_run ids mode w.operationIds _), Proc.run_bind_ok hloop]
  rfl

/-- The loop returns. Either some round verified, or every id waits for attention. -/
theorem purgeAndVerify_run {svc : DeletionService V} (hr : ∀ s ∈ svc.registry, Lawful s)
    (hnames : (svc.registry.map ManagedSurface.name).Nodup) (jobId : OpId) (ids : List RecordId)
    (mode : DeletionMode) (retries : ℕ) (w : World V)
    (hids : ∀ id ∈ ids, w.db.isTombstoned id = true) :
    ∃ u, (purgeAndVerify svc jobId ids mode retries).run w = (.ok (), u) ∧
      ((∃ v cs q, Proc.Reaches (purgeAndVerify svc jobId ids mode retries) w cs q v ∧
        Verified svc ids mode v u) ∨ EndsIn ids .manualAttention u) := by
  induction retries generalizing w with
  | zero =>
    obtain ⟨b, v, hv, hb⟩ := purgeRound_run hr hnames jobId ids mode w
    rw [purgeAndVerify_zero, Proc.run_bind_ok hv]
    cases b with
    | true =>
      obtain ⟨x, cs, q, hreach, hverified⟩ := hb rfl
      exact ⟨v, rfl, .inl ⟨x, cs, _, hreach.first _, hverified⟩⟩
    | false =>
      obtain ⟨_, hmark⟩ := (markAll_returns ids .manualAttention none).run v
      exact ⟨_, hmark, .inr (markAll_endsIn ids _ _ v fun id hid =>
        run_isTombstoned hv id (hids id hid))⟩
  | succ retries ih =>
    obtain ⟨b, v, hv, hb⟩ := purgeRound_run hr hnames jobId ids mode w
    rw [purgeAndVerify_succ, Proc.run_bind_ok hv]
    cases b with
    | true =>
      obtain ⟨x, cs, q, hreach, hverified⟩ := hb rfl
      exact ⟨v, rfl, .inl ⟨x, cs, _, hreach.first _, hverified⟩⟩
    | false =>
      obtain ⟨_, hmark⟩ := (markAll_returns ids .partialFailure none).run v
      have hv' : ∀ id ∈ ids,
          ((markAll ids .partialFailure).final v).db.isTombstoned id = true := fun id hid =>
        final_isTombstoned _ v id (run_isTombstoned hv id (hids id hid))
      obtain ⟨u, hu, hcase⟩ := ih _ hv'
      refine ⟨u, (Proc.run_bind_ok hmark).trans hu, hcase.imp_left ?_⟩
      rintro ⟨x, cs, q, hreach, hverified⟩
      exact ⟨x, _, q, (Proc.Reaches.second _ hv).trans
        ((Proc.Reaches.second _ hmark).trans hreach), hverified⟩

/-- The commits of a round other than its opening marks and the purge. -/
def isClosingWork : Commit V → Bool
  | .hardDelete _ => true
  | .setTombstoneState _ state _ => state ≠ .indexDeleting
  | c => isIndexWork c

theorem isClosingWork_of_isIndexWork {c : Commit V} (h : isIndexWork c = true) :
    isClosingWork c = true := by
  cases c <;> first | rfl | cases h

theorem confirm_uses {P : Commit V → Prop} {svc : DeletionService V}
    (habsent : ∀ s ∈ svc.registry, ∀ id, (s.absent id).Uses P) (ids : List RecordId)
    (mode : DeletionMode) (hclock : P .readClock)
    (hmark : ∀ id ∈ ids, ∀ now, P (.setTombstoneState id .verified (some now))) :
    (confirm svc ids mode).Uses P := by
  refine Proc.Uses.bind ?_ fun b => ?_
  · refine (verifyInto_uses habsent ids ∅).bind fun results => ?_
    split
    · trivial
    · exact canonicallyGone_uses _ mode ids
  · split
    · refine Proc.Uses.bind ((uses_nowMs _).mpr hclock) fun now => ?_
      exact (markAll_uses ids _ _ fun id hid => hmark id hid now).bind fun _ => trivial
    · trivial

theorem eraseWhenHard_uses {P : Commit V → Prop} (svc : DeletionService V) (ids : List RecordId)
    (mode : DeletionMode) (hdelete : ∀ id ∈ ids, P (.hardDelete id)) (hrebuild : P .rebuildPostings) :
    (eraseWhenHard svc ids mode).Uses P := by
  cases mode with
  | logical => trivial
  | hard =>
    refine Proc.Uses.bind (Proc.Uses.forM _ _ fun id hid => (uses_commit _ _).mpr (hdelete id hid))
      fun _ => ?_
    split
    · exact (uses_commit _ _).mpr hrebuild
    · trivial

theorem purgeRound_atMost {svc : DeletionService V} (hr : ∀ s ∈ svc.registry, Lawful s)
    (jobId : OpId) (ids : List RecordId) (mode : DeletionMode) {P : Commit V → Bool} {m n : ℕ}
    (hmark : (markAll ids .indexDeleting).AtMost P m)
    (hpurge : (purge svc.registry ids).AtMost P n)
    (hclosing : ∀ c, isClosingWork c = true → P c = false) :
    (purgeRound svc jobId ids mode).AtMost P (m + n) := by
  rw [purgeRound_eq]
  have hreport : ∀ report, (recordReport jobId report).AtMost P 0 := fun report =>
    Proc.AtMost.of_uses (Proc.Uses.forM _ _ fun _ _ => Proc.Uses.forM _ _ fun _ _ =>
      (uses_commit _ _).mpr (hclosing _ rfl))
  have hrest : ∀ report : Report, (if report.allTrue then
      eraseWhenHard svc ids mode >>= fun _ => confirm svc ids mode else pure false).AtMost P 0 := by
    intro report
    split
    · have herase := eraseWhenHard_uses (P := fun c => P c = false) svc ids mode
        (fun _ _ => hclosing _ rfl) (hclosing _ rfl)
      have hconfirm := confirm_uses (P := fun c => P c = false) (fun s hs id =>
        ((hr s hs).absent_uses id).mono fun c hc => hclosing c (isClosingWork_of_isIndexWork hc))
        ids mode (hclosing _ rfl) fun _ _ _ => hclosing _ rfl
      exact (Proc.AtMost.of_uses herase).bind fun _ => Proc.AtMost.of_uses hconfirm
    · trivial
  exact hmark.bind fun _ => hpurge.bind fun report => (hreport report).bind fun _ => hrest report

theorem purgeAndVerify_atMost (svc : DeletionService V) (jobId : OpId) (ids : List RecordId)
    (mode : DeletionMode) {P : Commit V → Bool}
    (hround : (purgeRound svc jobId ids mode).AtMost P 1)
    (hclosing : ∀ c, isClosingWork c = true → P c = false) (retries : ℕ) :
    (purgeAndVerify svc jobId ids mode retries).AtMost P (retries + 1) := by
  have hmark : ∀ state, state ≠ .indexDeleting → (markAll ids state).AtMost P 0 := fun state hs =>
    Proc.AtMost.of_uses (markAll_uses ids state none fun _ _ => hclosing _ (decide_eq_true hs))
  induction retries with
  | zero =>
    rw [purgeAndVerify_zero]
    refine hround.bind (n := 0) fun b => ?_
    cases b with
    | true => trivial
    | false => exact hmark .manualAttention nofun
  | succ retries ih =>
    rw [purgeAndVerify_succ]
    refine (hround.bind (n := 0 + (retries + 1)) fun b => ?_).mono (by omega)
    cases b with
    | true => trivial
    | false => exact (hmark .partialFailure nofun).bind fun _ => ih

def enters (name : String) : Commit V → Bool
  | .surfaceRemove n => n = name
  | _ => false

/-- A round starts: the requested record is marked `INDEX_DELETING`. -/
def startsRound (id : RecordId) : Commit V → Bool
  | .setTombstoneState rid .indexDeleting _ => rid = id
  | _ => false

theorem startsRound_closing (id : RecordId) (c : Commit V) (h : isClosingWork c = true) :
    startsRound id c = false := by
  cases c with
  | setTombstoneState rid state verifiedAt => cases state <;> first | rfl | cases h
  | _ => rfl

theorem enters_closing (name : String) (c : Commit V) (h : isClosingWork c = true) :
    enters name c = false := by
  cases c <;> first | rfl | cases h

theorem purgeRound_starts {svc : DeletionService V} (hr : ∀ s ∈ svc.registry, Lawful s)
    (jobId : OpId) {ids : List RecordId} (mode : DeletionMode) {id : RecordId}
    (hid : ids.count id = 1) : (purgeRound svc jobId ids mode).AtMost (startsRound id) 1 := by
  refine purgeRound_atMost hr jobId ids mode (m := 1) (n := 0) ?_ ?_ (startsRound_closing id)
  · have h := Proc.AtMost.forM_perform (σ := World V) (ε := PyError) (startsRound id)
      (fun rid => (.setTombstoneState rid .indexDeleting none : Commit V)) ids
    rw [show (ids.countP fun rid =>
      startsRound id (.setTombstoneState rid .indexDeleting none : Commit V)) = 1 from hid] at h
    exact h
  · refine Proc.AtMost.of_uses ((purgeInto_uses hr ids ∅).mono fun c hc => ?_)
    cases c <;> first | rfl | cases hc

theorem purgeInto_enters {registry : Registry V} (hr : ∀ s ∈ registry, Lawful s)
    (ids : List RecordId) (report : Report) (name : String) :
    (purgeInto ids registry report).AtMost (enters name)
      ((registry.map ManagedSurface.name).count name) := by
  induction registry generalizing report with
  | nil => trivial
  | cons s rest ih =>
    have hremove : (s.remove ids).AtMost (enters name) 0 := Proc.AtMost.of_uses
      (((hr s List.mem_cons_self).remove_uses ids).mono fun c hc =>
        enters_closing name c (isClosingWork_of_isIndexWork hc))
    have hrest := fun perId => ih (fun t ht => hr t (List.mem_cons_of_mem _ ht))
      (report.set s.name perId)
    refine ⟨_, ?_, fun _ => hremove.bind hrest⟩
    by_cases h : s.name = name
    · simp [enters, h, Nat.add_comm]
    · simp [enters, h]

theorem purgeRound_enters {svc : DeletionService V} (hr : ∀ s ∈ svc.registry, Lawful s)
    (hnames : (svc.registry.map ManagedSurface.name).Nodup) (jobId : OpId) (ids : List RecordId)
    (mode : DeletionMode) (name : String) :
    (purgeRound svc jobId ids mode).AtMost (enters name) 1 := by
  refine (purgeRound_atMost hr jobId ids mode (m := 0) ?_ (purgeInto_enters hr ids ∅ name)
    (enters_closing name)).mono ?_
  · exact Proc.AtMost.of_uses (markAll_uses ids _ _ fun _ _ => rfl)
  · rw [Nat.zero_add]
    exact List.nodup_iff_count_le_one.mp hnames name

theorem requestDeletion_atMost (svc : DeletionService V) (recordId : RecordId)
    (mode : DeletionMode) (includeDependents : Bool) {P : Commit V → Bool}
    (hround : ∀ db jobId,
      (purgeRound svc jobId (covered db recordId includeDependents) mode).AtMost P 1)
    (hopening : ∀ id jobId, P (.tombstone id mode jobId .canonicalTombstoned) = false)
    (hclosing : ∀ c, isClosingWork c = true → P c = false) :
    (requestDeletion svc recordId mode includeDependents).AtMost P (svc.maxRetries + 1) := by
  have hjob : (newOperationId : Prog V OpId).AtMost P 0 :=
    Proc.AtMost.of_uses ((uses_newOperationId _).mpr (hclosing _ rfl))
  refine (hjob.bind (n := svc.maxRetries + 1) fun jobId => ?_).mono (by omega)
  intro w
  have htombstones : (tombstoneAll (covered w.db recordId includeDependents) mode jobId).AtMost P 0 :=
    Proc.AtMost.of_uses (tombstoneAll_uses _ mode jobId fun id _ => hopening id jobId)
  have hloop := purgeAndVerify_atMost svc jobId (covered w.db recordId includeDependents) mode
    (hround w.db jobId) hclosing svc.maxRetries
  have hreply : (pure jobId : Prog V OpId).AtMost P 0 := trivial
  exact (htombstones.bind fun _ => hloop.bind fun _ => hreply).mono (by omega)

theorem count_covered (db : Db) (recordId : RecordId) (includeDependents : Bool) :
    (covered db recordId includeDependents).count recordId = 1 := by
  unfold covered
  rw [List.count_cons_self, Nat.add_eq_right]
  refine List.count_eq_zero.mpr ?_
  cases includeDependents with
  | false => exact List.not_mem_nil
  | true => simp [CanonicalStore.dependencyGraph]

/-- Up to the first entry of a surface only tombstones are written; from there on all
the ids have one. -/
theorem tombstoned_before_entry (svc : DeletionService V) (recordId : RecordId)
    (mode : DeletionMode) (includeDependents : Bool) {w t : World V} {cs : List (Commit V)}
    {q : Prog V OpId}
    (h : Proc.Reaches (requestDeletion svc recordId mode includeDependents) w cs q t)
    (hentry : ∃ name, .surfaceRemove name ∈ cs) :
    ∀ id ∈ covered w.db recordId includeDependents, t.db.isTombstoned id = true := by
  let ids := covered w.db recordId includeDependents
  let w₁ := apply (.newOperationId : Commit V) w
  have hjob : Proc.Reaches (newOperationId >>= fun jobId => query (fun db =>
      covered db recordId includeDependents) >>= fun ids => tombstoneAll ids mode jobId >>= fun _ =>
        purgeAndVerify svc jobId ids mode svc.maxRetries >>= fun _ => pure jobId) w cs q t := h
  cases hjob with
  | here =>
    obtain ⟨_, hname⟩ := hentry
    cases hname
  | step hquery =>
    cases hquery with
    | here =>
      obtain ⟨_, hname⟩ := hentry
      cases List.mem_singleton.mp hname
    | observe htail =>
      rename_i cs
      have hname : ∃ name, .surfaceRemove name ∈ cs := by
        obtain ⟨name, hname⟩ := hentry
        rcases List.mem_cons.mp hname with hname | hname
        · cases hname
        · exact ⟨name, hname⟩
      have hopening := tombstoneAll_uses (P := fun c : Commit V => ∀ name, c ≠ .surfaceRemove name)
        ids mode w.operationIds fun _ _ _ => nofun
      rcases Proc.Reaches.of_bind (p := tombstoneAll ids mode w.operationIds) htail with
        ⟨r, hr, _⟩ | ⟨_, u, ds, es, hrun, htrace, rfl, hrest⟩
      · obtain ⟨name, hname⟩ := hname
        exact absurd rfl (hopening.reaches_commands hr _ hname name)
      · intro id hid
        refine reaches_isTombstoned hrest id ?_
        have hu : u = (tombstoneAll ids mode w.operationIds).final w₁ := congrArg Prod.snd hrun.symm
        rw [hu]
        exact tombstoneAll_tombstones ids mode w.operationIds w₁ id hid

structure SafeDeletion (svc : DeletionService V) (recordId : RecordId) (mode : DeletionMode)
    (includeDependents : Bool) (w u : World V) : Prop where
  returned : (requestDeletion svc recordId mode includeDependents).run w = (.ok w.operationIds, u)
  rounds : ((requestDeletion svc recordId mode includeDependents).trace w).countP
    (startsRound recordId) ≤ svc.maxRetries + 1
  entries : ∀ name, ((requestDeletion svc recordId mode includeDependents).trace w).countP
    (enters name) ≤ svc.maxRetries + 1
  outcome :
    (EndsIn (covered w.db recordId includeDependents) .verified u ∧
      ∃ v cs q, Proc.Reaches (requestDeletion svc recordId mode includeDependents) w cs q v ∧
        Verified svc (covered w.db recordId includeDependents) mode v u) ∨
    EndsIn (covered w.db recordId includeDependents) .manualAttention u
  tombstoned_first : ∀ cs q t,
    Proc.Reaches (requestDeletion svc recordId mode includeDependents) w cs q t →
    (∃ name, .surfaceRemove name ∈ cs) →
    ∀ id ∈ covered w.db recordId includeDependents, t.db.isTombstoned id = true

/-- A deletion over any lawful surfaces returns after at most `maxRetries + 1` rounds,
with all its ids verified or all waiting for attention. It verified only what a full
verification found absent everywhere, and it had tombstoned every id before it entered
any surface, wherever it is stopped. -/
theorem requestDeletion_safe (svc : DeletionService V) (hr : ∀ s ∈ svc.registry, Lawful s)
    (hnames : (svc.registry.map ManagedSurface.name).Nodup) (recordId : RecordId)
    (mode : DeletionMode) (includeDependents : Bool) (w : World V) :
    ∃ u, SafeDeletion svc recordId mode includeDependents w u := by
  let ids := covered w.db recordId includeDependents
  let w₁ := apply (.newOperationId : Commit V) w
  let w₂ := (tombstoneAll ids mode w.operationIds).final w₁
  have hopen : (tombstoneAll ids mode w.operationIds).run w₁ = (.ok (), w₂) :=
    tombstoneAll_run ids mode w.operationIds w₁
  obtain ⟨u, hu, hcase⟩ := purgeAndVerify_run hr hnames w.operationIds ids mode svc.maxRetries w₂
    (tombstoneAll_tombstones ids mode w.operationIds w₁)
  refine ⟨u, ?_, ?_, fun name => ?_, ?_, fun cs q t h => tombstoned_before_entry svc _ _ _ h⟩
  · have hfinal : (purgeAndVerify svc w.operationIds ids mode svc.maxRetries).final w₂ = u :=
      congrArg Prod.snd hu
    rw [requestDeletion_run hr]
    exact congrArg (Prod.mk _) hfinal
  · refine (requestDeletion_atMost svc recordId mode includeDependents (fun db jobId => ?_)
      (fun _ _ => rfl) (startsRound_closing recordId)).trace w
    exact purgeRound_starts hr jobId mode (count_covered db recordId includeDependents)
  · refine (requestDeletion_atMost svc recordId mode includeDependents (fun db jobId => ?_)
      (fun _ _ => rfl) (enters_closing name)).trace w
    exact purgeRound_enters hr hnames jobId _ mode name
  · refine hcase.imp_left ?_
    rintro ⟨v, cs, q, hreach, hverified⟩
    exact ⟨hverified.marked, v,
      .newOperationId :: ((tombstoneAll ids mode w.operationIds).trace w₁ ++ cs),
      q >>= fun _ => pure w.operationIds,
      .step (.observe ((Proc.Reaches.second _ hopen).trans (hreach.first _))), hverified⟩

/-- The lexical index and a cache of ids, the cache refusing to forget the id 7. -/
def stubbornCache : DeletionService (List RecordId) where
  registry := [lexicalSurface, memorySurface "cache"
    (fun ids cache => cache.filter fun id => id = 7 || id ∉ ids) fun cache id => id ∈ cache]
  maxRetries := 1

theorem requestDeletion_safe_stubborn : ∃ u, SafeDeletion stubbornCache 7 .hard true
    ⟨.empty, [7, 8], fun _ => 0, 0, 0, fun _ => 1, 0⟩ u :=
  requestDeletion_safe stubbornCache
    (by
      intro s hs
      rcases List.mem_cons.mp hs with rfl | hs
      · exact lawful_lexical
      · cases List.mem_singleton.mp hs
        exact lawful_memory _ _ _)
    (by decide) 7 .hard true _

end StrataMemory.DeletionMachine
