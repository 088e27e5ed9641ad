import StrataMemory.Consolidation
import Mathlib.Data.List.TakeWhile

set_option autoImplicit false

namespace StrataMemory.StaleProposals
open KeyedTables Records Tables Procedures Worlds CommitEffects CanonicalStore ManagedSurfaces
open SurfaceRounds Resolver Engine MemoryEngine Gateway ReflectionEngine VerifiedDeletions
open Consolidation NodeRuns

/-- The duplicates that the guard of the loop lets through. -/
def pending (db : Db) (primaryId : RecordId) (ids : List RecordId) : List RecordId :=
  ids.filter fun d => !(decide (d = primaryId) || db.isTombstoned d)

/-- Those that are superseded and linked: the rows of both ends are there. -/
def linked (db : Db) (primaryId : RecordId) (ids : List RecordId) : List RecordId :=
  (pending db primaryId ids).takeWhile fun d => db.canonical.edgeAllowed primaryId d

/-- The one that is superseded and cannot be linked, where the loop raises. -/
def stuck (db : Db) (primaryId : RecordId) (ids : List RecordId) : Option RecordId :=
  ((pending db primaryId ids).dropWhile fun d => db.canonical.edgeAllowed primaryId d).head?

/-- The loop supersedes `rows` and links `edges` to the primary, and that is all. -/
structure Touched (primaryId : RecordId) (rows edges : List RecordId) (w t : World Memory) :
    Prop where
  superseded : ∀ d ∈ rows, ∃ now, t.db.readOne d = (w.db.readOne d).map (supersededAt now)
  others : ∀ d ∉ rows, t.db.readOne d = w.db.readOne d
  linked : ∀ d ∈ edges, (⟨primaryId, d, .supersedes⟩ : Dependency) ∈ t.db.canonical.dependencies
  older : w.db.canonical.dependencies ⊆ t.db.canonical.dependencies
  already : (∀ d ∈ edges, (⟨primaryId, d, .supersedes⟩ : Dependency) ∈
    w.db.canonical.dependencies) → t.db.canonical.dependencies = w.db.canonical.dependencies
  tombstones : t.db.tombstones = w.db.tombstones
  postings : t.db.postings = w.db.postings
  opLog : t.db.opLog = w.db.opLog
  memory : t.memory = w.memory

section Loop
variable {primaryId : RecordId} {w v t : World Memory} {rows rows' edges edges' : List RecordId}

theorem Touched.refl (w : World Memory) : Touched primaryId [] [] w w where
  superseded _ h := absurd h List.not_mem_nil
  others _ _ := rfl
  linked _ h := absurd h List.not_mem_nil
  older := List.Subset.refl _
  already _ := rfl
  tombstones := rfl
  postings := rfl
  opLog := rfl
  memory := rfl

theorem Touched.trans (h : Touched primaryId rows edges w v)
    (h' : Touched primaryId rows' edges' v t) :
    Touched primaryId (rows ++ rows') (edges ++ edges') w t where
  superseded id hid := by
    by_cases hx : id ∈ rows <;> by_cases hy : id ∈ rows'
    · obtain ⟨_, hv⟩ := h.superseded id hx
      obtain ⟨now, ht⟩ := h'.superseded id hy
      refine ⟨now, ht.trans ?_⟩
      rw [hv, Option.map_map]
      rfl
    · obtain ⟨now, hv⟩ := h.superseded id hx
      exact ⟨now, (h'.others id hy).trans hv⟩
    · obtain ⟨now, ht⟩ := h'.superseded id hy
      exact ⟨now, ht.trans (by rw [h.others id hx])⟩
    · exact absurd (List.mem_append.mp hid) (not_or.mpr ⟨hx, hy⟩)
  others id hid := by
    rw [List.mem_append, not_or] at hid
    exact (h'.others id hid.2).trans (h.others id hid.1)
  linked d hd := by
    rcases List.mem_append.mp hd with hd | hd
    · exact h'.older (h.linked d hd)
    · exact h'.linked d hd
  older := List.Subset.trans h.older h'.older
  already hall := by
    have hfirst := h.already fun d hd => hall d (List.mem_append_left _ hd)
    rw [h'.already fun d hd => hfirst ▸ hall d (List.mem_append_right _ hd), hfirst]
  tombstones := h'.tombstones.trans h.tombstones
  postings := h'.postings.trans h.postings
  opLog := h'.opLog.trans h.opLog
  memory := h'.memory.trans h.memory

theorem touched_setStatus (d : RecordId) :
    Touched primaryId [d] [] w (apply (.setStatus d .superseded) w) where
  superseded id hid := by
    cases List.mem_singleton.mp hid
    refine ⟨w.now, ?_⟩
    rw [readOne_setStatus, Function.update_self]
    rfl
  others id hid := by
    rw [readOne_setStatus, Function.update_of_ne fun h => hid (List.mem_singleton.mpr h)]
  linked _ h := absurd h List.not_mem_nil
  older := List.Subset.refl _
  already _ := rfl
  tombstones := rfl
  postings := rfl
  opLog := rfl
  memory := rfl

theorem touched_addDependency {d : RecordId}
    (hallowed : w.db.canonical.edgeAllowed primaryId d = true) :
    Touched primaryId [] [d] w (apply (.addDependency primaryId d .supersedes) w) where
  superseded _ h := absurd h List.not_mem_nil
  others id _ := by rw [readOne_addDependency]
  linked id hid := by
    cases List.mem_singleton.mp hid
    exact mem_addDependency_self hallowed .supersedes
  older d' hd' := by exact mem_addDependency hd' primaryId d .supersedes
  already hall := by
    change (w.db.canonical.addDependency primaryId d .supersedes).dependencies = _
    unfold Canonical.addDependency
    rw [dif_pos hallowed, if_pos (hall d (List.mem_singleton_self d))]
  tombstones := rfl
  postings := rfl
  opLog := rfl
  memory := rfl

section Plan
variable {db : Db} {d : RecordId} (rest : List RecordId)

theorem plan_skip (hskip : (decide (d = primaryId) || db.isTombstoned d) = true) :
    linked db primaryId (d :: rest) = linked db primaryId rest ∧
      stuck db primaryId (d :: rest) = stuck db primaryId rest := by
  have hpending : pending db primaryId (d :: rest) = pending db primaryId rest :=
    List.filter_cons_of_neg (by rw [hskip]; decide)
  unfold linked stuck
  rw [hpending]
  exact ⟨rfl, rfl⟩

variable (hskip : ¬ (decide (d = primaryId) || db.isTombstoned d) = true)
include hskip

theorem pending_cons : pending db primaryId (d :: rest) = d :: pending db primaryId rest :=
  List.filter_cons_of_pos (by simpa using hskip)

theorem plan_link (hallowed : db.canonical.edgeAllowed primaryId d = true) :
    linked db primaryId (d :: rest) = d :: linked db primaryId rest ∧
      stuck db primaryId (d :: rest) = stuck db primaryId rest := by
  unfold linked stuck
  rw [pending_cons rest hskip, List.takeWhile_cons_of_pos hallowed,
    List.dropWhile_cons_of_pos hallowed]
  exact ⟨rfl, rfl⟩

theorem plan_stuck (hrefused : db.canonical.edgeAllowed primaryId d = false) :
    linked db primaryId (d :: rest) = [] ∧ stuck db primaryId (d :: rest) = some d := by
  have hneg : ¬ db.canonical.edgeAllowed primaryId d = true := by
    rw [hrefused]
    exact Bool.false_ne_true
  unfold linked stuck
  rw [pending_cons rest hskip, List.takeWhile_cons_of_neg hneg, List.dropWhile_cons_of_neg hneg]
  exact ⟨rfl, rfl⟩

end Plan

theorem plan_congr (htombstones : t.db.tombstones = w.db.tombstones)
    (hrows : ∀ id, t.db.canonical.records.contains id = w.db.canonical.records.contains id)
    (ids : List RecordId) : linked t.db primaryId ids = linked w.db primaryId ids ∧
      stuck t.db primaryId ids = stuck w.db primaryId ids := by
  have hpending : pending t.db primaryId ids = pending w.db primaryId ids := by
    unfold pending Db.isTombstoned
    rw [htombstones]
  have hallowed : (fun d => t.db.canonical.edgeAllowed primaryId d) =
      fun d => w.db.canonical.edgeAllowed primaryId d := by
    funext d
    unfold Canonical.edgeAllowed
    rw [hrows, hrows]
  unfold linked stuck
  rw [hpending, hallowed]
  exact ⟨rfl, rfl⟩

theorem supersedeDuplicates_outcome (primaryId : RecordId) (ids : List RecordId)
    (w : World Memory) : ∃ t, (supersedeDuplicates primaryId ids).run w =
      (if (stuck w.db primaryId ids).isSome then .error .integrityError
        else .ok (linked w.db primaryId ids), t) ∧
      Touched primaryId (linked w.db primaryId ids ++ (stuck w.db primaryId ids).toList)
        (linked w.db primaryId ids) w t := by
  induction ids generalizing w with
  | nil => exact ⟨w, rfl, .refl w⟩
  | cons d rest ih =>
    rw [supersedeDuplicates_cons]
    by_cases hskip : (decide (d = primaryId) || w.db.isTombstoned d) = true
    · obtain ⟨hlinked, hstuck⟩ := plan_skip rest hskip
      rw [if_pos hskip, hlinked, hstuck]
      exact ih w
    · rw [if_neg hskip]
      have hset : (CanonicalStore.setStatus d .superseded : Prog Memory Unit).run w =
          (.ok (), apply (.setStatus d .superseded) w) := rfl
      have hadd := addDependency_run primaryId d .supersedes (apply (.setStatus d .superseded) w)
      have hsame := edgeAllowed_setStatus d .superseded w primaryId d
      cases hallowed : w.db.canonical.edgeAllowed primaryId d with
      | true =>
        rw [hallowed] at hsame
        let v := apply (.addDependency primaryId d .supersedes) (apply (.setStatus d .superseded) w)
        have hstep : Touched primaryId [d] [d] w v :=
          (touched_setStatus d).trans (touched_addDependency hsame)
        have hrows : ∀ id, v.db.canonical.records.contains id =
            w.db.canonical.records.contains id := fun id => by
          rw [← contains_setStatus d .superseded w id]
          have hread := readOne_addDependency primaryId d .supersedes
            (apply (.setStatus d .superseded) w)
          exact congrArg Option.isSome (congrFun hread id)
        obtain ⟨hlinked, hstuck⟩ : linked v.db primaryId rest = linked w.db primaryId rest ∧
            stuck v.db primaryId rest = stuck w.db primaryId rest :=
          plan_congr hstep.tombstones hrows rest
        obtain ⟨t, hrun, htouched⟩ := ih v
        rw [hlinked, hstuck] at hrun htouched
        obtain ⟨hfirst, hrest⟩ := plan_link rest hskip hallowed
        rw [hfirst, hrest]
        refine ⟨t, ?_, hstep.trans htouched⟩
        rw [if_pos hsame] at hadd
        rw [Proc.run_bind_ok hset, Proc.run_bind_ok hadd, Proc.run_bind, hrun]
        cases (stuck w.db primaryId rest).isSome <;> rfl
      | false =>
        rw [hallowed] at hsame
        obtain ⟨hnone, hhere⟩ := plan_stuck rest hskip hallowed
        rw [hnone, hhere]
        refine ⟨apply (.setStatus d .superseded) w, ?_, touched_setStatus d⟩
        rw [if_neg (by rw [hsame]; decide), apply_refused .supersedes hsame] at hadd
        rw [Proc.run_bind_ok hset, Proc.run_bind, hadd]
        rfl

end Loop

def statusOf (db : Db) (id : RecordId) : Option Status := (db.readOne id).map MemoryRecord.status

structure Unaltered (w t : World Memory) : Prop where
  statuses : ∀ id, statusOf t.db id = statusOf w.db id
  edges : t.db.canonical.dependencies = w.db.canonical.dependencies
  postings : t.db.postings = w.db.postings
  vectors : t.memory.vectors = w.memory.vectors
  opLog : t.db.opLog = w.db.opLog

/-- Live records are superseded only in favour of a live primary, and a failure changes
nothing. -/
structure AppliedSafely (r : ReflectionEngine) (w : World Memory) (id : OpId)
    (primaryId : RecordId) : Prop where
  superseded : ∀ d, isLiveRecord w.db d = true →
    statusOf ((r.apply id).final w).db d = some .superseded → isLiveRecord w.db primaryId = true
  failed : ((r.apply id).run w).1.isOk = false → Unaltered w ((r.apply id).final w)

/-- If every link can be made, the primary is live or no duplicate is. If one cannot, because a
row is gone, the rows up to it are superseded and linked already. -/
def SafeToApply (db : Db) (primaryId : RecordId) (ids : List RecordId) : Prop :=
  match stuck db primaryId ids with
  | none => isLiveRecord db primaryId = true ∨
      ∀ d ∈ linked db primaryId ids, isLiveRecord db d = false
  | some s => (∀ d ∈ linked db primaryId ids, statusOf db d = some .superseded ∧
      (⟨primaryId, d, .supersedes⟩ : Dependency) ∈ db.canonical.dependencies) ∧
      ∀ status, statusOf db s = some status → status = .superseded

section Apply
variable {r : ReflectionEngine} {w t : World Memory} {id : OpId} {prop : Proposal}
  {primaryId : RecordId} {ids rows edges : List RecordId}

theorem Touched.statusOf_rows (h : Touched primaryId rows edges w t) {d : RecordId}
    (hd : d ∈ rows) : statusOf t.db d = (w.db.readOne d).map fun _ => .superseded := by
  obtain ⟨now, hrow⟩ := h.superseded d hd
  unfold statusOf
  rw [hrow, Option.map_map]
  rfl

theorem Touched.statusOf_others (h : Touched primaryId rows edges w t) {d : RecordId}
    (hd : d ∉ rows) : statusOf t.db d = statusOf w.db d := by
  unfold statusOf
  rw [h.others d hd]

theorem live_status {db : Db} {d : RecordId} (h : isLiveRecord db d = true) :
    ∃ row, db.readOne d = some row ∧ row.status ≠ .superseded := by
  obtain ⟨row, hrow, hactive, _⟩ := isLiveRecord_iff.mp h
  refine ⟨row, hrow, fun hstatus => ?_⟩
  rw [hstatus] at hactive
  cases hactive

/-- A merge that returns has superseded its rows, and nothing else has changed of any row. -/
theorem returned_safe_iff {v : World Memory} (hrun : (r.apply id).run w = (.ok (), t))
    (hkept : authority t = authority v) (htouched : Touched primaryId rows edges w v) :
    AppliedSafely r w id primaryId ↔
      isLiveRecord w.db primaryId = true ∨ ∀ d ∈ rows, isLiveRecord w.db d = false := by
  have hfinal : (r.apply id).final w = t := Proc.final_of_run hrun
  have hstatus : ∀ d, statusOf t.db d = statusOf v.db d := fun d => by
    unfold statusOf
    rw [readOne_of_authority hkept]
  constructor
  · intro hsafe
    by_contra hnone
    push Not at hnone
    obtain ⟨hprimary, d, hd, hlive⟩ := hnone
    rw [ne_eq, Bool.not_eq_false] at hlive
    obtain ⟨row, hrow, _⟩ := live_status hlive
    refine hprimary (hsafe.superseded d hlive ?_)
    rw [hfinal, hstatus, htouched.statusOf_rows hd, hrow]
    rfl
  · intro hsafe
    refine ⟨fun d hlive hsuperseded => ?_, fun hfailed => ?_⟩
    · refine hsafe.resolve_right fun hdead => ?_
      have hd : d ∈ rows := by
        by_contra hout
        obtain ⟨row, hrow, hne⟩ := live_status hlive
        rw [hfinal, hstatus, htouched.statusOf_others hout] at hsuperseded
        unfold statusOf at hsuperseded
        rw [hrow] at hsuperseded
        exact hne (Option.some.inj hsuperseded)
      rw [hdead d hd] at hlive
      cases hlive
    · rw [hrun] at hfailed
      cases hfailed

theorem stuck_safe_iff {s : RecordId} {error : PyError}
    (hrun : (r.apply id).run w = (.error error, t))
    (htouched : Touched primaryId (edges ++ [s]) edges w t)
    (hrows : ∀ d ∈ edges, (w.db.readOne d).isSome = true) : AppliedSafely r w id primaryId ↔
      (∀ d ∈ edges, statusOf w.db d = some .superseded ∧
        (⟨primaryId, d, .supersedes⟩ : Dependency) ∈ w.db.canonical.dependencies) ∧
      ∀ status, statusOf w.db s = some status → status = .superseded := by
  have hfinal : (r.apply id).final w = t := Proc.final_of_run hrun
  constructor
  · intro hsafe
    have hsame := hsafe.failed (by rw [hrun]; rfl)
    rw [hfinal] at hsame
    refine ⟨fun d hd => ⟨?_, hsame.edges ▸ htouched.linked d hd⟩, fun status hstatus => ?_⟩
    · obtain ⟨row, hrow⟩ := Option.isSome_iff_exists.mp (hrows d hd)
      rw [← hsame.statuses, htouched.statusOf_rows (List.mem_append_left _ hd), hrow]
      rfl
    · have hafter := hsame.statuses s
      rw [hstatus, htouched.statusOf_rows (List.mem_append_right _ (List.mem_singleton_self s))]
        at hafter
      obtain ⟨_, _, hsuperseded⟩ := Option.map_eq_some_iff.mp hafter
      exact hsuperseded.symm
  · rintro ⟨hlinked, hlast⟩
    have hrows : ∀ d ∈ edges ++ [s], ∀ status,
        statusOf w.db d = some status → status = .superseded := by
      intro d hd status hstatus
      rcases List.mem_append.mp hd with hd | hd
      · exact Option.some.inj (hstatus.symm.trans (hlinked d hd).1)
      · cases List.mem_singleton.mp hd
        exact hlast status hstatus
    have hstatuses : ∀ d, statusOf t.db d = statusOf w.db d := by
      intro d
      by_cases hd : d ∈ edges ++ [s]
      · rw [htouched.statusOf_rows hd]
        unfold statusOf
        cases hrow : w.db.readOne d with
        | none => rfl
        | some row =>
          have hsuperseded := hrows d hd row.status (by rw [statusOf, hrow]; rfl)
          rw [Option.map_some, Option.map_some, hsuperseded]
      · exact htouched.statusOf_others hd
    refine ⟨fun d hlive hsuperseded => ?_, fun _ => ?_⟩
    · obtain ⟨row, hrow, hne⟩ := live_status hlive
      rw [hfinal, hstatuses, statusOf, hrow] at hsuperseded
      exact absurd (Option.some.inj hsuperseded) hne
    · rw [hfinal]
      exact ⟨hstatuses, htouched.already fun d hd => (hlinked d hd).2, htouched.postings,
        congrArg Memory.vectors htouched.memory, htouched.opLog⟩

variable (hprop : w.memory.proposals.get? id = some prop) (hkind : prop.kind = .merge)
  (hstate : prop.state = .userReviewRequired) (hids : prop.recordIds = primaryId :: ids)
include hprop hkind hstate hids

theorem apply_unfold : (r.apply id).run w = (do
    r.engine.mergeRecords primaryId ids
    setProposalState id .applied : Prog Memory Unit).run w := by
  unfold ReflectionEngine.apply
  rw [Proc.run_bind, Proc.run_read, hprop]
  obtain ⟨kind, recordIds, confidence, evidenceIds, rationale, targetContent, state, propId⟩ := prop
  cases hkind
  cases hstate
  cases hids
  rfl

/-- A merge that cannot make a link raises there, and the indexes are not purged. -/
theorem apply_stuck {s : RecordId} (hstuck : stuck w.db primaryId ids = some s) :
    ∃ t, (r.apply id).run w = (.error .integrityError, t) ∧
      Touched primaryId (linked w.db primaryId ids ++ [s]) (linked w.db primaryId ids) w t := by
  obtain ⟨t, hrun, htouched⟩ := supersedeDuplicates_outcome primaryId ids w
  rw [hstuck] at hrun htouched
  refine ⟨t, ?_, htouched⟩
  have hmerge : (r.engine.mergeRecords primaryId ids).run w = (.error .integrityError, t) := by
    unfold MemoryEngine.mergeRecords
    rw [Proc.run_bind, hrun]
    rfl
  rw [apply_unfold hprop hkind hstate hids, Proc.run_bind, hmerge]

theorem apply_returns (hstuck : stuck w.db primaryId ids = none) :
    ∃ v t, (r.apply id).run w = (.ok (), t) ∧ authority t = authority v ∧
      Touched primaryId (linked w.db primaryId ids) (linked w.db primaryId ids) w v := by
  obtain ⟨v, hrun, htouched⟩ := supersedeDuplicates_outcome primaryId ids w
  rw [hstuck] at hrun htouched
  rw [Option.toList_none, List.append_nil] at htouched
  obtain ⟨u, hmerge, hkept⟩ : ∃ u, (r.engine.mergeRecords primaryId ids).run w = (.ok (), u) ∧
      authority u = authority v := by
    unfold MemoryEngine.mergeRecords
    rw [Proc.run_bind_ok (a := linked w.db primaryId ids) (t := v) hrun]
    split
    · obtain ⟨report, hpurge⟩ :=
        (purgeInto_returns (engine_lawful r.engine) (linked w.db primaryId ids).dedup ∅).run v
      exact ⟨_, Proc.run_bind_ok hpurge, authority_purge (engine_lawful r.engine) _ v⟩
    · exact ⟨v, rfl, rfl⟩
  refine ⟨v, (setProposalState id .applied : Prog Memory Unit).final u, ?_, hkept, htouched⟩
  rw [apply_unfold hprop hkind hstate hids, Proc.run_bind_ok hmerge]
  rfl

/-- Whatever has happened since the proposal was made, applying it is safe just when the store
is as `SafeToApply` asks. -/
theorem apply_safe_iff : AppliedSafely r w id primaryId ↔ SafeToApply w.db primaryId ids := by
  unfold SafeToApply
  cases hstuck : stuck w.db primaryId ids with
  | none =>
    obtain ⟨v, t, hrun, hkept, htouched⟩ := apply_returns (r := r) hprop hkind hstate hids hstuck
    exact returned_safe_iff hrun hkept htouched
  | some s =>
    obtain ⟨t, hrun, htouched⟩ := apply_stuck (r := r) hprop hkind hstate hids hstuck
    refine stuck_safe_iff hrun htouched fun d hd => ?_
    have hallowed : w.db.canonical.edgeAllowed primaryId d = true := List.mem_takeWhile_imp hd
    exact (Bool.and_eq_true_iff.mp hallowed).2

end Apply

/-- Proposals are reviewed before they are applied when none is accepted by itself. -/
def reviewingStrata : Strata := { plainStrata with autoAcceptThreshold := 1 }

theorem apply_safe_reviewed :
    let w := runCalls reviewingStrata plainWorld
      [.writeMemory "tea" {}, .writeMemory "tea" {}, .consolidate]
    AppliedSafely reviewingStrata.reflection w 3 2 ↔ SafeToApply w.db 2 [1] := by
  intro w
  have hprop : (w.memory.proposals.get? 3).any (fun p =>
      p.kind = .merge ∧ p.state = .userReviewRequired ∧ p.recordIds = [2, 1]) = true := by
    decide +kernel
  obtain ⟨p, hget, hshape⟩ := (Option.any_eq_true _ _).mp hprop
  obtain ⟨hkind, hstate, hids⟩ := of_decide_eq_true hshape
  exact apply_safe_iff hget hkind hstate hids

/-- The primary is erased before the proposal is applied: the other memory of the text is
superseded by nothing, and the call fails. -/
theorem erased_primary_supersedes_duplicate :
    let w := runCalls reviewingStrata plainWorld
      [.writeMemory "tea" {}, .writeMemory "tea" {}, .consolidate, .requestDeletion 2 .hard true]
    (∃ p, w.memory.proposals.get? 3 = some p ∧ p.kind = .merge ∧ p.state = .userReviewRequired ∧
      p.recordIds = [2, 1]) ∧ ¬ AppliedSafely reviewingStrata.reflection w 3 2 := by
  intro w
  have hprop : (w.memory.proposals.get? 3).any (fun p =>
      p.kind = .merge ∧ p.state = .userReviewRequired ∧ p.recordIds = [2, 1]) = true := by
    decide +kernel
  obtain ⟨p, hget, hshape⟩ := (Option.any_eq_true _ _).mp hprop
  refine ⟨⟨p, hget, of_decide_eq_true hshape⟩, fun hsafe => ?_⟩
  have hfailed : ((reviewingStrata.reflection.apply 3).run w).1.isOk = false := by decide +kernel
  have hchanged : statusOf ((reviewingStrata.reflection.apply 3).final w).db 1 ≠ statusOf w.db 1 := by
    decide +kernel
  exact hchanged ((hsafe.failed hfailed).statuses 1)

end StrataMemory.StaleProposals
