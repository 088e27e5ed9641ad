import StrataMemory.Histories
import StrataMemory.IdleCalls

set_option autoImplicit false

namespace StrataMemory.LiveMemories
open KeyedTables Records Tables Procedures Worlds CommitEffects Coordinator CanonicalStore
open ManagedSurfaces DeletionFlows DeletionMachine DeletionInvariants FlowInvariants
open StoreRefinement WaitingQueue IndexAgreement SettledFlows IdleFlows IdleCalls Histories
open Resolver VectorStore Engine Gateway NodeRuns

/-- A posting, and a live entry of the active generation in each store. -/
def InIndexes (e : MemoryEngine) (w : World Memory) (id : RecordId) : Prop :=
  w.db.hasPosting id = true ∧ ∀ name ∈ e.vectorNames,
    ((w.memory.store name).visible (id, w.memory.activeGeneration)).isSome = true

instance (e : MemoryEngine) (w : World Memory) (id : RecordId) : Decidable (InIndexes e w id) :=
  inferInstanceAs (Decidable (_ ∧ _))

def LiveIndexed (e : MemoryEngine) (w : World Memory) : Prop :=
  ∀ id, isLiveRecord w.db id = true → InIndexes e w id

/-- A patch of the status makes a record live only if it is in the indexes. -/
def Backed (e : MemoryEngine) (w : World Memory) : Call → Prop
  | .updateMemory recordId none (some status) => status.isActive = true →
    (w.db.readOne recordId).isSome = true → w.db.isTombstoned recordId = false →
    InIndexes e w recordId
  | _ => True

/-- The operations of the gateway, but for opening a file. -/
def isSessionOperation : Call → Bool
  | .openWith .. => false
  | c => isGatewayOperation c

theorem dead_of_tombstoned {db : Db} {id : RecordId} (h : db.isTombstoned id = true) :
    isLiveRecord db id = false := by
  refine Bool.eq_false_iff.mpr fun hlive => ?_
  obtain ⟨_, _, _, hnot⟩ := isLiveRecord_iff.mp hlive
  rw [h] at hnot
  cases hnot

section Steps
variable {e : MemoryEngine} {w t : World Memory}

theorem LiveIndexed.recede (h : LiveIndexed e w)
    (hlive : ∀ id, isLiveRecord t.db id = true → isLiveRecord w.db id = true)
    (hindexes : ∀ id, InIndexes e w id → InIndexes e t id) : LiveIndexed e t :=
  fun id hid => hindexes id (h id (hlive id hid))

theorem LiveIndexed.purged (h : LiveIndexed e w) {ids : List RecordId} (hpurged : Purged e ids w t)
    (hdead : ∀ id ∈ ids, isLiveRecord w.db id = false) : LiveIndexed e t := by
  intro id hid
  have hlive : isLiveRecord w.db id = true := by
    rw [isLiveRecord_iff] at hid ⊢
    rwa [readOne_of_authority hpurged.authority, isTombstoned_of_authority hpurged.authority] at hid
  have hkept : id ∉ ids := fun hmem => by
    rw [hdead id hmem] at hlive
    cases hlive
  obtain ⟨hposted, hheld⟩ := h id hlive
  refine ⟨(hpurged.posted id hkept).trans hposted, fun name hname => ?_⟩
  obtain ⟨rec, hrec⟩ := Option.isSome_iff_exists.mp (hheld name hname)
  rw [← shown_storesOf, shown_eq_some] at hrec
  refine Option.isSome_iff_exists.mpr ⟨rec, ?_⟩
  rw [← shown_storesOf, shown_eq_some, hpurged.deleted name id hkept, hpurged.entries,
    hpurged.generation]
  exact hrec

theorem LiveIndexed.given (h : LiveIndexed e w) {row : MemoryRecord} {dropped : List RecordId}
    (hgiven : Given e row dropped w t) : LiveIndexed e t := by
  obtain ⟨rec, _, hentries⟩ := hgiven.entries
  intro id hid
  obtain ⟨r, hrow, hactive, hnot⟩ := isLiveRecord_iff.mp hid
  have hkept : id ∉ dropped := fun hmem => by
    rw [hgiven.dead id hmem r hrow] at hactive
    cases hactive
  by_cases hsame : id = row.id
  · refine ⟨by rw [hgiven.posted id hkept, decide_eq_true hsame, Bool.true_or], fun name hname => ?_⟩
    refine Option.isSome_iff_exists.mpr ⟨rec, ?_⟩
    rw [← shown_storesOf, shown_eq_some, hgiven.deleted name id hkept, hentries, hgiven.generation,
      if_pos ⟨hname, hsame⟩, if_pos ⟨hname, Prod.ext hsame rfl⟩]
    exact ⟨rfl, rfl⟩
  · rw [hgiven.others id hsame hkept] at hrow
    rw [hgiven.tombstones] at hnot
    obtain ⟨hposted, hheld⟩ := h id (isLiveRecord_iff.mpr ⟨r, hrow, hactive, hnot⟩)
    refine ⟨by rw [hgiven.posted id hkept, hposted, Bool.or_true], fun name hname => ?_⟩
    obtain ⟨found, hfound⟩ := Option.isSome_iff_exists.mp (hheld name hname)
    rw [← shown_storesOf, shown_eq_some] at hfound
    refine Option.isSome_iff_exists.mpr ⟨found, ?_⟩
    rw [← shown_storesOf, shown_eq_some, hgiven.deleted name id hkept, hentries, hgiven.generation,
      if_neg fun hboth => hsame hboth.2, if_neg fun hboth => hsame (congrArg Prod.fst hboth.2)]
    exact hfound

theorem liveIndexed_setStatus (h : LiveIndexed e w) (id : RecordId) (status : Status) :
    LiveIndexed e (apply (.setStatus id status) w) ↔ (status.isActive = true →
      (w.db.readOne id).isSome = true → w.db.isTombstoned id = false → InIndexes e w id) := by
  have hread := readOne_setStatus id status w
  constructor
  · intro hafter hactive hrow hnot
    obtain ⟨r, hr⟩ := Option.isSome_iff_exists.mp hrow
    refine hafter id (isLiveRecord_iff.mpr ⟨{ r with status := status, updatedAt := w.now }, ?_, hactive, hnot⟩)
    rw [hread, Function.update_self, hr]
    rfl
  · intro hbacked other hother
    obtain ⟨r, hrow, hactive, hnot⟩ := isLiveRecord_iff.mp hother
    rw [hread] at hrow
    by_cases hsame : other = id
    · subst hsame
      rw [Function.update_self] at hrow
      obtain ⟨old, hold, rfl⟩ := Option.map_eq_some_iff.mp hrow
      exact hbacked hactive (by rw [hold]; rfl) hnot
    · rw [Function.update_of_ne hsame] at hrow
      exact h other (isLiveRecord_iff.mpr ⟨r, hrow, hactive, hnot⟩)

end Steps

structure Covered (e : MemoryEngine) (w : World Memory) : Prop where
  idle : Idle e w
  indexed : LiveIndexed e w

section Flows
variable {e : MemoryEngine} {w t : World Memory}

theorem Covered.same (h : Covered e w) (hqueue : SameQueue w t)
    (hlive : ∀ id, isLiveRecord t.db id = true → isLiveRecord w.db id = true)
    (hindexes : ∀ id, InIndexes e w id → InIndexes e t id) : Covered e t :=
  ⟨h.idle.same hqueue, h.indexed.recede hlive hindexes⟩

theorem live_superseded {id d : RecordId}
    (h : isLiveRecord (apply (.setStatus d .superseded) w).db id = true) :
    isLiveRecord w.db id = true ∧ id ≠ d := by
  obtain ⟨r, hrow, hactive, hnot⟩ := isLiveRecord_iff.mp h
  rw [readOne_setStatus] at hrow
  by_cases hsame : id = d
  · subst hsame
    rw [Function.update_self] at hrow
    obtain ⟨old, _, rfl⟩ := Option.map_eq_some_iff.mp hrow
    cases hactive
  · rw [Function.update_of_ne hsame] at hrow
    exact ⟨isLiveRecord_iff.mpr ⟨r, hrow, hactive, hnot⟩, hsame⟩

/-- What the loop of a merge leaves: the records that it returns are not live, and no record
has become live. -/
structure Superseded (e : MemoryEngine) (w : World Memory)
    (out : Except PyError (List RecordId) × World Memory) : Prop where
  covered : Covered e out.2
  live : ∀ id, isLiveRecord out.2.db id = true → isLiveRecord w.db id = true
  dead : ∀ removed, out.1 = .ok removed → ∀ id ∈ removed, isLiveRecord out.2.db id = false

theorem superseded_duplicates (primaryId : RecordId) (ids : List RecordId) (hw : Covered e w) :
    Superseded e w ((MemoryEngine.supersedeDuplicates primaryId ids).run w) := by
  induction ids generalizing w with
  | nil =>
    refine ⟨hw, fun _ h => h, fun removed hremoved => ?_⟩
    cases hremoved
    exact fun _ h => absurd h List.not_mem_nil
  | cons d rest ih =>
    let v := apply (.setStatus d .superseded) w
    let u := apply (.addDependency primaryId d .supersedes) v
    have hread : u.db.readOne = v.db.readOne := readOne_addDependency ..
    have hlive : ∀ id, isLiveRecord u.db id = true → isLiveRecord w.db id = true ∧ id ≠ d := by
      intro id hid
      refine live_superseded (isLiveRecord_iff.mpr ?_)
      rw [isLiveRecord_iff, hread] at hid
      exact hid
    have hu : Covered e u :=
      hw.same ⟨rfl, Nat.le_refl _, rfl, rfl⟩ (fun id hid => (hlive id hid).1) fun _ h => h
    have hedge := addDependency_run primaryId d .supersedes v
    rw [MemoryEngine.supersedeDuplicates_cons]
    split
    · exact ih hw
    · have hrest := ih hu
      change Superseded e w ((CanonicalStore.addDependency primaryId d .supersedes >>= fun _ =>
        MemoryEngine.supersedeDuplicates primaryId rest >>= fun removed =>
          pure (d :: removed) : Prog Memory (List RecordId)).run v)
      by_cases hallowed : v.db.canonical.edgeAllowed primaryId d = true
      · rw [if_pos hallowed] at hedge
        rw [Proc.run_bind_ok hedge, Proc.run_bind]
        rcases hrun : (MemoryEngine.supersedeDuplicates primaryId rest).run u with ⟨error | removed, t⟩ <;>
          rw [hrun] at hrest
        · exact ⟨hrest.covered, fun id hid => (hlive id (hrest.live id hid)).1, fun _ h => nomatch h⟩
        · refine ⟨hrest.covered, fun id hid => (hlive id (hrest.live id hid)).1, fun all hall id hid => ?_⟩
          cases hall
          rcases List.mem_cons.mp hid with rfl | hid
          · exact Bool.eq_false_iff.mpr fun h => (hlive id (hrest.live id h)).2 rfl
          · exact hrest.dead removed rfl id hid
      · rw [if_neg hallowed] at hedge
        rw [Proc.run_bind, hedge]
        exact ⟨hu, fun id hid => (hlive id hid).1, fun _ h => nomatch h⟩

theorem covered_mergeRecords (primaryId : RecordId) (ids : List RecordId) :
    (e.mergeRecords primaryId ids).Preserves (Covered e) := by
  intro w hw
  have hout := superseded_duplicates primaryId ids hw
  unfold Proc.final MemoryEngine.mergeRecords
  rw [Proc.run_bind]
  rcases hrun : (MemoryEngine.supersedeDuplicates primaryId ids).run w with ⟨error | removed, t⟩ <;>
    rw [hrun] at hout
  · exact hout.covered
  · have hpurged := purged_purge removed.dedup t (.refl hout.covered.idle _)
    have hkept : Covered e ((purge e.registry removed.dedup).final t) :=
      ⟨hpurged.idle, hout.covered.indexed.purged hpurged fun id hid =>
        hout.dead removed rfl id (List.mem_dedup.mp hid)⟩
    change Covered e ((if (!removed.isEmpty) = true then
      purge e.registry removed.dedup >>= fun _ => pure () else pure () : Prog Memory Unit).final t)
    split
    · rw [Proc.final_bind_pure]
      exact hkept
    · exact hout.covered

theorem covered_merging {s : Strata} : MergingInvariant s (Covered s.engine) where
  draw := Proc.Preserves.performing _ fun _ hw =>
    hw.same ⟨rfl, Nat.le_succ _, rfl, rfl⟩ (fun _ h => h) fun _ h => h
  merge := covered_mergeRecords
  propose _ := Proc.Preserves.perform fun _ hw =>
    hw.same ⟨rfl, Nat.le_refl _, rfl, rfl⟩ (fun _ h => h) fun _ h => h

theorem covered_deletion {jobId : OpId} {ids : List RecordId} {mode : DeletionMode} :
    DeletionInvariant e.deletion jobId ids mode fun w =>
      Covered e w ∧ ∀ id ∈ ids, w.db.isTombstoned id = true where
  clock _ hw := ⟨hw.1.same ⟨rfl, Nat.le_refl _, rfl, rfl⟩ (fun _ h => h) fun _ h => h, hw.2⟩
  mark id _ state verifiedAt w hw := by
    have htombstones := isTombstoned_mark id state verifiedAt w
    refine ⟨hw.1.same ⟨rfl, Nat.le_refl _, rfl, rfl⟩ (fun other hother => ?_) fun _ h => h, ?_⟩
    · rw [isLiveRecord_iff, htombstones] at hother
      exact isLiveRecord_iff.mpr hother
    · rw [htombstones]
      exact hw.2
  ack _ _ _ _ hw := ⟨hw.1.same ⟨rfl, Nat.le_refl _, rfl, rfl⟩ (fun _ h => h) fun _ h => h, hw.2⟩
  erase _ id _ w hw := by
    refine ⟨hw.1.same ⟨rfl, Nat.le_refl _, rfl, rfl⟩ (fun other hother => ?_) fun _ h => h, hw.2⟩
    obtain ⟨r, hrow, hactive⟩ := isLiveRecord_iff.mp hother
    exact isLiveRecord_iff.mpr ⟨r, readOne_of_hardDelete hrow, hactive⟩
  rebuild _ w hw := by
    refine ⟨⟨hw.1.idle.same ⟨rfl, Nat.le_refl _, rfl, rfl⟩, fun id hid => ⟨?_, ?_⟩⟩, hw.2⟩
    · obtain ⟨r, hrow, _⟩ := isLiveRecord_iff.mp hid
      exact (Table.contains_mapValues w.db.canonical.records MemoryRecord.content id).trans
        (Table.contains_of_get? hrow)
    · exact (hw.1.indexed id hid).2
  remove t ht w hw := by
    have hpurged := purged_remove ids t ht w (.refl hw.1.idle ids)
    refine ⟨⟨hpurged.idle, hw.1.indexed.purged hpurged fun id hid => dead_of_tombstoned (hw.2 id hid)⟩, ?_⟩
    rw [isTombstoned_of_authority hpurged.authority]
    exact hw.2
  absent := preserves_absent _ _

theorem covered_requestDeletion (recordId : RecordId) (mode : DeletionMode)
    (includeDependents : Bool) :
    (requestDeletion e.deletion recordId mode includeDependents).Preserves (Covered e) := by
  intro w hw
  rw [requestDeletion_final]
  refine (covered_deletion.purgeAndVerify _ _ ⟨?_, tombstoneAll_tombstones _ _ _ _⟩).1
  refine Proc.Preserves.forM _ _ (fun id _ => Proc.Preserves.perform fun t ht => ?_) _
    (hw.same ⟨rfl, Nat.le_succ _, rfl, rfl⟩ (fun _ h => h) fun _ h => h)
  refine ht.same ⟨rfl, Nat.le_refl _, rfl, rfl⟩ (fun other hother => ?_) fun _ h => h
  obtain ⟨r, hrow, hactive, hnot⟩ := isLiveRecord_iff.mp hother
  have hkept := (isTombstoned_tombstone id mode w.operationIds _ t other).symm.trans hnot
  rw [Bool.or_eq_false_iff, decide_eq_false_iff_not] at hkept
  rcases readOne_of_tombstone hrow with ⟨hsame, _⟩ | ⟨_, hrow⟩
  · exact absurd hsame hkept.1
  · exact isLiveRecord_iff.mpr ⟨r, hrow, hactive, hkept.2⟩

end Flows

section Runs
variable {s : Strata} {w : World Memory}

theorem liveIndexed_update (hstores : s.engine.vectorNames.length ≤ maxSteps)
    (hw : Covered s.engine w) (recordId : RecordId) (content : Option String)
    (status : Option Status) :
    LiveIndexed s.engine (after s w (.updateMemory recordId content status)) ↔
      Backed s.engine w (.updateMemory recordId content status) := by
  cases hrow : w.db.readOne recordId with
  | none =>
    rw [after_update_none hrow]
    refine iff_of_true hw.indexed ?_
    cases content with
    | some text => trivial
    | none => cases status <;> simp [Backed, hrow]
  | some old =>
    cases content with
    | some text =>
      obtain ⟨_, _, _, _, hgiven⟩ := given_update_call hstores hw.idle hrow text status
      exact iff_of_true (hw.indexed.given hgiven) trivial
    | none =>
      cases status with
      | none =>
        rw [after_touch hrow]
        exact iff_of_true hw.indexed trivial
      | some status =>
        rw [after_patch hrow]
        exact liveIndexed_setStatus hw.indexed recordId status

/-- A call that returns keeps live records indexed if and only if it is backed. -/
theorem liveIndexed_call (hstores : s.engine.vectorNames.length ≤ maxSteps) {c : Call}
    (hc : isSessionOperation c = true) (hreturned : Returned s w c) (hw : Covered s.engine w) :
    LiveIndexed s.engine (after s w c) ↔ Backed s.engine w c := by
  cases c with
  | writeEvent content recordType fields =>
    obtain ⟨_, _, _, _, hgiven⟩ := given_create hstores hw.idle content
      { fields with recordType := recordType, tier := .l0 }
    rw [after_writeEvent]
    exact iff_of_true (hw.indexed.given hgiven) trivial
  | writeMemory content fields =>
    obtain ⟨_, _, _, _, hgiven⟩ := given_write_call hstores hw.idle content fields
    exact iff_of_true (hw.indexed.given hgiven) trivial
  | updateMemory recordId content status =>
    exact liveIndexed_update hstores hw recordId content status
  | supersedeMemory oldId content fields =>
    by_cases hold : Correctable w oldId (createdId fields w)
    · obtain ⟨_, _, _, _, hgiven⟩ := given_supersede_call hstores hw.idle content hold
      exact iff_of_true (hw.indexed.given hgiven) trivial
    · exact absurd hreturned (stranded_supersede_call hw.idle content hold).1
  | linkSource derivedId sourceId =>
    have hread := readOne_addDependency derivedId sourceId .derivedFrom w
    refine iff_of_true (hw.indexed.recede (fun id hid => ?_) fun _ h => ?_) trivial
    · rw [after_linkSource, isLiveRecord_iff, hread] at hid
      exact isLiveRecord_iff.mpr hid
    · rw [after_linkSource]
      exact h
  | requestDeletion recordId mode includeDependents =>
    exact iff_of_true
      ((covered_requestDeletion recordId mode includeDependents).discard w hw).indexed trivial
  | consolidate => exact iff_of_true (covered_merging.consolidate.discard w hw).indexed trivial
  | contradictionAudit =>
    exact iff_of_true (covered_merging.contradictionAudit.discard w hw).indexed trivial
  | applyProposal id => exact iff_of_true (covered_merging.applyProposal id w hw).indexed trivial
  | rejectProposal id => exact iff_of_true (covered_merging.rejectProposal id w hw).indexed trivial
  | _ => cases hc

theorem isGatewayOperation_of_session {c : Call} (h : isSessionOperation c = true) :
    isGatewayOperation c = true := by
  cases c <;> first | rfl | cases h

theorem liveIndexed_runCalls (hstores : s.engine.vectorNames.length ≤ maxSteps) {calls : List Call}
    (hcalls : ∀ c ∈ calls, isSessionOperation c = true) (hreturned : AllReturned s w calls)
    (hw : Covered s.engine w) :
    AfterEach (after s) (LiveIndexed s.engine) w calls ↔ Along (after s) (Backed s.engine) w calls := by
  induction calls generalizing w with
  | nil => exact Iff.rfl
  | cons c calls ih =>
    have hc := hcalls c List.mem_cons_self
    have hstep := liveIndexed_call hstores hc hreturned.1 hw
    have hidle := idle_call hstores (isGatewayOperation_of_session hc) hw.idle
    have hrest : LiveIndexed s.engine (after s w c) →
        (AfterEach (after s) (LiveIndexed s.engine) (after s w c) calls ↔
          Along (after s) (Backed s.engine) (after s w c) calls) := fun hindexed =>
      ih (fun d hd => hcalls d (List.mem_cons_of_mem _ hd)) hreturned.2 ⟨hidle, hindexed⟩
    constructor
    · rintro ⟨hindexed, htail⟩
      exact ⟨hstep.mp hindexed, (hrest hindexed).mp htail⟩
    · rintro ⟨hbacked, htail⟩
      exact ⟨hstep.mpr hbacked, (hrest (hstep.mpr hbacked)).mpr htail⟩

/-- In every run of a session in which no adapter refuses and every call returns, live
records are in the indexes after each call if and only if every patch that makes a record
live finds it there. -/
theorem live_indexed_iff (s : Strata) (hstores : s.engine.vectorNames.length ≤ maxSteps)
    {w : World Memory} (hstart : Started w) (hfaults : ∀ n, w.memory.faults n = false)
    {calls : List Call} (hcalls : ∀ c ∈ calls, isSessionOperation c = true)
    (hreturned : AllReturned s w calls) :
    AfterEach (after s) (LiveIndexed s.engine) w calls ↔
      Along (after s) (Backed s.engine) w calls := by
  refine liveIndexed_runCalls hstores hcalls hreturned ⟨idle_started hstart hfaults, fun id hid => ?_⟩
  obtain ⟨r, hrow, _⟩ := isLiveRecord_iff.mp hid
  rw [hstart.db] at hrow
  cases hrow

theorem live_indexed_patched :
    AfterEach (after plainStrata) (LiveIndexed plainStrata.engine) plainWorld
      [.writeMemory "tea" {}, .supersedeMemory 1 "milk" {}, .updateMemory 2 none (some .reinforced)] := by
  refine (live_indexed_iff plainStrata (by decide) started_plainWorld (fun _ => rfl) ?_ ?_).mpr
    ⟨trivial, trivial, fun _ _ _ => by decide, trivial⟩
  · decide
  · exact ⟨by decide, by decide, by decide, trivial⟩

/-- A superseded record is made active again, and no index knows it. -/
theorem reactivated_unindexed :
    let calls : List Call :=
      [.writeMemory "tea" {}, .supersedeMemory 1 "milk" {}, .updateMemory 1 none (some .active)]
    let w := runCalls plainStrata plainWorld calls
    (∀ c ∈ calls, isSessionOperation c = true) ∧ AllReturned plainStrata plainWorld calls ∧
      isLiveRecord w.db 1 = true ∧ ¬ LiveIndexed plainStrata.engine w := by
  refine ⟨by decide, ⟨by decide, by decide, by decide, trivial⟩, by decide, fun h => ?_⟩
  have hindexed := h 1 (by decide)
  exact absurd hindexed (by decide)

end Runs
end StrataMemory.LiveMemories
