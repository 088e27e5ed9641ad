import StrataMemory.FlowAuthority
import StrataMemory.Histories

set_option autoImplicit false

namespace StrataMemory.HalfDeletions
open KeyedTables Records Tables Procedures Worlds CommitEffects CanonicalStore
open DeletionFlows DeletionMachine DeletionInvariants FlowInvariants SettledFlows IdleFlows
open IdleCalls FlowAuthority Histories Engine Gateway NodeRuns

/-- Every row that has a tombstone is marked deleted. -/
def NoHalfDeleted (w : World Memory) : Prop :=
  ∀ id r, w.db.isTombstoned id = true → w.db.readOne id = some r → r.status = .deleted

/-- The call gives no tombstoned row another status than `deleted`. -/
def KeepsDeleted (w : World Memory) : Call → Prop
  | .writeEvent _ _ fields | .writeMemory _ fields =>
    w.db.isTombstoned (createdId fields w) = true → fields.status = .deleted
  | .updateMemory recordId none (some status) => w.db.isTombstoned recordId = true →
    (w.db.readOne recordId).isSome = true → status = .deleted
  | .supersedeMemory oldId _ fields =>
    (w.db.isTombstoned (createdId fields w) = true → fields.status = .deleted) ∧
      (w.db.isTombstoned oldId = true → ¬ Correctable w oldId (createdId fields w))
  | _ => True

section Steps
variable {w t : World Memory}

theorem noHalfDeleted_same (h : authority t = authority w) :
    NoHalfDeleted t ↔ NoHalfDeleted w := by
  unfold NoHalfDeleted
  rw [isTombstoned_of_authority h, readOne_of_authority h]

theorem noHalfDeleted_update {id : RecordId} {row : MemoryRecord} (hw : NoHalfDeleted w)
    (hrows : t.db.readOne = Function.update w.db.readOne id (some row))
    (htombstones : t.db.isTombstoned = w.db.isTombstoned) :
    NoHalfDeleted t ↔ (w.db.isTombstoned id = true → row.status = .deleted) := by
  unfold NoHalfDeleted
  rw [hrows, htombstones]
  constructor
  · intro h hid
    exact h id row hid (Function.update_self ..)
  · intro h other r hother hrow
    by_cases hsame : other = id
    · subst hsame
      rw [Function.update_self] at hrow
      cases hrow
      exact h hother
    · rw [Function.update_of_ne hsame] at hrow
      exact hw other r hother hrow

theorem noHalfDeleted_write (hw : NoHalfDeleted w) (r : MemoryRecord) :
    NoHalfDeleted (apply (.write r) w) ↔ (w.db.isTombstoned r.id = true → r.status = .deleted) := by
  obtain ⟨row, hstatus, hrows⟩ := readOne_write w r
  rw [← hstatus]
  exact noHalfDeleted_update hw hrows rfl

theorem noHalfDeleted_setStatus (hw : NoHalfDeleted w) (id : RecordId) (status : Status) :
    NoHalfDeleted (apply (.setStatus id status) w) ↔
      (w.db.isTombstoned id = true → (w.db.readOne id).isSome = true → status = .deleted) := by
  have hread := readOne_setStatus id status w
  cases hrow : w.db.readOne id with
  | none =>
    rw [hrow, Option.map_none] at hread
    have hsame : (apply (.setStatus id status) w).db.readOne = w.db.readOne :=
      hread.trans (Function.update_eq_self_iff.mpr hrow.symm)
    refine iff_of_true (fun other r hother hr => hw other r hother (hsame ▸ hr)) fun _ h => ?_
    cases h
  | some old =>
    rw [hrow, Option.map_some] at hread
    rw [noHalfDeleted_update hw hread rfl]
    exact ⟨fun h hid _ => h hid, fun h hid => h hid rfl⟩

theorem noHalfDeleted_unlinked (hw : NoHalfDeleted w) (oldId : RecordId) (r : MemoryRecord) :
    NoHalfDeleted (unlinked oldId r w) ↔
      (w.db.isTombstoned r.id = true → r.status = .deleted) ∧
        (w.db.isTombstoned oldId = true → ¬ Correctable w oldId r.id) := by
  obtain ⟨row, hstatus, hrows⟩ := readOne_write w r
  have hsome : ((apply (.write r) w).db.readOne oldId).isSome = true ↔ Correctable w oldId r.id := by
    rw [hrows, Function.update_apply]
    unfold Correctable
    split
    · rename_i hsame
      exact iff_of_true rfl (.inl hsame)
    · rename_i hne
      exact (or_iff_right hne).symm
  have hread : (unlinked oldId r w).db.readOne = Function.update (apply (.write r) w).db.readOne oldId
      (((apply (.write r) w).db.readOne oldId).map fun found =>
        { found with status := .superseded, updatedAt := (apply (.write r) w).now }) :=
    readOne_setStatus ..
  constructor
  · intro h
    have hold : w.db.isTombstoned oldId = true → ¬ Correctable w oldId r.id := by
      intro hdeleted hcorrectable
      obtain ⟨found, hfound⟩ := Option.isSome_iff_exists.mp (hsome.mpr hcorrectable)
      rw [hfound] at hread
      have hstatus := h oldId _ hdeleted ((congrFun hread oldId).trans (Function.update_self ..))
      cases hstatus
    refine ⟨fun hdeleted => ?_, hold⟩
    have hne : r.id ≠ oldId := fun hsame => hold (hsame ▸ hdeleted) (.inl hsame.symm)
    have hrow : (unlinked oldId r w).db.readOne r.id = some row := by
      rw [hread, Function.update_of_ne hne, hrows, Function.update_self]
    exact hstatus.symm.trans (h r.id row hdeleted hrow)
  · rintro ⟨hnew, hold⟩
    refine (noHalfDeleted_setStatus ((noHalfDeleted_write hw r).mpr hnew) oldId .superseded).mpr ?_
    exact fun hdeleted hrow => absurd (hsome.mp hrow) (hold hdeleted)

theorem noHalfDeleted_authority : AuthorityInvariant NoHalfDeleted where
  same _ _ h := (noHalfDeleted_same h).mpr
  supersede id w hnot hw := (noHalfDeleted_setStatus hw id .superseded).mpr fun hdeleted => by
    rw [hnot] at hdeleted
    cases hdeleted
  link parentId childId w hw := by
    intro id r hid hrow
    rw [readOne_addDependency] at hrow
    exact hw id r hid hrow
  mark id state verifiedAt w hw := by
    intro other r hother hrow
    rw [isTombstoned_mark] at hother
    exact hw other r hother hrow
  erase id w hw := fun other r hother hrow => hw other r hother (readOne_of_hardDelete hrow)

theorem noHalfDeleted_tombstone (hw : NoHalfDeleted w) (id : RecordId) (mode : DeletionMode)
    (jobId : OpId) (state : DeletionState) : NoHalfDeleted (apply (.tombstone id mode jobId state) w) := by
  intro other r hother hrow
  rw [isTombstoned_tombstone, Bool.or_eq_true, decide_eq_true_iff] at hother
  rcases readOne_of_tombstone hrow with ⟨_, hdeleted⟩ | ⟨hne, hrow⟩
  · exact hdeleted
  · exact hw other r (hother.resolve_left hne) hrow

theorem noHalfDeleted_requestDeletion (e : MemoryEngine) (recordId : RecordId) (mode : DeletionMode)
    (includeDependents : Bool) :
    (requestDeletion e.deletion recordId mode includeDependents).Preserves NoHalfDeleted := by
  intro w hw
  rw [requestDeletion_final]
  refine noHalfDeleted_authority.purgeAndVerify _ _ _ _ _ ?_
  refine Proc.Preserves.forM _ _ (fun id _ => Proc.Preserves.perform fun t ht => ?_) _
    ((noHalfDeleted_same rfl).mpr hw)
  exact noHalfDeleted_tombstone ht id mode _ _

theorem noHalfDeleted_created {s : Strata} (hw : NoHalfDeleted w) (content : String)
    (fields : Fields) :
    NoHalfDeleted ((create s.engine.platform content fields >>= fun r =>
        s.engine.writeMemory r none).final w) ↔
      (w.db.isTombstoned (createdId fields w) = true → fields.status = .deleted) := by
  obtain ⟨r, u, hmade, hdb, hafter⟩ := authority_created (s := s) content fields w
  have hu : NoHalfDeleted u := by
    unfold NoHalfDeleted
    rw [hdb]
    exact hw
  rw [noHalfDeleted_same hafter, noHalfDeleted_write hu, hmade.id, hmade.status, hdb]

theorem noHalfDeleted_supersede {s : Strata} (hw : NoHalfDeleted w) (oldId : RecordId)
    (content : String) (fields : Fields) :
    NoHalfDeleted (after s w (.supersedeMemory oldId content fields)) ↔
      KeepsDeleted w (.supersedeMemory oldId content fields) := by
  obtain ⟨r, u, hmade, hdb, hafter⟩ := authority_supersede (s := s) oldId content fields w
  have hu : NoHalfDeleted u := by
    unfold NoHalfDeleted
    rw [hdb]
    exact hw
  have hlink : NoHalfDeleted (apply (.addDependency r.id oldId .supersedes) (unlinked oldId r u)) ↔
      NoHalfDeleted (unlinked oldId r u) := by
    unfold NoHalfDeleted
    rw [readOne_addDependency]
    exact Iff.rfl
  rw [noHalfDeleted_same hafter, hlink, noHalfDeleted_unlinked hu, hmade.id, hmade.status]
  unfold Correctable
  rw [hdb]
  exact Iff.rfl

/-- An update of the content writes the status that it has read. -/
theorem noHalfDeleted_update_call {s : Strata} (hw : NoHalfDeleted w) (recordId : RecordId)
    (content : Option String) (status : Option Status) :
    NoHalfDeleted (after s w (.updateMemory recordId content status)) ↔
      KeepsDeleted w (.updateMemory recordId content status) := by
  cases hrow : w.db.readOne recordId with
  | none =>
    rw [after_update_none hrow]
    refine iff_of_true hw ?_
    cases content with
    | some text => trivial
    | none => cases status <;> simp [KeepsDeleted, hrow]
  | some old =>
    cases content with
    | some text =>
      obtain ⟨u, hauthority, hafter⟩ := authority_rewrite (s := s) hrow text status
      rw [noHalfDeleted_same hafter, noHalfDeleted_write ((noHalfDeleted_same hauthority).mpr hw),
        isTombstoned_of_authority hauthority]
      have hid : old.id = recordId := Db.readOne_id hrow
      exact iff_of_true (fun hdeleted => hw recordId old (hid ▸ hdeleted) hrow) trivial
    | none =>
      cases status with
      | none =>
        rw [after_touch hrow]
        exact iff_of_true hw trivial
      | some status =>
        rw [after_patch hrow]
        exact noHalfDeleted_setStatus hw recordId status

theorem noHalfDeleted_call {s : Strata} {c : Call} (hc : isGatewayOperation c = true)
    (hw : NoHalfDeleted w) : NoHalfDeleted (after s w c) ↔ KeepsDeleted w c := by
  cases c with
  | writeEvent content recordType fields =>
    rw [after_writeEvent]
    exact noHalfDeleted_created hw content _
  | writeMemory content fields =>
    rw [after_writeMemory]
    exact noHalfDeleted_created hw content fields
  | updateMemory recordId content status => exact noHalfDeleted_update_call hw recordId content status
  | supersedeMemory oldId content fields => exact noHalfDeleted_supersede hw oldId content fields
  | linkSource derivedId sourceId =>
    refine iff_of_true (fun id r hid hrow => ?_) trivial
    rw [after_linkSource, readOne_addDependency] at hrow
    rw [after_linkSource] at hid
    exact hw id r hid hrow
  | requestDeletion recordId mode includeDependents =>
    exact iff_of_true
      ((noHalfDeleted_requestDeletion s.engine recordId mode includeDependents).discard w hw) trivial
  | openWith | consolidate | contradictionAudit | applyProposal | rejectProposal =>
    exact iff_of_true (noHalfDeleted_authority.upkeep rfl hw) trivial
  | _ => cases hc

end Steps

/-- In every run of the gateway no record is half-deleted after any call, if and only if each
call gives tombstoned rows no status but `deleted`. -/
theorem no_half_deleted_iff (s : Strata) {w : World Memory} (hstart : Started w) {calls : List Call}
    (hcalls : ∀ c ∈ calls, isGatewayOperation c = true) :
    AfterEach (after s) NoHalfDeleted w calls ↔ Along (after s) KeepsDeleted w calls := by
  refine along_iff (J := NoHalfDeleted) (fun t c hc ht => noHalfDeleted_call (hcalls c hc) ht)
    (fun t c hc ht => (noHalfDeleted_call (hcalls c hc) ht).mpr) fun id r _ hrow => ?_
  rw [hstart.db] at hrow
  cases hrow

theorem no_half_deleted_corrected :
    AfterEach (after plainStrata) NoHalfDeleted plainWorld
      [.writeMemory "tea" {}, .supersedeMemory 1 "milk" {}, .requestDeletion 1 .logical true,
        .updateMemory 1 (some "water") none] := by
  refine (no_half_deleted_iff plainStrata started_plainWorld (by decide)).mpr
    ⟨fun h => ?_, ⟨fun h => ?_, fun h => ?_⟩, trivial, trivial, trivial⟩
  · exact absurd h (by decide)
  · exact absurd h (by decide)
  · exact absurd h (by decide)

/-- A deleted record is superseded: the tombstone stays and the status does not. -/
theorem superseded_half_deleted :
    let calls : List Call :=
      [.writeMemory "tea" {}, .requestDeletion 1 .logical true, .supersedeMemory 1 "milk" {}]
    let w := runCalls plainStrata plainWorld calls
    (∀ c ∈ calls, isGatewayOperation c = true) ∧ AllReturned plainStrata plainWorld calls ∧
      w.db.isTombstoned 1 = true ∧
      (w.db.readOne 1).map MemoryRecord.status = some .superseded ∧ ¬ NoHalfDeleted w := by
  refine ⟨by decide, ⟨by decide, by decide, by decide, trivial⟩, by decide, by decide, fun h => ?_⟩
  have hrow : ((runCalls plainStrata plainWorld [.writeMemory "tea" {},
      .requestDeletion 1 .logical true, .supersedeMemory 1 "milk" {}]).db.readOne 1).map
        MemoryRecord.status = some .superseded := by decide
  obtain ⟨r, hread, hstatus⟩ := Option.map_eq_some_iff.mp hrow
  have hdeleted := h 1 r (by decide) hread
  rw [hstatus] at hdeleted
  cases hdeleted

end StrataMemory.HalfDeletions
