import StrataMemory.DependencyGraph
import StrataMemory.Histories

set_option autoImplicit false

namespace StrataMemory.DerivedRecords
open KeyedTables Records Tables Procedures Worlds CommitEffects CanonicalStore
open DeletionFlows DeletionMachine DeletionInvariants FlowInvariants SettledFlows IdleFlows
open IdleCalls FlowAuthority DependencyGraph Histories Engine Gateway NodeRuns

def DerivedClosed (w : World Memory) : Prop :=
  ∀ d ∈ w.db.canonical.dependencies, d.rel = .derivedFrom →
    w.db.isTombstoned d.childId = true → w.db.isTombstoned d.parentId = true

/-- A link is not made to a tombstoned source, unless the derived record is tombstoned too. -/
def LinksLive (w : World Memory) : Call → Prop
  | .linkSource derivedId sourceId => w.db.canonical.edgeAllowed derivedId sourceId = true →
    w.db.isTombstoned sourceId = true → w.db.isTombstoned derivedId = true
  | _ => True

/-- The operations of the gateway, whose deletions include dependents. -/
def isFacadeOperation : Call → Bool
  | .requestDeletion _ _ includeDependents => includeDependents
  | c => isGatewayOperation c

section Steps
variable {w t : World Memory}

theorem derivedClosed_same (h : authority t = authority w) : DerivedClosed t ↔ DerivedClosed w := by
  unfold DerivedClosed
  rw [isTombstoned_of_authority h, dependencies_of_authority h]

theorem derivedClosed_write (r : MemoryRecord) :
    DerivedClosed (apply (.write r) w) ↔ DerivedClosed w := by
  unfold DerivedClosed
  rw [dependencies_write]
  exact Iff.rfl

theorem derivedClosed_addDependency (hw : DerivedClosed w) (parentId childId : RecordId)
    (rel : Relation) : DerivedClosed (apply (.addDependency parentId childId rel) w) ↔
      (w.db.canonical.edgeAllowed parentId childId = true → rel = .derivedFrom →
        w.db.isTombstoned childId = true → w.db.isTombstoned parentId = true) := by
  constructor
  · intro h hallowed hrel hchild
    exact h ⟨parentId, childId, rel⟩ (mem_addDependency_self hallowed rel) hrel hchild
  · intro h d hd hrel hchild
    rcases mem_addDependency_iff.mp hd with hd | ⟨hallowed, rfl⟩
    · exact hw d hd hrel hchild
    · exact h hallowed hrel hchild

theorem derivedClosed_authority : AuthorityInvariant DerivedClosed where
  same _ _ h := (derivedClosed_same h).mpr
  supersede _ _ _ hw := hw
  link parentId childId w hw :=
    (derivedClosed_addDependency hw parentId childId .supersedes).mpr fun _ hrel => nomatch hrel
  mark id state verifiedAt w hw := by
    unfold DerivedClosed
    rw [isTombstoned_mark]
    exact hw
  erase _ _ hw d hd := hw d (List.mem_of_mem_filter hd)

theorem derivedClosed_requestDeletion (e : MemoryEngine) (recordId : RecordId)
    (mode : DeletionMode) :
    (requestDeletion e.deletion recordId mode true).Preserves DerivedClosed := by
  intro w hw
  rw [requestDeletion_final]
  refine derivedClosed_authority.purgeAndVerify _ _ _ _ _ ?_
  let ids := covered w.db recordId true
  let u := apply .newOperationId w
  obtain ⟨hdeps, honly⟩ := tombstoneAll_only ids mode w.operationIds u
  intro d hd hrel hchild
  rw [hdeps] at hd
  rcases honly _ hchild with hcovered | hold
  · exact tombstoneAll_tombstones ids mode w.operationIds u _ (covered_closed hd hcovered)
  · exact final_isTombstoned _ u _ (hw d hd hrel hold)

theorem derivedClosed_created {s : Strata} (hw : DerivedClosed w) (content : String)
    (fields : Fields) : DerivedClosed ((create s.engine.platform content fields >>= fun r =>
      s.engine.writeMemory r none).final w) := by
  obtain ⟨r, u, _, hdb, hafter⟩ := authority_created (s := s) content fields w
  rw [derivedClosed_same hafter, derivedClosed_write]
  unfold DerivedClosed
  rw [hdb]
  exact hw

theorem derivedClosed_supersede {s : Strata} (hw : DerivedClosed w) (oldId : RecordId)
    (content : String) (fields : Fields) :
    DerivedClosed (after s w (.supersedeMemory oldId content fields)) := by
  obtain ⟨r, u, _, hdb, hafter⟩ := authority_supersede (s := s) oldId content fields w
  have hwritten : DerivedClosed (apply (.write r) u) := by
    rw [derivedClosed_write]
    unfold DerivedClosed
    rw [hdb]
    exact hw
  rw [derivedClosed_same hafter]
  exact derivedClosed_authority.link r.id oldId _ hwritten

theorem derivedClosed_update {s : Strata} (hw : DerivedClosed w) (recordId : RecordId)
    (content : Option String) (status : Option Status) :
    DerivedClosed (after s w (.updateMemory recordId content status)) := by
  cases hrow : w.db.readOne recordId with
  | none =>
    rw [after_update_none hrow]
    exact hw
  | some old =>
    cases content with
    | some text =>
      obtain ⟨u, hauthority, hafter⟩ := authority_rewrite (s := s) hrow text status
      rw [derivedClosed_same hafter, derivedClosed_write, derivedClosed_same hauthority]
      exact hw
    | none =>
      cases status with
      | none =>
        rw [after_touch hrow]
        exact hw
      | some status =>
        rw [after_patch hrow]
        exact hw

theorem derivedClosed_call {s : Strata} {c : Call} (hc : isFacadeOperation c = true)
    (hw : DerivedClosed w) : DerivedClosed (after s w c) ↔ LinksLive w c := by
  cases c with
  | writeEvent content recordType fields =>
    rw [after_writeEvent]
    exact iff_of_true (derivedClosed_created hw content _) trivial
  | writeMemory content fields =>
    rw [after_writeMemory]
    exact iff_of_true (derivedClosed_created hw content fields) trivial
  | updateMemory recordId content status =>
    exact iff_of_true (derivedClosed_update hw recordId content status) trivial
  | supersedeMemory oldId content fields =>
    exact iff_of_true (derivedClosed_supersede hw oldId content fields) trivial
  | linkSource derivedId sourceId =>
    rw [after_linkSource, derivedClosed_addDependency hw]
    exact forall_congr' fun _ => forall_prop_of_true rfl
  | requestDeletion recordId mode includeDependents =>
    have hall : includeDependents = true := hc
    subst hall
    exact iff_of_true ((derivedClosed_requestDeletion s.engine recordId mode).discard w hw) trivial
  | openWith | consolidate | contradictionAudit | applyProposal | rejectProposal =>
    exact iff_of_true (derivedClosed_authority.upkeep rfl hw) trivial
  | _ => cases hc

end Steps

/-- In every run of the gateway what is derived from a tombstoned record is tombstoned after
each call, if and only if no call links a record to a tombstoned source. -/
theorem derived_closed_iff (s : Strata) {w : World Memory} (hstart : Started w) {calls : List Call}
    (hcalls : ∀ c ∈ calls, isFacadeOperation c = true) :
    AfterEach (after s) DerivedClosed w calls ↔ Along (after s) LinksLive w calls := by
  refine along_iff (J := DerivedClosed) (fun t c hc ht => derivedClosed_call (hcalls c hc) ht)
    (fun t c hc ht => (derivedClosed_call (hcalls c hc) ht).mpr) fun d hd => ?_
  rw [hstart.db] at hd
  cases hd

theorem derived_closed_linked :
    AfterEach (after plainStrata) DerivedClosed plainWorld
      [.writeEvent "tea" .system {}, .writeMemory "milk" {}, .linkSource 2 1,
        .requestDeletion 1 .logical true, .supersedeMemory 2 "water" {}] := by
  refine (derived_closed_iff plainStrata started_plainWorld (by decide)).mpr
    ⟨trivial, trivial, fun _ h => ?_, trivial, trivial, trivial⟩
  exact absurd h (by decide)

/-- A record is linked to an event that was deleted before, and stays live. -/
theorem linked_after_deletion :
    let calls : List Call := [.writeEvent "tea" .system {}, .writeMemory "milk" {},
      .requestDeletion 1 .logical true, .linkSource 2 1]
    let w := runCalls plainStrata plainWorld calls
    (∀ c ∈ calls, isFacadeOperation c = true) ∧ AllReturned plainStrata plainWorld calls ∧
      ⟨2, 1, .derivedFrom⟩ ∈ w.db.canonical.dependencies ∧ w.db.isTombstoned 1 = true ∧
      w.db.isTombstoned 2 = false ∧ ¬ DerivedClosed w := by
  refine ⟨by decide, ⟨by decide, by decide, by decide, by decide, trivial⟩, by decide, by decide,
    by decide, fun h => ?_⟩
  have hparent := h ⟨2, 1, .derivedFrom⟩ (by decide) rfl (by decide)
  exact absurd hparent (by decide)

end StrataMemory.DerivedRecords
