import StrataMemory.DrawnIds
import StrataMemory.FlowAuthority

set_option autoImplicit false

namespace StrataMemory.AtomicCorrections
open KeyedTables Records Tables Procedures Worlds CommitEffects Coordinator CoordinatorRuns
open LogConservation CanonicalStore ManagedSurfaces SurfaceRounds DeletionFlows DeletionInvariants
open VerifiedDeletions FlowInvariants StoreRefinement IndexAgreement SettledFlows IdleFlows
open CrashedCalls Histories FlowAuthority DrawnIds VectorStore Engine Gateway NodeRuns

/-- What a host supplies of a record: all but what the store stamps. -/
def supplied (r : MemoryRecord) : MemoryRecord :=
  { r with createdAt := 0, updatedAt := 0, currentVersionId := none }

theorem fields_of_supplied {a b : MemoryRecord} (h : supplied a = supplied b) :
    a.id = b.id ∧ a.content = b.content ∧ a.sensitivity = b.sensitivity := by
  have hfields : ((supplied a).id, (supplied a).content, (supplied a).sensitivity) =
      ((supplied b).id, (supplied b).content, (supplied b).sensitivity) := by rw [h]
  obtain ⟨hid, hcontent, hsensitivity⟩ : _ ∧ _ ∧ _ := by simpa using hfields
  exact ⟨hid, hcontent, hsensitivity⟩

/-- The correction has been made. An adapter may have refused the vectors, or the queue may
not have come to them: then they are in the log. -/
structure Done (e : MemoryEngine) (oldId : RecordId) (record : MemoryRecord)
    (w t : World Memory) : Prop where
  stored : ∃ row, t.db.readOne record.id = some row ∧ supplied row = supplied record
  superseded : ∃ row, t.db.readOne oldId = some row ∧ row.status = .superseded
  linked : ⟨record.id, oldId, .supersedes⟩ ∈ t.db.canonical.dependencies
  posted : t.db.postings.get? record.id = some record.content
  queued : ∀ name ∈ e.vectorNames, Logged t name record
  shown : Idle e w → e.vectorNames.length ≤ maxSteps → ∀ name ∈ e.vectorNames,
    ∃ rec, (t.memory.store name).visible (record.id, w.memory.activeGeneration) = some rec ∧
      rec.contentHash = record.contentHash

structure Untouched (w t : World Memory) : Prop where
  records : t.db.canonical.records = w.db.canonical.records
  versions : t.db.canonical.versions = w.db.canonical.versions
  dependencies : t.db.canonical.dependencies = w.db.canonical.dependencies
  postings : t.db.postings = w.db.postings
  opLog : t.db.opLog = w.db.opLog

/-- The correction returns and has been made, or it raises and has changed nothing. -/
def AllOrNothing (e : MemoryEngine) (oldId : RecordId) (record : MemoryRecord)
    (w : World Memory) : Prop :=
  (∀ written, ((e.correct oldId record).run w).1 = .ok written →
    Done e oldId record w ((e.correct oldId record).final w)) ∧
  ∀ error, ((e.correct oldId record).run w).1 = .error error →
    Untouched w ((e.correct oldId record).final w)

section Postings
variable {e : MemoryEngine} {w : World Memory}

theorem postings_upsertWork {α : Type} {p : Prog Memory α}
    (hp : p.Uses fun c => isUpsertWork c = true) (w : World Memory) :
    (p.final w).db.postings = w.db.postings := by
  refine hp.run (R := fun s t : World Memory => t.db.postings = s.db.postings) (fun _ => rfl)
    (fun _ _ _ h h' => h'.trans h) (fun c s hc => ?_) w
  cases c <;> first | rfl | cases hc

theorem posting_purge {id : RecordId} {text : Option String} {ids : List RecordId}
    (h : id ∈ ids → text = none) :
    PurgeInvariant e ids (fun w => w.db.postings.get? id = text) fun _ => True where
  live _ _ _ _ _ := trivial
  clock _ hw := hw
  ack _ _ _ _ _ hw := hw
  progress b seq w hb _ hw := by cases b <;> cases hb <;> exact hw
  handled _ _ _ _ _ _ _ hw := hw
  unpost w hw := by
    change (w.db.postings.eraseAll ids).get? id = text
    rw [Table.get?_eraseAll]
    split
    · rename_i hid
      exact (h hid).symm
    · exact hw
  draw _ hw := hw
  enqueueRemoval _ _ _ hw := hw
  dropArtifacts _ hw := hw

/-- The lexical surface is purged first, and no other surface writes a posting. -/
theorem posting_purged {id : RecordId} {ids : List RecordId} (hid : id ∈ ids) (w : World Memory) :
    ((purge e.registry ids).final w).db.postings.get? id = none := by
  have hpurge : PurgeInvariant e ids (fun w => w.db.postings.get? id = none) fun _ => True :=
    posting_purge fun _ => rfl
  have hrest : ∀ s ∈ e.vectorNames.map e.vectorSurface ++ [MemoryEngine.artifactSurface],
      (s.remove ids).Preserves fun w => w.db.postings.get? id = none := fun s hs =>
    hpurge.remove s (List.mem_cons_of_mem _ hs)
  cases ids with
  | nil => exact absurd hid List.not_mem_nil
  | cons a ids =>
    let v := apply (.removePostings (a :: ids)) (apply (.surfaceRemove "fts5") w)
    have hv : v.db.postings.get? id = none := by
      change (w.db.postings.eraseAll (a :: ids)).get? id = none
      rw [Table.get?_eraseAll, if_pos hid]
    change ((purgeInto (a :: ids) _ _).final v).db.postings.get? id = none
    exact preserves_purgeInto hrest _ v hv

end Postings

section Corrections
variable {e : MemoryEngine} {w : World Memory} {oldId : RecordId} {record : MemoryRecord}

theorem write_supplied (record : MemoryRecord) (w : World Memory) :
    ∃ row, (CanonicalStore.write record : Prog Memory MemoryRecord).run w =
        (.ok row, apply (.write record) w) ∧ row.id = record.id ∧ supplied row = supplied record ∧
      (apply (.write record) w).db.readOne = Function.update w.db.readOne record.id (some row) := by
  obtain ⟨row, hrun, hrows, hid, _⟩ := write_row record w
  obtain ⟨found, hfound, hsame⟩ := readOne_write_field supplied (fun c now r => by
    unfold Canonical.headRow
    split <;> rfl) (fun version now r => by
    unfold Canonical.syncCurrentVersion
    split <;> rfl) w record
  rw [hrows, Function.update_self] at hfound
  cases hfound
  exact ⟨row, hrun, hid, hsame, hrows⟩

theorem afterWrite_run (written : MemoryRecord) (generation : ℤ) (w : World Memory) :
    (afterWrite e written generation).run w =
      (.ok written, (afterWrite e written generation).final w) := by
  let queued := (e.vectorNames.forM (upsertInto w.memory.embedder written generation)).final w
  obtain ⟨applied, hdrain⟩ := (drain_returns e.coordinator maxSteps).run queued
  have hrun : (afterWrite e written generation).run w =
      (.ok written, (drain e.coordinator maxSteps).final queued) := by
    rw [afterWrite, Proc.run_bind_ok (upserts_run e written generation w)]
    exact Proc.run_bind_ok hdrain
  rw [hrun, Proc.final_of_run hrun]

theorem correct_linked (hold : Correctable w oldId record.id) :
    ∃ row z, supplied row = supplied record ∧
      z = (purge e.registry [oldId]).final (apply (.indexPosting row.id row.content)
        (apply (.addDependency row.id oldId .supersedes) (unlinked oldId record w))) ∧
      (e.correct oldId record).run w =
        (.ok row, (afterWrite e row z.memory.activeGeneration).final z) := by
  obtain ⟨row, hrun, hid, hsame, _⟩ := write_supplied record w
  refine ⟨row, _, hsame, rfl, ?_⟩
  exact (correct_purged hrun hid hold rfl rfl).trans (afterWrite_run row _ _)

theorem versions_unlinked (oldId : RecordId) (record : MemoryRecord) (w : World Memory) :
    ∃ version, (unlinked oldId record w).db.canonical.versions =
      w.db.canonical.versions ++ [version] :=
  ⟨_, versions_write record w⟩

theorem logged_correct (hdrawn : Drawn w) (hold : Correctable w oldId record.id) {name : String}
    (hname : name ∈ e.vectorNames) : Logged ((e.correct oldId record).final w) name record := by
  let c : EngineCall := .correct oldId record .supersedes
  have hlinked : Linked w c := hold
  obtain ⟨op, hop, hcarries⟩ := (call_queues_all (e := e) hdrawn c hname).mpr hlinked
  have hledger : ledger ((e.correct oldId record).final w) =
      ((e.correct oldId record).trace w).foldl Ledger.enter (ledger w) :=
    (@ledger_step e w (.call c) hdrawn).2
  refine ⟨op, ?_, hcarries⟩
  change op ∈ (ledger ((e.correct oldId record).final w)).operations
  rw [hledger, operations_entered]
  exact List.mem_append_right _ (List.mem_filterMap.mpr ⟨_, hop, rfl⟩)

theorem done_correct (hdrawn : Drawn w) (hold : (w.db.readOne oldId).isSome = true)
    (hne : oldId ≠ record.id) : Done e oldId record w ((e.correct oldId record).final w) := by
  have hlink : Correctable w oldId record.id := .inr hold
  obtain ⟨row, _, hid, hsame, hrows⟩ := write_supplied record w
  have hauthority := authority_correct e oldId record w
  have hread : ((e.correct oldId record).final w).db.readOne =
      Function.update (Function.update w.db.readOne record.id (some row)) oldId
        ((w.db.readOne oldId).map fun old =>
          { old with status := .superseded, updatedAt := (apply (.write record) w).now }) := by
    rw [readOne_correct e oldId hrows, Function.update_of_ne hne]
  refine ⟨⟨row, ?_, hsame⟩, ?_, ?_, ?_, fun name hname => logged_correct hdrawn hlink hname, ?_⟩
  · rw [hread, Function.update_of_ne (Ne.symm hne), Function.update_self]
  · obtain ⟨old, hrow⟩ := Option.isSome_iff_exists.mp hold
    rw [hread, Function.update_self, hrow]
    exact ⟨_, rfl, rfl⟩
  · rw [dependencies_of_authority hauthority]
    refine mem_addDependency_self ?_ .supersedes
    exact (edgeAllowed_unlinked rfl).mpr hlink
  · obtain ⟨row, z, hsame, rfl, hrun⟩ := correct_linked (e := e) hlink
    have hposted : ((e.correct oldId record).final w).db.postings = _ :=
      (congrArg (fun t : World Memory => t.db.postings) (Proc.final_of_run hrun)).trans
        (postings_upsertWork (afterWrite_uses row _) _)
    have hkept : record.id ∈ [oldId] → some record.content = none := fun h =>
      absurd (List.mem_singleton.mp h).symm hne
    obtain ⟨hrowId, hcontent, _⟩ := fields_of_supplied hsame
    rw [hposted]
    refine (posting_purge hkept).purge _ ?_
    rw [hrowId, hcontent]
    exact Table.get?_set_self _ _ _
  · intro hidle hstores name hname
    obtain ⟨given, hgivenId, _, hhash, hgiven⟩ := given_correct hstores hidle hlink
    obtain ⟨rec, hrec, hentries⟩ := hgiven.entries
    refine ⟨rec, ?_, hrec.trans hhash⟩
    have hkept : given.id ∉ [oldId] := fun h => hne (hgivenId ▸ (List.mem_singleton.mp h).symm)
    rw [← shown_storesOf, shown_eq_some, ← hgivenId, hgiven.deleted name given.id hkept, hentries,
      if_pos ⟨hname, rfl⟩, if_pos ⟨hname, rfl⟩]
    exact ⟨rfl, rfl⟩

/-- A correction is made whole or not at all just when the old record has a row and is
another one. -/
theorem allOrNothing_iff (hdrawn : Drawn w) : AllOrNothing e oldId record w ↔
    (w.db.readOne oldId).isSome = true ∧ oldId ≠ record.id := by
  constructor
  · rintro ⟨hreturned, hraised⟩
    by_cases hlink : Correctable w oldId record.id
    · obtain ⟨row, z, hsame, rfl, hrun⟩ := correct_linked (e := e) hlink
      have hdone := hreturned row (congrArg Prod.fst hrun)
      have hne : oldId ≠ record.id := by
        rintro rfl
        have hposted := hdone.posted
        rw [Proc.final_of_run hrun, postings_upsertWork (afterWrite_uses row _),
          posting_purged (List.mem_singleton_self _)] at hposted
        cases hposted
      exact ⟨hlink.resolve_left hne, hne⟩
    · have hrun := correct_refused (e := e) hlink
      have hversions := (hraised _ (congrArg Prod.fst hrun)).versions
      obtain ⟨version, hmore⟩ := versions_unlinked oldId record w
      rw [Proc.final_of_run hrun, hmore] at hversions
      exact absurd hversions (by simp)
  · rintro ⟨hold, hne⟩
    refine ⟨fun _ _ => done_correct hdrawn hold hne, fun error herror => ?_⟩
    obtain ⟨row, z, _, _, hrun⟩ := correct_linked (e := e) (.inr hold : Correctable w oldId record.id)
    rw [hrun] at herror
    cases herror

end Corrections

/-- In every reachable state a correction is made whole, or raises and changes nothing, if and
only if the old record has a row and is not the new one. -/
theorem correct_all_or_nothing_iff (s : Strata) {w : World Memory} (hstart : Started w)
    {calls : List Call} (hdraws : Along (after s) Draws w calls) (oldId : RecordId)
    (record : MemoryRecord) :
    AllOrNothing s.engine oldId record (runCalls s w calls) ↔
      ((runCalls s w calls).db.readOne oldId).isSome = true ∧ oldId ≠ record.id :=
  allOrNothing_iff (drawn_runCalls hstart hdraws)

theorem correct_all_or_nothing_deleted :
    AllOrNothing plainStrata.engine 1 (plainRecord 2 "milk")
      (runCalls plainStrata plainWorld [.writeMemory "tea" {}, .requestDeletion 1 .logical true]) := by
  have hdraws : Along (after plainStrata) Draws plainWorld
      [.writeMemory "tea" {}, .requestDeletion 1 .logical true] := ⟨trivial, trivial, trivial⟩
  refine (correct_all_or_nothing_iff plainStrata started_plainWorld hdraws 1 _).mpr ⟨by decide, ?_⟩
  decide

/-- The old record has been erased: the correction raises, and its row and version stay. -/
theorem correct_erased_stores :
    let w := runCalls plainStrata plainWorld
      [.writeMemory "tea" {}, .requestDeletion 1 .hard true]
    let out := (plainStrata.engine.correct 1 (plainRecord 2 "milk")).run w
    out.1.isOk = false ∧ (w.db.readOne 2).isSome = false ∧
      (out.2.db.readOne 2).map MemoryRecord.content = some "milk" ∧
      out.2.db.canonical.versions.length = w.db.canonical.versions.length + 1 ∧
      ¬ AllOrNothing plainStrata.engine 1 (plainRecord 2 "milk") w := by
  refine ⟨by decide, by decide, by decide, by decide, fun h => ?_⟩
  have hdrawn : Drawn (runCalls plainStrata plainWorld
      [.writeMemory "tea" {}, .requestDeletion 1 .hard true]) := by
    refine drawn_runCalls started_plainWorld ?_
    exact ⟨trivial, trivial, trivial⟩
  exact absurd ((allOrNothing_iff hdrawn).mp h).1 (by decide)

end StrataMemory.AtomicCorrections
