import StrataMemory.IdleFlows

set_option autoImplicit false

namespace StrataMemory.IdleCalls
open KeyedTables Records Tables Procedures Worlds CommitEffects Coordinator CanonicalStore
open ManagedSurfaces DeletionFlows DeletionInvariants FlowInvariants StoreRefinement WaitingQueue
open IndexAgreement SettledFlows IdleFlows Engine Gateway NodeRuns

section Calls
variable {s : Strata} {w : World Memory}

theorem create_row (p : Platform) (content : String) (fields : Fields) (w : World Memory) :
    ∃ r u, (CanonicalStore.create p content fields : Prog Memory MemoryRecord).run w = (.ok r, u) ∧
      (r.id = createdId fields w ∧ r.status = fields.status ∧ r.contentHash = p.contentHash content) ∧
      u.db = w.db ∧ u.memory = w.memory ∧ u.operationIds = w.operationIds := by
  obtain ⟨recordType, tier, status, id, recordSubtype, confidence, confidenceReason, salience,
    sensitivity, embeddingModelId, embeddingGeneration, validFrom, validUntil, createdAt, updatedAt,
    currentVersionId, modelSide⟩ := fields
  cases id <;> cases createdAt <;> cases updatedAt <;>
    exact ⟨_, _, rfl, ⟨rfl, rfl, rfl⟩, rfl, rfl, rfl⟩

theorem given_create (hstores : s.engine.vectorNames.length ≤ maxSteps) (hw : Idle s.engine w)
    (content : String) (fields : Fields) :
    ∃ row, row.id = createdId fields w ∧ row.status = fields.status ∧
      row.contentHash = s.engine.platform.contentHash content ∧
      Given s.engine row [] w ((create s.engine.platform content fields >>= fun r =>
        s.engine.writeMemory r none).final w) := by
  obtain ⟨r, u, hrun, ⟨hid, hstatus, hhash⟩, hdb, hmemory, hids⟩ :=
    create_row s.engine.platform content fields w
  have hu := hw.of_same hdb hmemory hids
  obtain ⟨row, hid', hstatus', hhash', hgiven⟩ := given_writeMemory hstores hu r
  refine ⟨row, hid'.trans hid, hstatus'.trans hstatus, hhash'.trans hhash, ?_⟩
  rw [Proc.final_bind_ok hrun]
  exact hgiven.of_same hdb hmemory

theorem given_write_call (hstores : s.engine.vectorNames.length ≤ maxSteps) (hw : Idle s.engine w)
    (content : String) (fields : Fields) :
    ∃ row, row.id = createdId fields w ∧ row.status = fields.status ∧
      row.contentHash = s.engine.platform.contentHash content ∧
      Given s.engine row [] w (after s w (.writeMemory content fields)) := by
  rw [after_writeMemory]
  exact given_create hstores hw content fields

theorem given_supersede_call (hstores : s.engine.vectorNames.length ≤ maxSteps)
    (hw : Idle s.engine w) {oldId : RecordId} (content : String) {fields : Fields}
    (hold : Correctable w oldId (createdId fields w)) :
    ∃ row, row.id = createdId fields w ∧ row.status = fields.status ∧
      row.contentHash = s.engine.platform.contentHash content ∧
      Given s.engine row [oldId] w (after s w (.supersedeMemory oldId content fields)) := by
  obtain ⟨r, u, hrun, ⟨hid, hstatus, hhash⟩, hdb, hmemory, hids⟩ :=
    create_row s.engine.platform content fields w
  have hu := hw.of_same hdb hmemory hids
  have hold' : Correctable u oldId r.id := by
    unfold Correctable
    rw [hid, hdb]
    exact hold
  obtain ⟨row, hid', hstatus', hhash', hgiven⟩ := given_correct hstores hu hold'
  refine ⟨row, hid'.trans hid, hstatus'.trans hstatus, hhash'.trans hhash, ?_⟩
  rw [after_supersede oldId hrun]
  exact hgiven.of_same hdb hmemory

theorem stranded_supersede_call (hw : Idle s.engine w) {oldId : RecordId} (content : String)
    {fields : Fields} (hold : ¬ Correctable w oldId (createdId fields w)) :
    ¬ Returned s w (.supersedeMemory oldId content fields) ∧
      ∃ row, row.id = createdId fields w ∧ row.status = fields.status ∧
        row.contentHash = s.engine.platform.contentHash content ∧
        Stranded s.engine row w (after s w (.supersedeMemory oldId content fields)) := by
  obtain ⟨r, u, hrun, ⟨hid, hstatus, hhash⟩, hdb, hmemory, hids⟩ :=
    create_row s.engine.platform content fields w
  have hu := hw.of_same hdb hmemory hids
  have hold' : ¬ Correctable u oldId r.id := by
    unfold Correctable
    rw [hid, hdb]
    exact hold
  obtain ⟨herror, row, hid', hstatus', hhash', hstranded⟩ := stranded_correct hu hold'
  refine ⟨fun hreturned => ?_, row, hid'.trans hid, hstatus'.trans hstatus, hhash'.trans hhash, ?_⟩
  · obtain ⟨_, hok⟩ := Proc.ok_of_isOk hreturned
    obtain ⟨written, hok⟩ := Proc.of_discard_ok hok
    have hcorrect : (s.supersedeMemory oldId content fields).run w = (s.engine.correct oldId r).run u :=
      Proc.run_bind_ok hrun
    rw [← hcorrect, hok] at herror
    cases herror
  · rw [after_supersede oldId hrun]
    exact hstranded.of_same hdb hmemory

theorem after_update (recordId : RecordId) (content : Option String) (status : Option Status)
    (w : World Memory) : after s w (.updateMemory recordId content status) =
      (s.updateFound recordId content status (w.db.readOne recordId)).final w :=
  Proc.final_discard _ w

theorem after_update_none {recordId : RecordId} (h : w.db.readOne recordId = none)
    (content : Option String) (status : Option Status) :
    after s w (.updateMemory recordId content status) = w := by
  rw [after_update, h]
  rfl

theorem final_summary {α : Type} (p : Prog Memory α) (recordId : RecordId) (w : World Memory) :
    (p >>= fun _ => summary recordId).final w = p.final w := by
  unfold Proc.final
  rw [Proc.run_bind]
  rcases p.run w with ⟨_ | _, t⟩
  · rfl
  · exact FlowInvariant.summary (fun u => u = t) recordId t rfl

theorem after_patch {recordId : RecordId} {old : MemoryRecord}
    (h : w.db.readOne recordId = some old) (status : Status) :
    after s w (.updateMemory recordId none (some status)) = apply (.setStatus recordId status) w := by
  rw [after_update, h]
  exact final_summary _ _ w

theorem after_touch {recordId : RecordId} {old : MemoryRecord}
    (h : w.db.readOne recordId = some old) : after s w (.updateMemory recordId none none) = w := by
  rw [after_update, h]
  exact final_summary (pure () : Prog Memory Unit) _ w

theorem given_update_call (hstores : s.engine.vectorNames.length ≤ maxSteps) (hw : Idle s.engine w)
    {recordId : RecordId} {old : MemoryRecord} (h : w.db.readOne recordId = some old) (text : String)
    (status : Option Status) :
    ∃ row, row.id = recordId ∧ row.status = old.status ∧
      row.contentHash = s.engine.platform.contentHash text ∧
      Given s.engine row [] w (after s w (.updateMemory recordId (some text) status)) := by
  let u := apply .readClock (apply (.removePostings [recordId]) w)
  let updated : MemoryRecord := { old with
    content := text, contentHash := s.engine.platform.contentHash text
    updatedAt := (apply (.removePostings [recordId]) w).now }
  have hu : Idle s.engine u := hw.same ⟨rfl, Nat.le_refl _, rfl, rfl⟩
  obtain ⟨row, hid, hstatus, hhash, hgiven⟩ := given_writeMemory hstores hu updated
  have hold : old.id = recordId := Db.readOne_id h
  have hrow : row.id = recordId := hid.trans hold
  have hafter : after s w (.updateMemory recordId (some text) status) =
      (s.engine.writeMemory updated none).final u := by
    rw [after_update, h]
    exact final_summary _ _ u
  refine ⟨row, hrow, hstatus, hhash, hafter ▸ { hgiven with posted := fun id hid => ?_ }⟩
  rw [hgiven.posted id hid]
  by_cases hsame : id = row.id
  · rw [decide_eq_true hsame, Bool.true_or, Bool.true_or]
  · have hkept : u.db.hasPosting id = w.db.hasPosting id := by
      change (w.db.postings.eraseAll [recordId]).contains id = _
      rw [Table.contains_eraseAll, decide_eq_false (by simpa [← hrow] using hsame)]
      rfl
    rw [hkept]

theorem idle_of_same {c : Commit Memory} (h : ∀ w : World Memory, SameQueue w (apply c w)) :
    (commit c).Preserves (Idle s.engine) :=
  Proc.Preserves.perform fun w hw => hw.same (h w)

theorem idle_remove (ids : List RecordId) :
    ∀ t ∈ s.engine.registry, (t.remove ids).Preserves (Idle s.engine) :=
  fun t ht _ hw => (purged_remove ids t ht _ (.refl hw ids)).idle

theorem idle_reflection : ReflectionInvariant s (Idle s.engine) where
  draw := Proc.Preserves.performing _ fun _ hw => hw.same ⟨rfl, Nat.le_succ _, rfl, rfl⟩
  setStatus _ _ := idle_of_same fun _ => ⟨rfl, Nat.le_refl _, rfl, rfl⟩
  addDependency _ _ _ := preserves_addDependency fun _ hw => hw.same ⟨rfl, Nat.le_refl _, rfl, rfl⟩
  purge ids _ hw := (purged_purge ids _ (.refl hw ids)).idle
  propose _ := idle_of_same fun _ => ⟨rfl, Nat.le_refl _, rfl, rfl⟩

theorem idle_requestDeletion (recordId : RecordId) (mode : DeletionMode) (includeDependents : Bool) :
    (requestDeletion s.engine.deletion recordId mode includeDependents).Preserves
      (Idle s.engine) := by
  intro w hw
  refine requestDeletion_keeps (hw.same ⟨rfl, Nat.le_succ _, rfl, rfl⟩)
    (fun id _ t ht => ht.same ⟨rfl, Nat.le_refl _, rfl, rfl⟩) ?_
  exact ⟨fun _ hw => hw.same ⟨rfl, Nat.le_refl _, rfl, rfl⟩,
    fun _ _ _ _ _ hw => hw.same ⟨rfl, Nat.le_refl _, rfl, rfl⟩,
    fun _ _ _ _ hw => hw.same ⟨rfl, Nat.le_refl _, rfl, rfl⟩,
    fun _ _ _ _ hw => hw.same ⟨rfl, Nat.le_refl _, rfl, rfl⟩,
    fun _ _ hw => hw.same ⟨rfl, Nat.le_refl _, rfl, rfl⟩, idle_remove _, preserves_absent _ _⟩

theorem idle_openWith (embedder : Embedder) (custom : Bool) :
    (Strata.openWith embedder custom).Preserves (Idle s.engine) := by
  refine Proc.Preserves.bind (Proc.Preserves.perform fun w hw => ?_) fun _ => ?_
  · exact ⟨⟨hw.ready.waiting, hw.ready.fresh, hw.ready.faultless⟩, hw.empty⟩
  refine Proc.Preserves.bind (Proc.Preserves.perform fun w hw => ?_) fun _ => ?_
  · have hbacklog : backlog w = 0 := List.length_eq_zero_iff.mpr (List.map_eq_nil_iff.mp hw.empty)
    exact hw.same ⟨recover_idle hbacklog, Nat.le_refl _, rfl, rfl⟩
  · refine Proc.Preserves.perform fun w hw => ?_
    obtain ⟨hlog, _⟩ := registerGeneration_kept _ embedder.modelId .active w
    exact hw.same ⟨hlog, Nat.le_refl _, rfl, rfl⟩

/-- Whether it returns or raises, an operation of the gateway leaves the queue idle. -/
theorem idle_call (hstores : s.engine.vectorNames.length ≤ maxSteps) {c : Call}
    (hc : isGatewayOperation c = true) (hw : Idle s.engine w) : Idle s.engine (after s w c) := by
  cases c with
  | openWith embedder custom => exact idle_openWith embedder custom w hw
  | writeEvent content recordType fields =>
    obtain ⟨_, _, _, _, hgiven⟩ := given_create hstores hw content
      { fields with recordType := recordType, tier := .l0 }
    rw [after_writeEvent]
    exact hgiven.idle
  | writeMemory content fields =>
    obtain ⟨_, _, _, _, hgiven⟩ := given_write_call hstores hw content fields
    exact hgiven.idle
  | updateMemory recordId content status =>
    cases h : w.db.readOne recordId with
    | none => rwa [after_update_none h]
    | some old =>
      cases content with
      | some text =>
        obtain ⟨_, _, _, _, hgiven⟩ := given_update_call hstores hw h text status
        exact hgiven.idle
      | none =>
        cases status with
        | none => rwa [after_touch h]
        | some status =>
          rw [after_patch h]
          exact hw.same ⟨rfl, Nat.le_refl _, rfl, rfl⟩
  | supersedeMemory oldId content fields =>
    by_cases hold : Correctable w oldId (createdId fields w)
    · obtain ⟨_, _, _, _, hgiven⟩ := given_supersede_call hstores hw content hold
      exact hgiven.idle
    · obtain ⟨_, _, _, _, _, hstranded⟩ := stranded_supersede_call hw content hold
      exact hstranded.idle
  | linkSource derivedId sourceId => exact idle_reflection.addDependency _ _ _ w hw
  | requestDeletion recordId mode includeDependents =>
    exact (idle_requestDeletion recordId mode includeDependents).discard w hw
  | consolidate => exact idle_reflection.merging.consolidate.discard w hw
  | contradictionAudit => exact idle_reflection.merging.contradictionAudit.discard w hw
  | applyProposal id => exact idle_reflection.merging.applyProposal id w hw
  | rejectProposal id => exact idle_reflection.merging.rejectProposal id w hw
  | _ => cases hc

theorem idle_runCalls (hstores : s.engine.vectorNames.length ≤ maxSteps) {calls : List Call}
    (hcalls : ∀ c ∈ calls, isGatewayOperation c = true) (hw : Idle s.engine w) :
    Idle s.engine (runCalls s w calls) := by
  induction calls generalizing w with
  | nil => exact hw
  | cons c calls ih =>
    exact ih (fun d hd => hcalls d (List.mem_cons_of_mem _ hd))
      (idle_call hstores (hcalls c List.mem_cons_self) hw)

end Calls
end StrataMemory.IdleCalls
