import StrataMemory.LiveMemories

set_option autoImplicit false

namespace StrataMemory.EmbeddedMemories
open KeyedTables Records Tables Procedures Worlds CommitEffects Coordinator CanonicalStore
open ManagedSurfaces SurfaceRounds DeletionFlows DeletionMachine DeletionInvariants FlowInvariants
open StoreRefinement WaitingQueue IndexAgreement SettledFlows IdleFlows IdleCalls Histories
open HandlerEffects LiveMemories Resolver VectorStore Engine Gateway NodeRuns

/-- Each entry of a row in the active generation is made of its text. -/
def Embeds (e : MemoryEngine) (w : World Memory) : Prop :=
  ∀ name ∈ e.vectorNames, ∀ id text rec, textOf w.db id = some text →
    (storesOf w.memory name).entries (id, w.memory.activeGeneration) = some rec →
      rec.vector = w.memory.embedder.embed text.1 ∧ rec.contentHash = text.2

theorem embedder_makeHandler (name : String) (op : Operation) (m : Memory) :
    (makeHandler name op m).2.embedder = m.embedder := by
  unfold makeHandler applyToStore
  split
  · rfl
  · cases op.opType <;> rfl

theorem embedder_flow (s : Strata) (embedder : Embedder) :
    FlowInvariant s (fun _ => True) (fun w => w.memory.embedder = embedder) fun _ => True where
  live _ _ _ _ _ := trivial
  clock _ hw := hw
  ack _ _ _ _ _ hw := hw
  progress b _ w hb _ hw := by
    rw [memory_apply (by cases b <;> first | rfl | cases hb)]
    exact hw
  handled name handler op w hh _ _ hw := by
    obtain ⟨_, rfl⟩ := handler_eq hh
    exact (embedder_makeHandler name op w.memory).trans hw
  flow c w hc hw := by cases hc <;> exact hw

theorem textOf_authority {w t : World Memory} (h : authority t = authority w) :
    textOf t.db = textOf w.db := by
  unfold textOf
  rw [readOne_of_authority h]

structure Receded (e : MemoryEngine) (w t : World Memory) : Prop where
  idle : Idle e t
  texts : ∀ id text, textOf t.db id = some text → textOf w.db id = some text
  entries : ∀ name, (storesOf t.memory name).entries = (storesOf w.memory name).entries
  embedder : t.memory.embedder = w.memory.embedder
  generation : t.memory.activeGeneration = w.memory.activeGeneration

section Receded
variable {s : Strata} {w t u : World Memory}

theorem Receded.refl (hw : Idle s.engine w) : Receded s.engine w w :=
  ⟨hw, fun _ _ h => h, fun _ => rfl, rfl, rfl⟩

theorem Embeds.receded (h : Embeds s.engine w) (hstep : Receded s.engine w t) :
    Embeds s.engine t := by
  intro name hname id text rec htext hentry
  rw [hstep.entries, hstep.generation] at hentry
  rw [hstep.embedder]
  exact h name hname id text rec (hstep.texts id text htext) hentry

theorem Receded.same (h : Receded s.engine w t) (hqueue : SameQueue t u)
    (htexts : ∀ id text, textOf u.db id = some text → textOf t.db id = some text)
    (hembedder : u.memory.embedder = t.memory.embedder)
    (hgeneration : u.memory.activeGeneration = t.memory.activeGeneration) :
    Receded s.engine w u where
  idle := h.idle.same hqueue
  texts id text hu := h.texts id text (htexts id text hu)
  entries name := by rw [hqueue.stores, h.entries]
  embedder := hembedder.trans h.embedder
  generation := hgeneration.trans h.generation

theorem receded_remove (ids : List RecordId) :
    ∀ surface ∈ s.engine.registry, (surface.remove ids).Preserves (Receded s.engine w) := by
  intro surface hsurface t ht
  have hpurged := purged_remove ids surface hsurface t (.refl ht.idle ids)
  have hembedder := ((embedder_flow s t.memory.embedder).purgeInvariant ids).remove surface hsurface
    t rfl
  refine ⟨hpurged.idle, fun id text htext => ht.texts id text ?_, fun name => ?_,
    hembedder.trans ht.embedder, hpurged.generation.trans ht.generation⟩
  · rwa [textOf_authority hpurged.authority] at htext
  · rw [hpurged.entries, ht.entries]

theorem receded_addDependency (parentId childId : RecordId) (rel : Relation) :
    (CanonicalStore.addDependency parentId childId rel : Prog Memory Unit).Preserves
      (Receded s.engine w) :=
  preserves_addDependency fun t ht => ht.same ⟨rfl, Nat.le_refl _, rfl, rfl⟩
    (fun id _ h => (congrFun (textOf_addDependency parentId childId rel t) id).symm.trans h) rfl rfl

theorem receded_setStatus (id : RecordId) (status : Status) :
    (CanonicalStore.setStatus id status : Prog Memory Unit).Preserves (Receded s.engine w) :=
  Proc.Preserves.perform fun t ht => ht.same ⟨rfl, Nat.le_refl _, rfl, rfl⟩
    (fun other _ h => (congrFun (textOf_setStatus id status t) other).symm.trans h) rfl rfl

theorem receded_reflection : ReflectionInvariant s (Receded s.engine w) where
  draw := Proc.Preserves.performing _ fun _ ht =>
    ht.same ⟨rfl, Nat.le_succ _, rfl, rfl⟩ (fun _ _ h => h) rfl rfl
  setStatus := receded_setStatus
  addDependency := receded_addDependency
  purge _ := preserves_purgeInto (receded_remove _) ∅
  propose _ := Proc.Preserves.perform fun _ ht =>
    ht.same ⟨rfl, Nat.le_refl _, rfl, rfl⟩ (fun _ _ h => h) rfl rfl

theorem receded_deletion {jobId : OpId} {ids : List RecordId} {mode : DeletionMode} :
    DeletionInvariant s.engine.deletion jobId ids mode (Receded s.engine w) where
  clock _ ht := ht.same ⟨rfl, Nat.le_refl _, rfl, rfl⟩ (fun _ _ h => h) rfl rfl
  mark _ _ _ _ _ ht := ht.same ⟨rfl, Nat.le_refl _, rfl, rfl⟩ (fun _ _ h => h) rfl rfl
  ack _ _ _ _ ht := ht.same ⟨rfl, Nat.le_refl _, rfl, rfl⟩ (fun _ _ h => h) rfl rfl
  erase _ _ _ _ ht := ht.same ⟨rfl, Nat.le_refl _, rfl, rfl⟩ (fun _ _ => textOf_hardDelete) rfl rfl
  rebuild _ _ ht := ht.same ⟨rfl, Nat.le_refl _, rfl, rfl⟩ (fun _ _ h => h) rfl rfl
  remove := receded_remove ids
  absent := preserves_absent _ _

theorem receded_requestDeletion (recordId : RecordId) (mode : DeletionMode)
    (includeDependents : Bool) :
    (requestDeletion s.engine.deletion recordId mode includeDependents).Preserves
      (Receded s.engine w) :=
  fun _ ht => requestDeletion_keeps
    (ht.same ⟨rfl, Nat.le_succ _, rfl, rfl⟩ (fun _ _ h => h) rfl rfl)
    (fun _ _ _ hu => hu.same ⟨rfl, Nat.le_refl _, rfl, rfl⟩
      (fun _ _ h => by rwa [textOf_tombstone] at h) rfl rfl) receded_deletion

end Receded

/-- The id has been given a text, and each store an entry that is made of it. -/
structure Taught (e : MemoryEngine) (id : RecordId) (text : String × String)
    (w t : World Memory) : Prop where
  idle : Idle e t
  own : textOf t.db id = some text
  others : ∀ other, other ≠ id → textOf t.db other = textOf w.db other
  entries : ∃ rec : VectorRecord, rec.vector = w.memory.embedder.embed text.1 ∧
    rec.contentHash = text.2 ∧ ∀ name k, (storesOf t.memory name).entries k =
      if name ∈ e.vectorNames ∧ k = (id, w.memory.activeGeneration) then some rec
      else (storesOf w.memory name).entries k
  embedder : t.memory.embedder = w.memory.embedder
  generation : t.memory.activeGeneration = w.memory.activeGeneration

section Taught
variable {s : Strata} {w t u : World Memory} {id : RecordId} {text : String × String}

theorem Taught.of_same (h : Taught s.engine id text u t) (htexts : textOf u.db = textOf w.db)
    (hmemory : u.memory = w.memory) : Taught s.engine id text w t where
  idle := h.idle
  own := h.own
  others other hne := by rw [h.others other hne, htexts]
  entries := hmemory ▸ h.entries
  embedder := by rw [h.embedder, hmemory]
  generation := by rw [h.generation, hmemory]

theorem Embeds.taught (h : Embeds s.engine w) (hstep : Taught s.engine id text w t) :
    Embeds s.engine t := by
  obtain ⟨rec, hvector, hhash, hentries⟩ := hstep.entries
  intro name hname other found held htext hentry
  rw [hentries, hstep.generation] at hentry
  rw [hstep.embedder]
  by_cases hsame : other = id
  · subst hsame
    rw [if_pos ⟨hname, rfl⟩] at hentry
    cases hentry
    cases hstep.own.symm.trans htext
    exact ⟨hvector, hhash⟩
  · rw [if_neg fun hboth => hsame (congrArg Prod.fst hboth.2)] at hentry
    exact h name hname other found held ((hstep.others other hsame).symm.trans htext) hentry

theorem write_text (r : MemoryRecord) (w : World Memory) :
    ∃ row, (CanonicalStore.write r : Prog Memory MemoryRecord).run w = (.ok row, apply (.write r) w) ∧
      (apply (.write r) w).db.readOne = Function.update w.db.readOne r.id (some row) ∧
      row.id = r.id ∧ (row.content, row.contentHash) = (r.content, r.contentHash) := by
  obtain ⟨row, hrun, hrows, hid, _⟩ := write_row r w
  obtain ⟨other, hother, htext⟩ := readOne_write_text w r
  rw [hrows, Function.update_self] at hother
  cases hother
  exact ⟨row, hrun, hrows, hid, htext⟩

theorem textOf_write (r : MemoryRecord) (w : World Memory) :
    textOf (apply (.write r) w).db =
      Function.update (textOf w.db) r.id (some (r.content, r.contentHash)) := by
  obtain ⟨row, _, hrows, _, htext⟩ := write_text r w
  funext id
  unfold textOf
  rw [hrows]
  by_cases h : id = r.id
  · subst h
    rw [Function.update_self, Function.update_self, Option.map_some, htext]
  · rw [Function.update_of_ne h, Function.update_of_ne h]

theorem taught_upserts (hstores : s.engine.vectorNames.length ≤ maxSteps) {z : World Memory}
    {row : MemoryRecord} (hz : Idle s.engine z)
    (htexts : textOf z.db = Function.update (textOf w.db) row.id (some (row.content, row.contentHash)))
    (hentries : ∀ name, (storesOf z.memory name).entries = (storesOf w.memory name).entries)
    (hembedder : z.memory.embedder = w.memory.embedder)
    (hgeneration : z.memory.activeGeneration = w.memory.activeGeneration) :
    Taught s.engine row.id (row.content, row.contentHash) w
      ((s.engine.enqueueVectorUpsert row z.memory.activeGeneration >>= fun _ =>
        runUntilIdle s.engine.coordinator >>= fun _ => pure row : Prog Memory MemoryRecord).final z) := by
  obtain ⟨hidle, hstill, hput⟩ := upserted hstores hz row z.memory.activeGeneration
  have hflow := embedder_flow s z.memory.embedder
  have hkept := (hflow.enqueueVectorUpsert trivial (r := row) z.memory.activeGeneration).bind
    (fun _ => hflow.runUntilIdle.bind fun _ => Proc.Preserves.pure row) z rfl
  have htext := textOf_authority hstill.authority
  refine ⟨hidle, ?_, fun other hne => ?_, ⟨MemoryEngine.vectorRecord z.memory.embedder row
    z.memory.activeGeneration, ?_, rfl, fun name k => ?_⟩, hkept.trans hembedder,
    hstill.generation.trans hgeneration⟩
  · rw [htext, htexts, Function.update_self]
  · rw [htext, htexts, Function.update_of_ne hne]
  · rw [hembedder]
    rfl
  · rw [hput, entries_upserts, hentries, hgeneration]

theorem taught_writeMemory (hstores : s.engine.vectorNames.length ≤ maxSteps)
    (hw : Idle s.engine w) (r : MemoryRecord) :
    Taught s.engine r.id (r.content, r.contentHash) w ((s.engine.writeMemory r none).final w) := by
  obtain ⟨row, hrun, _, hid, htext⟩ := write_text r w
  let v := apply (.indexPosting row.id row.content) (apply (.write r) w)
  have hindex : (index row : Prog Memory Unit).run (apply (.write r) w) = (.ok (), v) := rfl
  unfold MemoryEngine.writeMemory
  rw [Proc.final_bind_ok (Proc.run_read _ w), Proc.final_bind_ok hrun, Proc.final_bind_ok hindex,
    Option.getD_none, ← hid, ← htext]
  refine taught_upserts (z := v) hstores (hw.same ⟨rfl, Nat.le_refl _, rfl, rfl⟩) ?_ (fun _ => rfl)
    rfl rfl
  rw [htext, hid]
  exact textOf_write r w

theorem taught_correct (hstores : s.engine.vectorNames.length ≤ maxSteps) (hw : Idle s.engine w)
    {oldId : RecordId} {r : MemoryRecord} (hold : Correctable w oldId r.id) :
    Taught s.engine r.id (r.content, r.contentHash) w ((s.engine.correct oldId r).final w) := by
  obtain ⟨row, hrun, _, hid, htext⟩ := write_text r w
  let u := apply (.addDependency row.id oldId .supersedes) (unlinked oldId r w)
  let v := apply (.indexPosting row.id row.content) u
  let z := (purge s.engine.registry [oldId]).final v
  have hv : Idle s.engine v := hw.same ⟨rfl, Nat.le_refl _, rfl, rfl⟩
  have hpurged : Purged s.engine [oldId] v z := purged_purge [oldId] v (.refl hv _)
  have hembedder : z.memory.embedder = v.memory.embedder :=
    (embedder_flow s v.memory.embedder).purge [oldId] v rfl
  have hfinal : (s.engine.correct oldId r).final w =
      (s.engine.enqueueVectorUpsert row z.memory.activeGeneration >>= fun _ =>
        runUntilIdle s.engine.coordinator >>= fun _ => pure row : Prog Memory MemoryRecord).final z :=
    congrArg Prod.snd (correct_purged hrun hid hold rfl rfl)
  rw [hfinal, ← hid, ← htext]
  refine taught_upserts (z := z) hstores hpurged.idle ?_ hpurged.entries hembedder hpurged.generation
  have hread : textOf z.db = textOf u.db := textOf_authority hpurged.authority
  rw [hread, textOf_addDependency, unlinked, textOf_setStatus, textOf_write, htext, hid]

theorem taught_create (hstores : s.engine.vectorNames.length ≤ maxSteps) (hw : Idle s.engine w)
    (content : String) (fields : Fields) :
    ∃ id text, Taught s.engine id text w ((create s.engine.platform content fields >>= fun r =>
      s.engine.writeMemory r none).final w) := by
  obtain ⟨r, u, hrun, _, hdb, hmemory, hids⟩ := create_row s.engine.platform content fields w
  have hwrite := taught_writeMemory hstores (hw.of_same hdb hmemory hids) r
  refine ⟨r.id, (r.content, r.contentHash), ?_⟩
  rw [Proc.final_bind_ok hrun]
  exact hwrite.of_same (by rw [hdb]) hmemory

theorem taught_supersede (hstores : s.engine.vectorNames.length ≤ maxSteps) (hw : Idle s.engine w)
    {oldId : RecordId} (content : String) {fields : Fields}
    (hold : Correctable w oldId (createdId fields w)) :
    ∃ id text, Taught s.engine id text w (after s w (.supersedeMemory oldId content fields)) := by
  obtain ⟨r, u, hrun, ⟨hid, _, _⟩, hdb, hmemory, hids⟩ :=
    create_row s.engine.platform content fields w
  have hold' : Correctable u oldId r.id := by
    unfold Correctable
    rw [hid, hdb]
    exact hold
  have hcorrect := taught_correct hstores (hw.of_same hdb hmemory hids) hold'
  refine ⟨r.id, (r.content, r.contentHash), ?_⟩
  rw [after_supersede oldId hrun]
  exact hcorrect.of_same (by rw [hdb]) hmemory

theorem taught_update (hstores : s.engine.vectorNames.length ≤ maxSteps) (hw : Idle s.engine w)
    {recordId : RecordId} {old : MemoryRecord} (h : w.db.readOne recordId = some old) (text : String)
    (status : Option Status) :
    ∃ id text', Taught s.engine id text' w (after s w (.updateMemory recordId (some text) status)) := by
  let u := apply .readClock (apply (.removePostings [recordId]) w)
  let updated : MemoryRecord := { old with
    content := text, contentHash := s.engine.platform.contentHash text
    updatedAt := (apply (.removePostings [recordId]) w).now }
  have hu : Idle s.engine u := hw.same ⟨rfl, Nat.le_refl _, rfl, rfl⟩
  have hafter : after s w (.updateMemory recordId (some text) status) =
      (s.engine.writeMemory updated none).final u := by
    rw [after_update, h]
    exact final_summary _ _ u
  rw [hafter]
  exact ⟨_, _, (taught_writeMemory hstores hu updated).of_same rfl rfl⟩

structure Current (e : MemoryEngine) (embedder : Embedder) (w : World Memory) : Prop where
  idle : Idle e w
  embeds : Embeds e w
  embedder : w.memory.embedder = embedder

variable {embedder : Embedder}

theorem Current.receded (hw : Current s.engine embedder w) (h : Receded s.engine w t) :
    Current s.engine embedder t :=
  ⟨h.idle, hw.embeds.receded h, h.embedder.trans hw.embedder⟩

theorem Current.taught (hw : Current s.engine embedder w) (h : Taught s.engine id text w t) :
    Current s.engine embedder t :=
  ⟨h.idle, hw.embeds.taught h, h.embedder.trans hw.embedder⟩

/-- A call of the session that returns keeps the entries made of the texts. -/
theorem current_call (hstores : s.engine.vectorNames.length ≤ maxSteps) {c : Call}
    (hc : isSessionOperation c = true) (hreturned : Returned s w c)
    (hw : Current s.engine embedder w) : Current s.engine embedder (after s w c) := by
  have hmerging : MergingInvariant s (Receded s.engine w) := receded_reflection.merging
  have hrefl : Receded s.engine w w := .refl hw.idle
  cases c with
  | writeEvent content recordType fields =>
    obtain ⟨_, _, htaught⟩ := taught_create hstores hw.idle content
      { fields with recordType := recordType, tier := .l0 }
    rw [after_writeEvent]
    exact hw.taught htaught
  | writeMemory content fields =>
    obtain ⟨_, _, htaught⟩ := taught_create hstores hw.idle content fields
    rw [after_writeMemory]
    exact hw.taught htaught
  | updateMemory recordId content status =>
    cases hrow : w.db.readOne recordId with
    | none =>
      rw [after_update_none hrow]
      exact hw
    | some old =>
      cases content with
      | some text =>
        obtain ⟨_, _, htaught⟩ := taught_update hstores hw.idle hrow text status
        exact hw.taught htaught
      | none =>
        cases status with
        | none =>
          rw [after_touch hrow]
          exact hw
        | some status =>
          rw [after_patch hrow]
          exact hw.receded (receded_setStatus recordId status w hrefl)
  | supersedeMemory oldId content fields =>
    by_cases hold : Correctable w oldId (createdId fields w)
    · obtain ⟨_, _, htaught⟩ := taught_supersede hstores hw.idle content hold
      exact hw.taught htaught
    · exact absurd hreturned (stranded_supersede_call hw.idle content hold).1
  | linkSource derivedId sourceId =>
    exact hw.receded (receded_addDependency derivedId sourceId .derivedFrom w hrefl)
  | requestDeletion recordId mode includeDependents =>
    exact hw.receded ((receded_requestDeletion recordId mode includeDependents).discard w hrefl)
  | consolidate => exact hw.receded (hmerging.consolidate.discard w hrefl)
  | contradictionAudit => exact hw.receded (hmerging.contradictionAudit.discard w hrefl)
  | applyProposal id => exact hw.receded (hmerging.applyProposal id w hrefl)
  | rejectProposal id => exact hw.receded (hmerging.rejectProposal id w hrefl)
  | _ => cases hc

theorem current_runCalls (hstores : s.engine.vectorNames.length ≤ maxSteps) {calls : List Call}
    (hcalls : ∀ c ∈ calls, isSessionOperation c = true) (hreturned : AllReturned s w calls)
    (hw : Current s.engine embedder w) : Current s.engine embedder (runCalls s w calls) := by
  induction calls generalizing w with
  | nil => exact hw
  | cons c calls ih =>
    exact ih (fun d hd => hcalls d (List.mem_cons_of_mem _ hd)) hreturned.2
      (current_call hstores (hcalls c List.mem_cons_self) hreturned.1 hw)

theorem current_started (hstart : Started w) (hfaults : ∀ n, w.memory.faults n = false) :
    Current s.engine w.memory.embedder w := by
  refine ⟨idle_started hstart hfaults, fun name _ id text rec htext _ => ?_, rfl⟩
  unfold textOf at htext
  rw [hstart.db] at htext
  cases htext

/-- In every run of a session in which no adapter refuses and every call returns, whatever a
search of the active generation shows of a row is the embedding of its present content by the
embedder of the session. -/
theorem entries_embed_contents (s : Strata) (hstores : s.engine.vectorNames.length ≤ maxSteps)
    {w : World Memory} (hstart : Started w) (hfaults : ∀ n, w.memory.faults n = false)
    {calls : List Call} (hcalls : ∀ c ∈ calls, isSessionOperation c = true)
    (hreturned : AllReturned s w calls) :
    let t := runCalls s w calls
    ∀ name ∈ s.engine.vectorNames, ∀ row rec, t.db.readOne row.id = some row →
      (t.memory.store name).visible (row.id, t.memory.activeGeneration) = some rec →
        rec.vector = w.memory.embedder.embed row.content ∧ rec.contentHash = row.contentHash := by
  intro t name hname row rec hrow hvisible
  obtain ⟨_, hembeds, hembedder⟩ :=
    current_runCalls hstores hcalls hreturned (current_started hstart hfaults)
  rw [← shown_storesOf, shown_eq_some] at hvisible
  rw [← hembedder]
  exact hembeds name hname row.id _ rec (textOf_row hrow) hvisible.2

theorem entries_embed_contents_updated :
    let t := runCalls plainStrata plainWorld
      [.writeMemory "tea" {}, .updateMemory 1 (some "milk") none, .supersedeMemory 1 "coffee" {}]
    ∀ name ∈ plainStrata.engine.vectorNames, ∀ row rec, t.db.readOne row.id = some row →
      (t.memory.store name).visible (row.id, t.memory.activeGeneration) = some rec →
        rec.vector = plainEmbedder.embed row.content ∧ rec.contentHash = row.contentHash :=
  entries_embed_contents plainStrata (by decide) started_plainWorld (fun _ => rfl) (by decide)
    ⟨by decide, by decide, by decide, trivial⟩

end Taught
end StrataMemory.EmbeddedMemories
