import StrataMemory.Histories
import StrataMemory.SettledFlows
import StrataMemory.VerifiedDeletions

set_option autoImplicit false

namespace StrataMemory.CrashedCalls
open KeyedTables Records Tables Procedures Worlds CommitEffects Coordinator CoordinatorRuns
open LogConservation CanonicalStore ManagedSurfaces DeletionFlows SurfaceRounds VerifiedDeletions
open IndexAgreement SettledFlows Histories Engine Gateway NodeRuns

inductive EngineCall where
  | writeMemory (record : MemoryRecord) (generation : Option ℤ)
  | correct (oldId : RecordId) (record : MemoryRecord) (relation : Relation)

def EngineCall.record : EngineCall → MemoryRecord
  | .writeMemory record _ => record
  | .correct _ record _ => record

def EngineCall.program (e : MemoryEngine) : EngineCall → Prog Memory MemoryRecord
  | .writeMemory record generation => e.writeMemory record generation
  | .correct oldId record relation => e.correct oldId record relation

/-- A call runs to its end, or the process dies after some of its commits and another opens
the file and recovers. -/
inductive EngineStep where
  | call (c : EngineCall)
  | crash (c : EngineCall) (commits : ℕ) (embedder : Embedder) (custom : Bool)

def EngineStep.record : EngineStep → MemoryRecord
  | .call c | .crash c _ _ _ => c.record

def issued (e : MemoryEngine) (w : World Memory) : EngineStep → List (Commit Memory)
  | .call c => (c.program e).trace w
  | .crash c commits _ _ => ((c.program e).trace w).take commits

def afterStep (e : MemoryEngine) (w : World Memory) : EngineStep → World Memory
  | .call c => (c.program e).final w
  | .crash c commits embedder custom =>
    (Strata.openWith embedder custom).final ((c.program e).cut commits w)

def Carries (op : Operation) (name : String) (id : RecordId) (contentHash : String) : Prop :=
  op.opType = .upsertIndex ∧ op.target = some name ∧
    ∃ rec ∈ op.records, rec.id = id ∧ rec.contentHash = contentHash

/-- Every content of the rows has an upsert in the log for each store. -/
def ContentsQueued (e : MemoryEngine) (w : World Memory) : Prop :=
  ∀ id r, w.db.readOne id = some r → ∀ name ∈ e.vectorNames,
    ∃ row ∈ w.db.opLog.rows, Carries row.operation name id r.contentHash

def Logged (w : World Memory) (name : String) (r : MemoryRecord) : Prop :=
  ∃ op ∈ operations w.db.opLog, Carries op name r.id r.contentHash

def Queues (cs : List (Commit Memory)) (name : String) (r : MemoryRecord) : Prop :=
  ∃ op, .enqueue op ∈ cs ∧ Carries op name r.id r.contentHash

/-- If the content was written, then for each store an upsert of it was queued, or one is
in the log from before. -/
def Recorded (e : MemoryEngine) (w : World Memory) (step : EngineStep) : Prop :=
  .write step.record ∈ issued e w step → ∀ name ∈ e.vectorNames,
    Logged w name step.record ∨ Queues (issued e w step) name step.record

structure Ledger where
  hashes : RecordId → Option String
  operations : List Operation

def ledger (w : World Memory) : Ledger where
  hashes id := (textOf w.db id).map Prod.snd
  operations := operations w.db.opLog

def Ledger.enter (l : Ledger) : Commit Memory → Ledger
  | .write r => { l with hashes := Function.update l.hashes r.id (some r.contentHash) }
  | .enqueue op => { l with operations := l.operations ++ [op] }
  | _ => l

def queuedOp : Commit Memory → Option Operation
  | .enqueue op => some op
  | _ => none

/-- A commit of a call that writes `record`: it erases nothing, and queues under a new id;
an upsert only where those are allowed. -/
def Issuable (record : MemoryRecord) (upserts : Bool) (c : Commit Memory) (w : World Memory) :
    Prop :=
  match c with
  | .hardDelete _ => False
  | .write r => r = record
  | .enqueue op => (op.opType = .upsertIndex → upserts = true) ∧ op.opId < w.operationIds ∧
    op.opId ∉ (operations w.db.opLog).map Operation.opId
  | _ => True

def Drawn (w : World Memory) : Prop := ∀ op ∈ operations w.db.opLog, op.opId < w.operationIds

section Commits
variable {record : MemoryRecord} {upserts : Bool} {w : World Memory} {c : Commit Memory}

theorem operations_append_fresh {log : OpLog} {op : Operation}
    (h : op.opId ∉ (operations log).map Operation.opId) (now : Time) :
    operations (log.append op now) = operations log ++ [op] := by
  rcases operations_append log op now with ⟨_, hmem⟩ | ⟨hops, _⟩
  · exact absurd hmem h
  · exact hops

theorem hashes_write (w : World Memory) (r : MemoryRecord) :
    (ledger (apply (.write r) w)).hashes =
      Function.update (ledger w).hashes r.id (some r.contentHash) := by
  funext id
  by_cases hid : id = r.id
  · subst hid
    obtain ⟨row, hrow, htext⟩ := readOne_write_text w r
    have hhash : row.contentHash = r.contentHash := congrArg Prod.snd htext
    rw [Function.update_self]
    change (textOf (apply (.write r) w).db r.id).map Prod.snd = _
    unfold textOf
    rw [hrow, ← hhash]
    rfl
  · rw [Function.update_of_ne hid]
    change (textOf (apply (.write r) w).db id).map Prod.snd = (textOf w.db id).map Prod.snd
    unfold textOf
    rw [readOne_write_of_ne (Ne.symm hid)]

theorem ledger_apply (h : Issuable record upserts c w) : ledger (apply c w) = (ledger w).enter c := by
  have htexts : ∀ t : World Memory, textOf t.db = textOf w.db → t.db.opLog = w.db.opLog →
      ledger t = ledger w := by
    intro t htext hsame
    unfold ledger
    rw [htext, hsame]
  cases c with
  | hardDelete id => exact h.elim
  | write r => exact congrArg (Ledger.mk · _) (hashes_write w r)
  | enqueue op => exact congrArg (Ledger.mk _) (operations_append_fresh h.2.2 _)
  | setStatus id status => exact htexts _ (textOf_setStatus id status w) rfl
  | tombstone id mode jobId state => exact htexts _ (textOf_tombstone id mode jobId state w) rfl
  | addDependency parentId childId rel =>
    exact htexts _ (textOf_addDependency parentId childId rel w) rfl
  | registerGeneration generation modelId status =>
    obtain ⟨hlog, hcanonical, _⟩ := registerGeneration_kept generation modelId status w
    exact htexts _ (textOf_same hcanonical) hlog
  | recover | setOpState | finish | failOp | deferOp | retryOp =>
    exact congrArg (Ledger.mk _) (operations_advance _ _ _)
  | _ => rfl

def isEnqueue : Commit Memory → Bool
  | .enqueue _ => true
  | _ => false

theorem drawn_enqueue (hw : Drawn w) {op : Operation} (hop : op.opId < w.operationIds) :
    Drawn (apply (.enqueue op) w) := by
  intro other hother
  change other ∈ operations (w.db.opLog.append op w.now) at hother
  rcases operations_append w.db.opLog op w.now with ⟨hsame, _⟩ | ⟨hops, _⟩
  · rw [hsame] at hother
    exact hw other hother
  · rw [hops] at hother
    rcases List.mem_append.mp hother with hother | hother
    · exact hw other hother
    · cases List.mem_singleton.mp hother
      exact hop

theorem drawn_kept {c : Commit Memory} (hc : isEnqueue c = false) (hw : Drawn w) :
    Drawn (apply c w) := by
  have hids : w.operationIds ≤ (apply c w).operationIds := by
    cases c <;> first | exact Nat.le_refl _ | exact Nat.le_succ _
  have hops : operations (apply c w).db.opLog = operations w.db.opLog := by
    cases c with
    | enqueue op => cases hc
    | registerGeneration generation modelId status =>
      exact congrArg operations (registerGeneration_kept generation modelId status w).1
    | recover | setOpState | finish | failOp | deferOp | retryOp => exact operations_advance _ _ _
    | _ => rfl
  intro op hop
  exact Nat.lt_of_lt_of_le (hw op (hops ▸ hop)) hids

theorem drawn_apply (hw : Drawn w) (h : Issuable record upserts c w) : Drawn (apply c w) := by
  cases c with
  | enqueue op => exact drawn_enqueue hw h.2.1
  | _ => exact drawn_kept rfl hw

end Commits

def Careful (record : MemoryRecord) (upserts : Bool) {α : Type} (p : Prog Memory α) : Prop :=
  ∀ w, Drawn w → p.Heeds (Issuable record upserts) w

section Careful
variable {record : MemoryRecord} {upserts : Bool} {α β : Type}

theorem Careful.bind {p : Prog Memory α} {f : α → Prog Memory β} (hp : Careful record upserts p)
    (hf : ∀ a, Careful record upserts (f a)) : Careful record upserts (p >>= f) := fun w hw =>
  Proc.Heeds.bind (fun _ _ => drawn_apply) hw (hp w hw) fun a t => hf a t

theorem careful_pure (a : α) : Careful record upserts (pure a : Prog Memory α) := fun _ _ => trivial

theorem careful_read (f : World Memory → α) : Careful record upserts (Proc.read f : Prog Memory α) :=
  fun _ _ => trivial

theorem careful_forM {γ : Type} {f : γ → Prog Memory PUnit} (hf : ∀ x, Careful record upserts (f x))
    (xs : List γ) : Careful record upserts (xs.forM f) := by
  induction xs with
  | nil => exact careful_pure _
  | cons x xs ih => exact (hf x).bind fun _ => ih

theorem careful_commit (c : Commit Memory) (h : ∀ w, Issuable record upserts c w) :
    Careful record upserts (Worlds.commit c) := fun w _ => ⟨h w, trivial⟩

theorem careful_queue {op : OpId → Operation} (hop : ∀ opId, (op opId).opId = opId)
    (hupsert : ∀ opId, (op opId).opType = .upsertIndex → upserts = true) :
    Careful record upserts (newOperationId >>= fun opId => enqueue (op opId)) := by
  intro w hw
  have hid := hop w.operationIds
  refine ⟨trivial, ⟨hupsert _, ?_, fun hmem => ?_⟩, trivial⟩
  · rw [hid]
    exact Nat.lt_succ_self _
  · obtain ⟨other, hother, hsame⟩ := List.mem_map.mp hmem
    have hlt := hw other hother
    rw [hsame, hid] at hlt
    exact Nat.lt_irrefl _ hlt

theorem careful_drain (c : WriteCoordinator Memory) (steps : ℕ) :
    Careful record upserts (drain c steps) := fun w _ =>
  (drain_uses c steps).heeds (fun c w hc => by cases c <;> first | exact trivial | cases hc) w

theorem careful_removePostings (ids : List RecordId) :
    Careful record upserts (CanonicalStore.removePostings ids) := by
  unfold CanonicalStore.removePostings
  split
  · exact careful_pure _
  · exact careful_commit (.removePostings ids) fun _ => trivial

theorem careful_remove (e : MemoryEngine) (ids : List RecordId) :
    ∀ s ∈ e.registry, Careful record upserts (s.remove ids) := by
  intro s hs
  rcases List.mem_append.mp hs with hs | hs
  · rcases List.mem_cons.mp hs with rfl | hs
    · exact (careful_removePostings ids).bind fun _ => careful_read _
    · obtain ⟨name, _, rfl⟩ := List.mem_map.mp hs
      have hqueue : Careful record upserts (newOperationId >>= fun opId =>
          enqueue ⟨.removeIndex, ids, some name, none, none, opId⟩) :=
        careful_queue (fun _ => rfl) fun _ htype => absurd htype (by simp)
      have hrest : Careful record upserts ((newOperationId >>= fun opId =>
          enqueue ⟨.removeIndex, ids, some name, none, none, opId⟩) >>= fun _ =>
          runUntilIdle e.coordinator >>= fun _ =>
          Proc.read fun w : World Memory => ids.map fun i => (i, !w.memory.vectorContains name i)) :=
        hqueue.bind fun _ => (careful_drain _ _).bind fun _ => careful_read _
      exact hrest
  · cases List.mem_singleton.mp hs
    exact (careful_commit (.memory _) fun _ => trivial).bind fun _ => careful_read _

theorem careful_purgeInto {registry : Registry Memory} {ids : List RecordId}
    (hr : ∀ s ∈ registry, Careful record upserts (s.remove ids)) (report : Report) :
    Careful record upserts (purgeInto ids registry report) := by
  induction registry generalizing report with
  | nil => exact careful_pure _
  | cons s rest ih =>
    refine (careful_commit (.surfaceRemove s.name) fun _ => trivial).bind fun _ => ?_
    exact (hr s List.mem_cons_self).bind fun _ => ih (fun t ht => hr t (List.mem_cons_of_mem _ ht)) _

theorem careful_upserts (e : MemoryEngine) (embedder : Embedder) (r : MemoryRecord)
    (generation : ℤ) : Careful record true (e.enqueueUpserts embedder r generation) := by
  refine careful_forM (fun name => ?_) _
  have hqueue : Careful record true (newOperationId >>= fun opId => enqueue ⟨.upsertIndex, [r.id],
      some name, some [MemoryEngine.vectorRecord embedder r generation], some generation, opId⟩) :=
    careful_queue (fun _ => rfl) fun _ _ => rfl
  exact hqueue.bind fun _ => careful_pure _

theorem careful_write (record : MemoryRecord) :
    Careful record upserts (CanonicalStore.write record) :=
  (careful_commit (.write record) fun _ => rfl).bind fun _ =>
    (careful_read _).bind fun _ => careful_pure _

theorem careful_enqueueVectorUpsert (e : MemoryEngine) (r : MemoryRecord) (generation : ℤ) :
    Careful record true (e.enqueueVectorUpsert r generation) :=
  (careful_read _).bind fun embedder => careful_upserts e embedder r generation

theorem careful_flow (e : MemoryEngine) (oldId : RecordId) (record : MemoryRecord)
    (relation : Relation) :
    Careful record upserts (DeletionFlows.correct e.deletion oldId record relation) := by
  refine (careful_write record).bind fun written => ?_
  refine (careful_commit (.setStatus oldId _) fun _ => trivial).bind fun _ => ?_
  have hedge : Careful record upserts (CanonicalStore.addDependency written.id oldId relation) := by
    intro w _
    change True ∧ Proc.Heeds _ (if w.db.canonical.edgeAllowed written.id oldId then .done ()
      else raise .integrityError) _
    split <;> exact ⟨trivial, trivial⟩
  refine hedge.bind fun _ => ?_
  refine (careful_commit (.indexPosting _ _) fun _ => trivial).bind fun _ => ?_
  exact (careful_purgeInto (careful_remove e [oldId]) ∅).bind fun _ => careful_pure _

theorem careful_program (e : MemoryEngine) (c : EngineCall) :
    Careful c.record true (c.program e) := by
  cases c with
  | writeMemory record generation =>
    refine (careful_read _).bind fun active => (careful_write record).bind fun written => ?_
    refine (careful_commit (.indexPosting _ _) fun _ => trivial).bind fun _ => ?_
    refine (careful_enqueueVectorUpsert e written _).bind fun _ => ?_
    exact (careful_drain _ _).bind fun _ => careful_pure _
  | correct oldId record relation =>
    refine (careful_flow e oldId record relation).bind fun written => ?_
    refine (careful_read _).bind fun active => ?_
    refine (careful_enqueueVectorUpsert e written active).bind fun _ => ?_
    exact (careful_drain _ _).bind fun _ => careful_pure _

end Careful

section Steps
variable {e : MemoryEngine} {w : World Memory} {step : EngineStep}

theorem ledger_openWith (embedder : Embedder) (custom : Bool) (w : World Memory) :
    ledger ((Strata.openWith embedder custom).final w) = ledger w := by
  let opened := apply (.memory fun m =>
    ⟨∅, ∅, ∅, embedder, if custom then 2 else 1, m.faults, m.calls⟩) w
  let recovered : World Memory := apply .recover opened
  obtain ⟨hlog, hcanonical, _⟩ :=
    registerGeneration_kept (if custom then 2 else 1) embedder.modelId .active recovered
  change ledger (apply (.registerGeneration (if custom then 2 else 1) embedder.modelId .active)
    recovered) = _
  unfold ledger
  rw [textOf_same hcanonical, hlog]
  exact congrArg (Ledger.mk _) (operations_advance _ _ _)

theorem issued_eq_take (e : MemoryEngine) (w : World Memory) (step : EngineStep) :
    ∃ (c : EngineCall) (k : ℕ), c.record = step.record ∧
      issued e w step = ((c.program e).trace w).take k ∧
      ledger (afterStep e w step) = ledger ((c.program e).cut k w) ∧
      (afterStep e w step).operationIds = ((c.program e).cut k w).operationIds := by
  cases step with
  | call c =>
    let all := ((c.program e).trace w).length
    have hcut : (c.program e).cut all w = (c.program e).final w :=
      Proc.cut_of_length_le (Nat.le_refl all)
    exact ⟨c, all, rfl, List.take_length.symm, congrArg ledger hcut.symm,
      congrArg World.operationIds hcut.symm⟩
  | crash c commits embedder custom =>
    exact ⟨c, commits, rfl, rfl, ledger_openWith embedder custom _, rfl⟩

theorem ledger_step (hw : Drawn w) : Drawn (afterStep e w step) ∧
    ledger (afterStep e w step) = (issued e w step).foldl Ledger.enter (ledger w) := by
  obtain ⟨c, k, hrecord, hissued, hledger, hids⟩ := issued_eq_take e w step
  have hheeds := careful_program e c w hw
  have hdrawn := hheeds.cut (fun _ _ => drawn_apply) hw k
  have hops : operations (afterStep e w step).db.opLog =
      operations ((c.program e).cut k w).db.opLog := congrArg Ledger.operations hledger
  refine ⟨fun op hop => ?_, ?_⟩
  · rw [hids]
    exact hdrawn op (hops ▸ hop)
  · rw [hledger, hissued]
    exact hheeds.view (fun _ _ => ledger_apply) k

theorem issued_writes (hw : Drawn w) {r : MemoryRecord} (hr : .write r ∈ issued e w step) :
    r = step.record := by
  obtain ⟨c, k, hrecord, hissued, _⟩ := issued_eq_take e w step
  rw [hissued] at hr
  obtain ⟨t, ht⟩ := (careful_program e c w hw).trace _ (List.mem_of_mem_take hr)
  exact (show r = c.record from ht).trans hrecord

theorem operations_entered (cs : List (Commit Memory)) (l : Ledger) :
    (cs.foldl Ledger.enter l).operations = l.operations ++ cs.filterMap queuedOp := by
  induction cs generalizing l with
  | nil => exact (List.append_nil _).symm
  | cons c cs ih =>
    rw [List.foldl_cons, ih]
    cases c with
    | enqueue op => exact List.append_assoc _ [op] _
    | _ => rfl

theorem hashes_entered {record : MemoryRecord} {cs : List (Commit Memory)} (l : Ledger)
    (hcs : ∀ r, .write r ∈ cs → r = record) (id : RecordId) :
    (cs.foldl Ledger.enter l).hashes id = l.hashes id ∨
      .write record ∈ cs ∧ id = record.id ∧
        (cs.foldl Ledger.enter l).hashes id = some record.contentHash := by
  induction cs generalizing l with
  | nil => exact .inl rfl
  | cons c cs ih =>
    have hrest := ih (l.enter c) fun r hr => hcs r (List.mem_cons_of_mem _ hr)
    rcases hrest with hsame | ⟨hmem, hid, hhash⟩
    · rw [List.foldl_cons, hsame]
      cases c with
      | write r =>
        obtain rfl := hcs r List.mem_cons_self
        by_cases hid : id = r.id
        · refine .inr ⟨List.mem_cons_self, hid, ?_⟩
          rw [hid]
          exact Function.update_self ..
        · exact .inl (Function.update_of_ne hid _ _)
      | _ => exact .inl rfl
    · exact .inr ⟨List.mem_cons_of_mem _ hmem, hid, hhash⟩

theorem hash_entered_self {record : MemoryRecord} {cs : List (Commit Memory)} (l : Ledger)
    (hcs : ∀ r, .write r ∈ cs → r = record)
    (h : .write record ∈ cs ∨ l.hashes record.id = some record.contentHash) :
    (cs.foldl Ledger.enter l).hashes record.id = some record.contentHash := by
  induction cs generalizing l with
  | nil => exact h.resolve_left List.not_mem_nil
  | cons c cs ih =>
    refine ih (l.enter c) (fun r hr => hcs r (List.mem_cons_of_mem _ hr)) ?_
    rcases h with hmem | hhash
    · rcases List.mem_cons.mp hmem with rfl | hmem
      · exact .inr (Function.update_self ..)
      · exact .inl hmem
    · cases c with
      | write r =>
        obtain rfl := hcs r List.mem_cons_self
        exact .inr (Function.update_self ..)
      | _ => exact .inr hhash

theorem hashes_row {id : RecordId} {hash : String} :
    (ledger w).hashes id = some hash ↔ ∃ r, w.db.readOne id = some r ∧ r.contentHash = hash := by
  change (((w.db.readOne id).map fun r => (r.content, r.contentHash)).map Prod.snd) = some hash ↔ _
  rw [Option.map_map, Option.map_eq_some_iff]
  rfl

theorem contentsQueued_iff : ContentsQueued e w ↔
    ∀ id hash, (ledger w).hashes id = some hash → ∀ name ∈ e.vectorNames,
      ∃ op ∈ (ledger w).operations, Carries op name id hash := by
  have hrows : ∀ name id hash, (∃ row ∈ w.db.opLog.rows, Carries row.operation name id hash) ↔
      ∃ op ∈ (ledger w).operations, Carries op name id hash := by
    intro name id hash
    change _ ↔ ∃ op ∈ w.db.opLog.rows.map OpRow.operation, _
    simp
  constructor
  · intro h id hash hhash name hname
    obtain ⟨r, hr, rfl⟩ := hashes_row.mp hhash
    exact (hrows _ _ _).mp (h id r hr name hname)
  · intro h id r hr name hname
    exact (hrows _ _ _).mpr (h id r.contentHash (hashes_row.mpr ⟨r, hr, rfl⟩) name hname)

/-- A step leaves every content with its upserts if and only if it records what it writes. -/
theorem contentsQueued_step (hdrawn : Drawn w) (hw : ContentsQueued e w) :
    ContentsQueued e (afterStep e w step) ↔ Recorded e w step := by
  have hledger : ledger (afterStep e w step) = (issued e w step).foldl Ledger.enter (ledger w) :=
    (ledger_step hdrawn).2
  have hwrites : ∀ r, .write r ∈ issued e w step → r = step.record := fun r hr =>
    issued_writes hdrawn hr
  have hops := operations_entered (issued e w step) (ledger w)
  rw [contentsQueued_iff, hledger]
  constructor
  · intro hafter hwritten name hname
    have hhash := hash_entered_self (ledger w) hwrites (.inl hwritten)
    obtain ⟨op, hop, hcarries⟩ := hafter _ _ hhash name hname
    rw [hops] at hop
    rcases List.mem_append.mp hop with hop | hop
    · exact .inl ⟨op, hop, hcarries⟩
    · obtain ⟨c, hc, hqueued⟩ := List.mem_filterMap.mp hop
      cases c <;> cases hqueued
      exact .inr ⟨op, hc, hcarries⟩
  · intro hrecorded id hash hhash name hname
    have hold : ∀ op ∈ (ledger w).operations, Carries op name id hash →
        ∃ op ∈ ((issued e w step).foldl Ledger.enter (ledger w)).operations,
          Carries op name id hash := fun op hop hcarries =>
      ⟨op, hops ▸ List.mem_append_left _ hop, hcarries⟩
    rcases hashes_entered (ledger w) hwrites id with hsame | ⟨hwritten, rfl, hnew⟩
    · obtain ⟨op, hop, hcarries⟩ := contentsQueued_iff.mp hw id hash (hsame ▸ hhash) name hname
      exact hold op hop hcarries
    · cases hnew.symm.trans hhash
      rcases hrecorded hwritten name hname with ⟨op, hop, hcarries⟩ | ⟨op, hop, hcarries⟩
      · exact hold op hop hcarries
      · refine ⟨op, hops ▸ List.mem_append_right _ ?_, hcarries⟩
        exact List.mem_filterMap.mpr ⟨_, hop, rfl⟩

end Steps

def queueStart (e : MemoryEngine) (w : World Memory) : EngineCall → ℕ
  | .writeMemory _ _ => 2
  | .correct oldId record relation =>
    ((DeletionFlows.correct e.deletion oldId record relation).trace w).length

def Linked (w : World Memory) : EngineCall → Prop
  | .writeMemory _ _ => True
  | .correct oldId record _ => oldId = record.id ∨ w.db.canonical.records.contains oldId = true

/-- Nothing comes between the write of a content and the enqueue of its upserts, each of
which takes two commits, unless the log has them already. -/
def Undivided (e : MemoryEngine) (w : World Memory) : EngineStep → Prop
  | .call c => Linked w c ∨ ∀ name ∈ e.vectorNames, Logged w name c.record
  | .crash c commits _ _ => commits = 0 ∨ ∀ name ∈ e.vectorNames, Logged w name c.record ∨
      Linked w c ∧ name ∈ e.vectorNames.take ((commits - queueStart e w c) / 2)

def isUpsert : Commit Memory → Bool
  | .enqueue op => op.opType = .upsertIndex
  | _ => false

section Undivided
variable {e : MemoryEngine} {w : World Memory} {name : String}

theorem queues_append {cs ds : List (Commit Memory)} {r : MemoryRecord} :
    Queues (cs ++ ds) name r ↔ Queues cs name r ∨ Queues ds name r := by
  simp only [Queues, List.mem_append, or_and_right, exists_or]

theorem not_queues {cs : List (Commit Memory)} {r : MemoryRecord}
    (h : ∀ c ∈ cs, isUpsert c = false) (k : ℕ) : ¬ Queues (cs.take k) name r := by
  rintro ⟨op, hop, htype, _⟩
  exact absurd htype (of_decide_eq_false (h _ (List.mem_of_mem_take hop)))

theorem quiet_drain (c : WriteCoordinator Memory) (steps : ℕ) :
    (drain c steps).Uses fun c => isUpsert c = false :=
  (drain_uses c steps).mono fun c hc => by cases c <;> first | rfl | cases hc

theorem quiet_flow (hw : Drawn w) (oldId : RecordId) (record : MemoryRecord)
    (relation : Relation) :
    ∀ c ∈ (DeletionFlows.correct e.deletion oldId record relation).trace w, isUpsert c = false := by
  intro c hc
  have hflow : Careful record false (DeletionFlows.correct e.deletion oldId record relation) :=
    careful_flow e oldId record relation
  obtain ⟨t, ht⟩ := (hflow w hw).trace c hc
  cases c with
  | enqueue op => exact decide_eq_false fun htype => Bool.noConfusion (ht.1 htype)
  | _ => rfl

theorem upserts_queues (name : String) (embedder : Embedder) (r : MemoryRecord) (generation : ℤ)
    (names : List String) (w : World Memory) (k : ℕ) :
    Queues (((names.forM (upsertInto embedder r generation)).trace w).take k) name r ↔
      name ∈ names.take (k / 2) := by
  induction names generalizing w k with
  | nil =>
    change Queues (([] : List (Commit Memory)).take k) name r ↔ name ∈ ([] : List String).take (k / 2)
    simp [Queues]
  | cons other names ih =>
    let op : Operation := ⟨.upsertIndex, [r.id], some other,
      some [MemoryEngine.vectorRecord embedder r generation], some generation, w.operationIds⟩
    let u := apply (.enqueue op) (apply .newOperationId w)
    have hrun : (upsertInto embedder r generation other).run w = (.ok (), u) := rfl
    have htrace : ((other :: names).forM (upsertInto embedder r generation)).trace w =
        [.newOperationId, .enqueue op] ++
          (names.forM (upsertInto embedder r generation)).trace u := Proc.trace_bind_ok hrun
    have hop : Queues [.newOperationId, .enqueue op] name r ↔ name = other := by
      constructor
      · rintro ⟨queued, hmem, _, htarget, _⟩
        obtain rfl : queued = op := by simpa using hmem
        exact (Option.some.inj htarget).symm
      · rintro rfl
        exact ⟨op, by simp, rfl, rfl, _, List.mem_singleton_self _, rfl, rfl⟩
    rw [htrace]
    rcases k with _ | _ | k
    · simp [Queues]
    · simp [Queues]
    · have hhalf : (k + 1 + 1) / 2 = k / 2 + 1 := by omega
      rw [hhalf, List.take_succ_cons, List.mem_cons, ← ih u k, ← hop, ← queues_append]
      rfl

def afterWrite (e : MemoryEngine) (written : MemoryRecord) (generation : ℤ) :
    Prog Memory MemoryRecord :=
  e.enqueueVectorUpsert written generation >>= fun _ =>
    runUntilIdle e.coordinator >>= fun _ => pure written

theorem afterWrite_queues {written record : MemoryRecord} (hid : written.id = record.id)
    (hhash : written.contentHash = record.contentHash) {before : List (Commit Memory)}
    (hbefore : ∀ c ∈ before, isUpsert c = false) (generation : ℤ) (w : World Memory) (k : ℕ) :
    Queues ((before ++ (afterWrite e written generation).trace w).take k) name record ↔
      name ∈ e.vectorNames.take ((k - before.length) / 2) := by
  let u := (e.vectorNames.forM (upsertInto w.memory.embedder written generation)).final w
  have hrest : (runUntilIdle e.coordinator >>= fun _ => pure written : Prog Memory _).Uses
      fun c => isUpsert c = false := (quiet_drain _ _).bind fun _ => trivial
  have htrace : (e.enqueueVectorUpsert written generation).trace w =
      (e.vectorNames.forM (upsertInto w.memory.embedder written generation)).trace w := rfl
  have hupserts := upserts_queues name w.memory.embedder written generation e.vectorNames w
    (k - before.length)
  rw [Queues, hid, hhash] at hupserts
  rw [List.take_append, queues_append, or_iff_right (not_queues hbefore _), afterWrite,
    Proc.trace_bind_ok (upserts_run e written generation w), List.take_append, queues_append,
    or_iff_left (not_queues (Proc.Uses.trace hrest u) _), htrace]
  exact hupserts

theorem flow_run (oldId : RecordId) (record : MemoryRecord) (relation : Relation) :
    ∃ u, (Linked w (.correct oldId record relation) ∧ ∃ written : MemoryRecord,
        (DeletionFlows.correct e.deletion oldId record relation).run w = (.ok written, u) ∧
          written.id = record.id ∧ written.contentHash = record.contentHash) ∨
      ¬ Linked w (.correct oldId record relation) ∧
        (DeletionFlows.correct e.deletion oldId record relation).run w =
          (.error .integrityError, u) := by
  obtain ⟨written, hwrite, _, hid, _, hhash⟩ := write_row record w
  let status : Status := if relation = .supersedes then .superseded else .contradicted
  let v := apply (.setStatus oldId status) (apply (.write record) w)
  let linked := apply (.addDependency written.id oldId relation) v
  have hallowed : v.db.canonical.edgeAllowed written.id oldId = true ↔
      Linked w (.correct oldId record relation) := by
    rw [hid, edgeAllowed_corrected, Bool.or_eq_true, decide_eq_true_iff]
    rfl
  have hedge := addDependency_run (V := Memory) written.id oldId relation v
  have hrun : (DeletionFlows.correct e.deletion oldId record relation).run w =
      (CanonicalStore.addDependency written.id oldId relation >>= fun _ =>
        CanonicalStore.index written >>= fun _ => ManagedSurfaces.purge e.registry [oldId] >>=
          fun _ => pure written : Prog Memory MemoryRecord).run v := by
    unfold DeletionFlows.correct
    rw [Proc.run_bind_ok hwrite]
    rfl
  by_cases hlinked : Linked w (.correct oldId record relation)
  · let posted := apply (.indexPosting written.id written.content) linked
    obtain ⟨report, hpurge⟩ := (purgeInto_returns (engine_lawful e) [oldId] ∅).run posted
    rw [if_pos (hallowed.mpr hlinked)] at hedge
    refine ⟨(purgeInto [oldId] e.registry ∅).final posted, .inl ⟨hlinked, written, ?_, hid, hhash⟩⟩
    rw [hrun, Proc.run_bind_ok hedge]
    exact Proc.run_bind_ok hpurge
  · rw [if_neg (hallowed.not.mpr hlinked)] at hedge
    refine ⟨linked, .inr ⟨hlinked, ?_⟩⟩
    rw [hrun, Proc.run_bind, hedge]

theorem program_trace (c : EngineCall) :
    ∃ rest, (c.program e).trace w = .write c.record :: rest := by
  cases c with
  | writeMemory record generation => exact ⟨_, rfl⟩
  | correct oldId record relation => exact ⟨_, rfl⟩

theorem call_queues (hw : Drawn w) (name : String) (c : EngineCall) (k : ℕ) :
    Queues (((c.program e).trace w).take k) name c.record ↔
      Linked w c ∧ name ∈ e.vectorNames.take ((k - queueStart e w c) / 2) := by
  cases c with
  | writeMemory record generation =>
    obtain ⟨written, hwrite, _, hid, _, hhash⟩ := write_row record w
    let before : List (Commit Memory) := [.write record, .indexPosting written.id written.content]
    let v := apply (.indexPosting written.id written.content) (apply (.write record) w)
    have htrace : (e.writeMemory record generation).trace w =
        before ++ (afterWrite e written (generation.getD w.memory.activeGeneration)).trace v :=
      Proc.trace_bind_ok hwrite
    have hquiet : ∀ c ∈ before, isUpsert c = false := by simp [before, isUpsert]
    change Queues (((e.writeMemory record generation).trace w).take k) name record ↔ True ∧ _
    rw [htrace, afterWrite_queues hid hhash hquiet, true_and]
    rfl
  | correct oldId record relation =>
    have hquiet := quiet_flow (e := e) hw oldId record relation
    change Queues (((e.correct oldId record relation).trace w).take k) name record ↔ _
    obtain ⟨u, ⟨hlinked, written, hflow, hid, hhash⟩ | ⟨hmissing, hflow⟩⟩ :=
      flow_run (e := e) (w := w) oldId record relation
    · have htrace : (e.correct oldId record relation).trace w =
          (DeletionFlows.correct e.deletion oldId record relation).trace w ++
            (afterWrite e written u.memory.activeGeneration).trace u := Proc.trace_bind_ok hflow
      rw [htrace, afterWrite_queues hid hhash hquiet, and_iff_right hlinked]
      rfl
    · have htrace : (e.correct oldId record relation).trace w =
          (DeletionFlows.correct e.deletion oldId record relation).trace w :=
        Proc.trace_bind_error hflow
      rw [htrace]
      exact iff_of_false (not_queues hquiet _) fun h => hmissing h.1

theorem call_queues_all (hw : Drawn w) (c : EngineCall) (hname : name ∈ e.vectorNames) :
    Queues ((c.program e).trace w) name c.record ↔ Linked w c := by
  let all := ((c.program e).trace w).length + queueStart e w c + 2 * e.vectorNames.length
  have hall := call_queues (e := e) hw name c all
  have hnames : e.vectorNames.length ≤ (all - queueStart e w c) / 2 := by omega
  rwa [List.take_of_length_le (by omega), List.take_of_length_le hnames, and_iff_left hname] at hall

theorem recorded_iff {step : EngineStep} (hw : Drawn w) :
    Recorded e w step ↔ Undivided e w step := by
  cases step with
  | call c =>
    obtain ⟨rest, htrace⟩ := program_trace (e := e) (w := w) c
    have hwritten : .write c.record ∈ (c.program e).trace w := htrace ▸ List.mem_cons_self
    refine (forall_prop_of_true hwritten).trans ?_
    change (∀ name ∈ e.vectorNames, Logged w name c.record ∨
      Queues ((c.program e).trace w) name c.record) ↔ _
    by_cases hlinked : Linked w c
    · exact iff_of_true (fun name hname => .inr ((call_queues_all hw c hname).mpr hlinked))
        (.inl hlinked)
    · refine Iff.trans ?_ (or_iff_right hlinked).symm
      refine forall₂_congr fun name hname => or_iff_left fun hqueues => hlinked ?_
      exact (call_queues_all hw c hname).mp hqueues
  | crash c commits embedder custom =>
    cases commits with
    | zero => exact iff_of_true (fun hwritten => absurd hwritten List.not_mem_nil) (.inl rfl)
    | succ commits =>
      obtain ⟨rest, htrace⟩ := program_trace (e := e) (w := w) c
      have hwritten : .write c.record ∈ ((c.program e).trace w).take (commits + 1) := by
        rw [htrace]
        exact List.mem_cons_self
      refine (forall_prop_of_true hwritten).trans ?_
      refine Iff.trans ?_ (or_iff_right (Nat.succ_ne_zero commits)).symm
      exact forall₂_congr fun name _ => or_congr Iff.rfl (call_queues hw name c (commits + 1))

end Undivided

/-- In every run from an empty file, all contents keep their upserts in the log if and only
if each step is undivided. -/
theorem contents_queued_iff (e : MemoryEngine) {w : World Memory} (hstart : Started w)
    (steps : List EngineStep) :
    AfterEach (afterStep e) (ContentsQueued e) w steps ↔
      Along (afterStep e) (Undivided e) w steps := by
  have hdrawn : Drawn w := by
    intro op hop
    rw [hstart.db] at hop
    exact absurd hop List.not_mem_nil
  have hqueued : ContentsQueued e w := by
    intro id r hr
    rw [hstart.db] at hr
    cases hr
  have hiff : ∀ w, ∀ step ∈ steps, Drawn w ∧ ContentsQueued e w →
      (ContentsQueued e (afterStep e w step) ↔ Undivided e w step) := fun _ _ _ hw =>
    (contentsQueued_step hw.1 hw.2).trans (recorded_iff hw.1)
  exact along_iff hiff (fun w step hstep hw hundivided =>
    ⟨(ledger_step hw.1).1, (hiff w step hstep hw).mpr hundivided⟩) ⟨hdrawn, hqueued⟩

def plainRecord (id : RecordId) (content : String) : MemoryRecord where
  id := id
  content := content
  recordType := .fact
  tier := .l1
  status := .active
  recordSubtype := none
  confidence := none
  confidenceReason := none
  salience := none
  sensitivity := .normal
  contentHash := content
  embeddingModelId := none
  embeddingGeneration := none
  validFrom := none
  validUntil := none
  createdAt := 0
  updatedAt := 0
  currentVersionId := none
  modelSide := none

theorem contents_queued_crashed :
    AfterEach (afterStep plainStrata.engine) (ContentsQueued plainStrata.engine) plainWorld
      [.call (.writeMemory (plainRecord 1 "tea") none),
        .crash (.writeMemory (plainRecord 2 "milk") none) 4 plainEmbedder false] := by
  have h := contents_queued_iff plainStrata.engine started_plainWorld
    [.call (.writeMemory (plainRecord 1 "tea") none),
      .crash (.writeMemory (plainRecord 2 "milk") none) 4 plainEmbedder false]
  exact h.mpr ⟨.inl trivial, .inr fun _ hname => .inr ⟨trivial, hname⟩, trivial⟩

/-- The process dies when the row is written: the content is in the file and nowhere queued. -/
theorem crashed_write_unqueued :
    let step : EngineStep := .crash (.writeMemory (plainRecord 1 "tea") none) 1 plainEmbedder false
    let w := afterStep plainStrata.engine plainWorld step
    (w.db.readOne 1).map MemoryRecord.content = some "tea" ∧ w.db.opLog.rows = [] ∧
      ¬ AfterEach (afterStep plainStrata.engine) (ContentsQueued plainStrata.engine) plainWorld
        [step] := by
  intro step w
  have hrow : (w.db.readOne 1).map MemoryRecord.content = some "tea" := by decide
  have hlog : w.db.opLog.rows = [] := by rfl
  refine ⟨hrow, hlog, fun h => ?_⟩
  obtain ⟨r, hr, _⟩ := Option.map_eq_some_iff.mp hrow
  obtain ⟨row, hmem, _⟩ := h.1 1 r hr "hot" (List.mem_singleton_self _)
  change row ∈ w.db.opLog.rows at hmem
  rw [hlog] at hmem
  exact absurd hmem List.not_mem_nil

end StrataMemory.CrashedCalls
