import StrataMemory.SettledFlows
import StrataMemory.SharedApplications
import StrataMemory.TurnTimes

set_option autoImplicit false

namespace StrataMemory.ConcurrentWrites
open KeyedTables Records Tables Procedures Worlds CommitEffects Coordinator CanonicalStore
open Reorderings StoreRefinement WaitingQueue IndexAgreement SettledFlows SharedApplications
open Engine Gateway NodeRuns Interleavings TurnTimes

inductive Writer where
  | first | second
  deriving DecidableEq

def Writer.other : Writer → Writer
  | .first => .second
  | .second => .first

inductive Party where
  | writer (i : Writer)
  | worker (n : ℕ)
  deriving DecidableEq

inductive Writing where
  | write (record : MemoryRecord)
  | update (content : String)

namespace Writing

def Names (x : RecordId) : Writing → Prop
  | .write r => r.id = x
  | .update _ => True

def text (p : Platform) : Writing → String × String
  | .write r => (r.content, r.contentHash)
  | .update content => (content, p.contentHash content)

def execute (s : Strata) (x : RecordId) : Writing → Prog Memory Unit
  | .write r => discard (s.engine.writeMemory r)
  | .update content => discard (s.updateMemory x (some content))

end Writing

/-- `WriterWorker._loop`, for a number of rounds. -/
def workerLoop (c : WriteCoordinator Memory) : ℕ → Prog Memory Unit
  | 0 => return ()
  | rounds + 1 => do
    let _ ← runUntilIdle c
    workerLoop c rounds

abbrev Scene := Moment Party (World Memory) (Commit Memory)

def race (s : Strata) (x : RecordId) (writing : Writer → Writing) (rounds : ℕ → ℕ)
    (w : World Memory) : Config Party (World Memory) (Commit Memory) PyError Unit where
  programs
    | .writer i => (writing i).execute s x
    | .worker n => workerLoop s.engine.coordinator (rounds n)
  moment := ⟨w, none, []⟩

/-- The commits of a call that carry its text, and the read between them. -/
inductive Event where
  | write | readBack | post | queue (store : ℕ)

def Event.Within (stores : ℕ) : Event → Prop
  | .queue store => store < stores
  | _ => True

/-- `update_memory` reads the row, removes its posting and reads the clock first. -/
def Writing.opening : Writing → ℕ
  | .write _ => 0
  | .update _ => 3

def Writing.turn (k : Writing) : Event → ℕ
  | .write => k.opening + 2
  | .readBack => k.opening + 3
  | .post => k.opening + 4
  | .queue store => k.opening + 2 * store + 7

section Stages
variable (s : Strata) (x : RecordId) (k : Writing)

/-- What follows `MemoryEngine.write_memory`. -/
def finishing : Writing → MemoryRecord → Prog Memory Unit
  | .write _, _ => return ()
  | .update _, _ => discard (summary x)

def upsertOf (embedder : Embedder) (r : MemoryRecord) (generation : ℤ) (name : String)
    (opId : OpId) : Operation :=
  ⟨.upsertIndex, [r.id], some name, some [MemoryEngine.vectorRecord embedder r generation],
    some generation, opId⟩

def queueing (embedder : Embedder) (r : MemoryRecord) (generation : ℤ) (names : List String) :
    Prog Memory Unit :=
  (names.forM (upsertInto embedder r generation) >>= fun _ =>
    runUntilIdle s.engine.coordinator >>= fun _ => return r) >>= finishing x k

def posting (r : MemoryRecord) (generation : ℤ) : Prog Memory Unit :=
  .step (.indexPosting r.id r.content) fun _ =>
    .observe fun w => queueing s x k w.memory.embedder r generation s.engine.vectorNames

def writeRow (r : MemoryRecord) (generation : ℤ) : Prog Memory Unit :=
  .step (.write r) fun _ => .observe fun w => posting s x k ((w.db.readOne r.id).getD r) generation

def entering (r : MemoryRecord) : Prog Memory Unit :=
  .observe fun w => writeRow s x k r w.memory.activeGeneration

theorem execute_write (r : MemoryRecord) :
    (Writing.write r).execute s x = entering s x (.write r) r := rfl

/-- What `update_memory` writes over the row it has read. -/
def revised (old : MemoryRecord) (content : String) (now : Time) : MemoryRecord :=
  { old with
    content := content, contentHash := s.engine.platform.contentHash content, updatedAt := now }

theorem execute_update (content : String) :
    (Writing.update content).execute s x = .observe fun w => match w.db.readOne x with
      | none => .fail .keyError
      | some old => .step (.removePostings [x]) fun _ => .step .readClock fun w =>
        entering s x (.update content) (revised s old content w.now) := by
  refine congrArg Proc.observe (funext fun w => ?_)
  change discard (s.updateFound x (some content) none (w.db.readOne x)) = _
  cases w.db.readOne x with
  | none => rfl
  | some old =>
    refine congrArg (Proc.step _) (funext fun _ => congrArg (Proc.step _) (funext fun w => ?_))
    exact Proc.bind_assoc (s.engine.writeMemory (revised s old content w.now)) (fun _ => summary x)
      fun _ => pure PUnit.unit

/-- After `turns` turns of the call this is left of it, with an operation id that it has drawn
and not used. What it reads back is `seen`. -/
inductive Stage (seen : String × String) (generation : ℤ) (i : Writer) :
    ℕ → Option OpId → Prog Memory Unit → Scene → Prop where
  | asking {content : String} (hk : k = .update content) (m : Scene) :
      Stage seen generation i 0 none (k.execute s x) m
  | found {content : String} (hk : k = .update content) {old : MemoryRecord} (hold : old.id = x)
      (m : Scene) : Stage seen generation i 1 none
        (.step (.removePostings [x]) fun _ => .step .readClock fun w =>
          entering s x k (revised s old content w.now)) m
  | removed {content : String} (hk : k = .update content) {old : MemoryRecord} (hold : old.id = x)
      (m : Scene) : Stage seen generation i 2 none
        (.step .readClock fun w => entering s x k (revised s old content w.now)) m
  | entering {r : MemoryRecord} (hr : r.id = x)
      (htext : (r.content, r.contentHash) = k.text s.engine.platform) (m : Scene) :
      Stage seen generation i k.opening none (entering s x k r) m
  | writing {r : MemoryRecord} (hr : r.id = x)
      (htext : (r.content, r.contentHash) = k.text s.engine.platform) (m : Scene) :
      Stage seen generation i (k.opening + 1) none (writeRow s x k r generation) m
  | readingBack {r : MemoryRecord} (hr : r.id = x) (m : Scene) :
      Stage seen generation i (k.opening + 2) none
        (.observe fun w => posting s x k ((w.db.readOne r.id).getD r) generation) m
  | posting {r : MemoryRecord} (hr : r.id = x) (hseen : (r.content, r.contentHash) = seen)
      (m : Scene) : Stage seen generation i (k.opening + 3) none (posting s x k r generation) m
  | embedding {r : MemoryRecord} (hr : r.id = x) (hseen : (r.content, r.contentHash) = seen)
      (m : Scene) : Stage seen generation i (k.opening + 4) none
        (.observe fun w =>
          queueing s x k w.memory.embedder r generation s.engine.vectorNames) m
  | drawing {r : MemoryRecord} (hr : r.id = x) (hseen : (r.content, r.contentHash) = seen)
      (embedder : Embedder) {store : ℕ} {name : String} {names : List String}
      (hnames : s.engine.vectorNames.drop store = name :: names) (m : Scene) :
      Stage seen generation i (k.opening + 2 * store + 5) none
        (queueing s x k embedder r generation (name :: names)) m
  | drawn {r : MemoryRecord} (hr : r.id = x) (hseen : (r.content, r.contentHash) = seen)
      (embedder : Embedder) {store : ℕ} {name : String} {names : List String}
      (hnames : s.engine.vectorNames.drop store = name :: names) (opId : OpId) (m : Scene) :
      Stage seen generation i (k.opening + 2 * store + 6) (some opId)
        (.step (.enqueue (upsertOf embedder r generation name opId)) fun _ =>
          queueing s x k embedder r generation names) m
  | draining {turns : ℕ} (hturns : k.opening + 2 * s.engine.vectorNames.length + 5 ≤ turns)
      {p : Prog Memory Unit} {m : Scene}
      (hmeets : Meets (May s.engine (Party.writer i)) (.writer i) (fun _ _ => True) p m) :
      Stage seen generation i turns none p m

end Stages

def Shows (x : RecordId) (generation : ℤ) (hash : String) (c : Contents) : Prop :=
  (∃ rec, c.entries (x, generation) = some rec ∧ rec.contentHash = hash) ∧ c.deleted x = false

theorem Shows.hash_eq {x : RecordId} {generation : ℤ} {hash other : String} {c : Contents}
    (h : Shows x generation hash c) (h' : Shows x generation other c) : hash = other := by
  obtain ⟨⟨rec, hrec, rfl⟩, _⟩ := h
  obtain ⟨⟨rec', hrec', rfl⟩, _⟩ := h'
  cases hrec.symm.trans hrec'
  rfl

/-- An operation id that has been drawn and not been queued. -/
def Reserved (w : World Memory) (opId : OpId) : Prop := opId < w.operationIds ∧ opId ∉ opIds w

/-- What one turn of a call does to the texts, and to the ids that are in use. -/
structure Turned (s : Strata) (x : RecordId) (k : Writing) (seen : String × String)
    (generation : ℤ) (turns : ℕ) (mine mine' : Option OpId) (w t : World Memory) : Prop where
  servable : Servable s.engine t
  active : t.memory.activeGeneration = w.memory.activeGeneration
  written : turns + 1 = k.turn .write → textOf t.db x = some (k.text s.engine.platform)
  unwritten : turns + 1 ≠ k.turn .write → textOf t.db x = textOf w.db x
  posted : turns + 1 = k.turn .post → t.db.postings.get? x = some seen.1
  unposted : k.turn .post ≤ turns → t.db.postings.get? x = w.db.postings.get? x
  queued : ∀ store name, s.engine.vectorNames[store]? = some name →
    turns + 1 = k.turn (.queue store) → Shows x generation seen.2 (pending t name)
  unqueued : ∀ store name, s.engine.vectorNames[store]? = some name →
    turns + 1 ≠ k.turn (.queue store) → pending t name = pending w name
  reserved : ∀ opId ∈ mine', Reserved t opId
  others : ∀ opId, Reserved w opId → mine ≠ some opId → Reserved t opId ∧ mine' ≠ some opId

section Turns
variable {s : Strata} {x : RecordId} {k : Writing} {seen : String × String} {generation : ℤ}
  {i : Writer} {turns : ℕ} {mine : Option OpId} {w t : World Memory}

def Uneventful (s : Strata) (k : Writing) (turns : ℕ) : Prop :=
  turns ≠ k.turn .write ∧ turns ≠ k.turn .post ∧
    ∀ store < s.engine.vectorNames.length, turns ≠ k.turn (.queue store)

theorem store_lt {store : ℕ} {name : String} (h : s.engine.vectorNames[store]? = some name) :
    store < s.engine.vectorNames.length :=
  (List.getElem?_eq_some_iff.mp h).1

theorem Reserved.quiet {opId : OpId} (h : Reserved w opId) (hwt : Quiet s.engine w t) :
    Reserved t opId :=
  ⟨Nat.lt_of_lt_of_le h.1 hwt.drawn, hwt.opIds ▸ h.2⟩

theorem Turned.of_quiet (h : Quiet s.engine w t) (hturns : Uneventful s k (turns + 1)) :
    Turned s x k seen generation turns none none w t where
  servable := h.servable
  active := h.tables.generation
  written hw := absurd hw hturns.1
  unwritten _ := by rw [textOf_same h.tables.canonical]
  posted hp := absurd hp hturns.2.1
  unposted _ := by rw [h.tables.postings]
  queued store _ hname hq := absurd hq (hturns.2.2 store (store_lt hname))
  unqueued _ _ _ _ := by rw [h.pending]
  reserved _ ha := by cases ha
  others _ ha _ := ⟨ha.quiet h, by simp⟩

theorem Turned.of_table {c : Commit Memory} (hw : Servable s.engine w)
    (hcommit : Aside s.engine w c) (hlog : (apply c w).db.opLog = w.db.opLog)
    (hmemory : (apply c w).memory = w.memory) (hids : (apply c w).operationIds = w.operationIds)
    (hqueue : ∀ store, turns + 1 ≠ k.turn (.queue store))
    (hwritten : turns + 1 = k.turn .write →
      textOf (apply c w).db x = some (k.text s.engine.platform))
    (hunwritten : turns + 1 ≠ k.turn .write → textOf (apply c w).db x = textOf w.db x)
    (hposted : turns + 1 = k.turn .post → (apply c w).db.postings.get? x = some seen.1)
    (hunposted : turns < k.turn .post) :
    Turned s x k seen generation turns none none w (apply c w) where
  servable := hcommit.servable hw
  active := by rw [hmemory]
  written := hwritten
  unwritten := hunwritten
  posted := hposted
  unposted hp := by omega
  queued store _ _ hq := absurd hq (hqueue store)
  unqueued _ _ _ _ := by rw [WaitingQueue.pending, WaitingQueue.pending, hlog, hmemory]
  reserved _ ha := by cases ha
  others _ ha _ := by
    refine ⟨?_, by simp⟩
    unfold Reserved opIds at ha ⊢
    rwa [hlog, hids]

theorem turned_write {r : MemoryRecord} (hw : Servable s.engine w) (hr : r.id = x)
    (htext : (r.content, r.contentHash) = k.text s.engine.platform) :
    Turned s x k seen generation (k.opening + 1) none none w (apply (.write r) w) := by
  refine .of_table hw (.table ⟨rfl, rfl⟩ rfl rfl (Nat.le_refl _)) rfl rfl rfl ?_ ?_
    (fun hne => absurd rfl hne) ?_ ?_ <;> simp only [Writing.turn]
  · omega
  · intro _
    obtain ⟨row, hrow, hsame⟩ := readOne_write_text w r
    unfold textOf
    rw [← hr, hrow, ← htext, ← hsame]
    rfl
  · omega
  · omega

theorem turned_removed (hk : k.opening = 3) (hw : Servable s.engine w) :
    Turned s x k seen generation 1 none none w (apply (.removePostings [x]) w) := by
  refine .of_table hw (.table ⟨rfl, rfl⟩ rfl rfl (Nat.le_refl _)) rfl rfl rfl ?_ ?_
    (fun _ => rfl) ?_ ?_ <;> simp only [Writing.turn, hk] <;> omega

theorem turned_post {r : MemoryRecord} (hw : Servable s.engine w) (hr : r.id = x)
    (hseen : (r.content, r.contentHash) = seen) : Turned s x k seen generation (k.opening + 3)
      none none w (apply (.indexPosting r.id r.content) w) := by
  refine .of_table hw (.table ⟨rfl, rfl⟩ rfl rfl (Nat.le_refl _)) rfl rfl rfl ?_ ?_
    (fun _ => rfl) ?_ ?_ <;> simp only [Writing.turn]
  · omega
  · omega
  · intro _
    subst hr hseen
    exact Table.get?_set_self _ _ _
  · omega

theorem turned_draw {store : ℕ} (hw : Servable s.engine w) :
    Turned s x k seen generation (k.opening + 2 * store + 5) none (some w.operationIds) w
      (apply .newOperationId w) where
  servable := (Aside.table ⟨rfl, rfl⟩ rfl rfl (Nat.le_succ _)).servable hw
  active := rfl
  written hw := by simp only [Writing.turn] at hw; omega
  unwritten _ := rfl
  posted hp := by simp only [Writing.turn] at hp; omega
  unposted _ := rfl
  queued other _ _ hq := by simp only [Writing.turn] at hq; omega
  unqueued _ _ _ _ := rfl
  reserved opId ha := by
    cases ha
    refine ⟨Nat.lt_succ_self _, fun hmem => ?_⟩
    obtain ⟨row, hrow, hsame⟩ := List.mem_map.mp hmem
    exact Nat.lt_irrefl _ (hsame ▸ hw.fresh row hrow)
  others opId ha _ := by
    refine ⟨⟨Nat.lt_succ_of_lt ha.1, ha.2⟩, fun hsame => ?_⟩
    cases hsame
    exact Nat.lt_irrefl _ ha.1

theorem served_upsert {name : String} (hname : name ∈ s.engine.vectorNames) (embedder : Embedder)
    (r : MemoryRecord) (opId : OpId) :
    Served s.engine (upsertOf embedder r generation name opId) :=
  ⟨⟨.inl rfl, fun _ _ => Iff.rfl⟩, name, hname, rfl⟩

theorem vectorNames_nodup (e : MemoryEngine) : e.vectorNames.Nodup :=
  (List.nodup_append.mp (List.nodup_cons.mp e.names_nodup).2).1

theorem shows_upsert {r : MemoryRecord} (hr : r.id = x) (embedder : Embedder) (name : String)
    (opId : OpId) (stores : String → Contents) :
    Shows x generation r.contentHash
      (act (upsertOf embedder r generation name opId) stores name) := by
  subst hr
  let op := upsertOf embedder r generation name opId
  have hact : act op stores name =
      (stores name).upsert [MemoryEngine.vectorRecord embedder r generation] := by
    rw [act_target (rfl : op.target = some name), Function.update_self]
    rfl
  have hkey : key (MemoryEngine.vectorRecord embedder r generation) = (r.id, generation) := rfl
  have hid : (MemoryEngine.vectorRecord embedder r generation).id = r.id := rfl
  rw [hact]
  refine ⟨⟨MemoryEngine.vectorRecord embedder r generation, ?_, rfl⟩, ?_⟩
  · simp [Contents.upsert, hkey]
  · simp [Contents.upsert, hid]

theorem turned_enqueue {r : MemoryRecord} {embedder : Embedder} {store : ℕ} {name : String}
    {opId : OpId} (hw : Servable s.engine w) (hr : r.id = x)
    (hseen : (r.content, r.contentHash) = seen) (hname : s.engine.vectorNames[store]? = some name)
    (hopId : Reserved w opId) :
    Turned s x k seen generation (k.opening + 2 * store + 6) (some opId) none w
      (apply (.enqueue (upsertOf embedder r generation name opId)) w) where
  servable := by
    have hserved : Served s.engine (upsertOf embedder r generation name opId) :=
      served_upsert (List.mem_of_getElem? hname) embedder r opId
    exact (Aside.enqueue hserved hopId.1 hopId.2).servable hw
  active := rfl
  written hw := by simp only [Writing.turn] at hw; omega
  unwritten _ := rfl
  posted hp := by simp only [Writing.turn] at hp; omega
  unposted _ := rfl
  queued other name' hname' hq := by
    have hother : other = store := by simp only [Writing.turn] at hq; omega
    subst hother
    cases hname.symm.trans hname'
    rw [pending_enqueue hopId.2, ← hseen]
    exact shows_upsert hr embedder name opId _
  unqueued other name' hname' hq := by
    have hother : other ≠ store := fun hsame => hq (by simp [Writing.turn, hsame])
    have hne : name' ≠ name := fun hsame => hother
      ((List.getElem?_inj (store_lt hname') (vectorNames_nodup s.engine)).mp
        (by rw [hname, hname', hsame]))
    rw [pending_enqueue hopId.2, act_target rfl, Function.update_of_ne hne]
  reserved _ ha := by cases ha
  others other ha hne := by
    refine ⟨⟨ha.1, fun hmem => ?_⟩, by simp⟩
    change other ∈ (w.db.opLog.append _ w.now).rows.map _ at hmem
    rw [PendingRows.rows_append hopId.2, List.map_append] at hmem
    rcases List.mem_append.mp hmem with hmem | hmem
    · exact ha.2 hmem
    · exact hne (congrArg some (List.mem_singleton.mp hmem).symm)

theorem Stage.rely {p : Prog Memory Unit} {m n : Scene}
    (h : Stage s x k seen generation i turns mine p m)
    (hmn : Rely (May s.engine (Party.writer i)) (.writer i) m n) :
    Stage s x k seen generation i turns mine p n := by
  cases h with
  | asking hk => exact .asking hk n
  | found hk hold => exact .found hk hold n
  | removed hk hold => exact .removed hk hold n
  | entering hr htext => exact .entering hr htext n
  | writing hr htext => exact .writing hr htext n
  | readingBack hr => exact .readingBack hr n
  | posting hr hseen => exact .posting hr hseen n
  | embedding hr hseen => exact .embedding hr hseen n
  | drawing hr hseen embedder hnames => exact .drawing hr hseen embedder hnames n
  | drawn hr hseen embedder hnames opId => exact .drawn hr hseen embedder hnames opId n
  | draining hturns hmeets => exact .draining hturns (hmeets.rely hmn)

theorem finishing_reads (r : MemoryRecord) : (finishing x k r).Uses fun _ => False := by
  cases k with
  | write _ => trivial
  | update _ =>
    refine Proc.Uses.bind (Proc.Uses.bind (uses_query _ _) fun found => ?_) fun _ => trivial
    cases found <;> trivial

theorem uneventful (hwrite : turns ≠ k.opening + 2) (hpost : turns ≠ k.opening + 4)
    (hqueue : turns ≤ k.opening + 6 ∨ k.opening + 2 * s.engine.vectorNames.length + 5 < turns) :
    Uneventful s k turns := by
  refine ⟨hwrite, hpost, fun store hstore => ?_⟩
  simp only [Writing.turn]
  omega

theorem issued_aside {m : Scene} {c : Commit Memory} (hc : Aside s.engine m.state c)
    (free : m.blocks c = false) : Issued s.engine (Party.writer i) m (m.commit (.writer i) c) :=
  .inr ⟨c, free, .inr hc, rfl⟩

theorem stage_queueing {r : MemoryRecord} (hr : r.id = x)
    (hseen : (r.content, r.contentHash) = seen) (embedder : Embedder) {m : Scene}
    (hm : Servable s.engine m.state) (store : ℕ) :
    Stage s x k seen generation i (k.opening + 2 * store + 5) none
      (queueing s x k embedder r generation (s.engine.vectorNames.drop store)) m := by
  cases hnames : s.engine.vectorNames.drop store with
  | cons name names => exact .drawing hr hseen embedder hnames m
  | nil =>
    have hstore : s.engine.vectorNames.length ≤ store := List.drop_eq_nil_iff.mp hnames
    refine .draining (by omega) ?_
    have hdrain : Outline (May s.engine (Party.writer i)) (.writer i) (fun _ => True)
        (Idle s.engine) (runUntilIdle s.engine.coordinator >>= fun _ => return r)
        fun _ => Idle s.engine :=
      (outline_drain maxSteps).bind fun _ => Outline.pure stable_idle fun _ hm => hm
    have htail : Outline (May s.engine (Party.writer i)) (.writer i) (fun _ => True)
        (Idle s.engine) (queueing s x k embedder r generation []) fun _ _ => True :=
      hdrain.bind fun r m _ =>
        (Meets.of_reads (finishing_reads r) m).mono fun r _ _ => by cases r <;> trivial
    exact (htail m hm).mono fun _ _ _ => trivial

theorem Stage.moved {p q : Prog Memory Unit} {m n : Scene}
    (h : Stage s x k seen generation i turns mine p m) (hmoved : Moved (.writer i) m p q n)
    (hm : Servable s.engine m.state) (hactive : m.state.memory.activeGeneration = generation)
    (hread : turns + 1 = k.turn .readBack → textOf m.state.db x = some seen)
    (hmine : ∀ opId ∈ mine, Reserved m.state opId) :
    (∃ e, q = .fail e) ∨ ∃ mine', Stage s x k seen generation i (turns + 1) mine' q n ∧
      Issued s.engine (.writer i) m n ∧
      Turned s x k seen generation turns mine mine' m.state n.state := by
  have hquiet := Quiet.refl hm
  cases h with
  | asking hk =>
    subst hk
    rw [execute_update] at hmoved
    cases hmoved
    dsimp only
    cases hrow : m.state.db.readOne x with
    | none => exact .inl ⟨_, rfl⟩
    | some old =>
      exact .inr ⟨none, .found rfl (Db.readOne_id hrow) m, .inl rfl,
        .of_quiet hquiet (uneventful (by simp [Writing.opening]) (by simp [Writing.opening])
        (.inl (by simp [Writing.opening])))⟩
  | found hk hold =>
    subst hk
    cases hmoved with
    | wait _ blocked => cases blocked
    | issue _ free =>
      have haside : Aside s.engine m.state (.removePostings [x]) :=
        .table ⟨rfl, rfl⟩ rfl rfl (Nat.le_refl _)
      exact .inr ⟨none, .removed rfl hold _, issued_aside haside free, turned_removed rfl hm⟩
  | @removed content hk old hold =>
    subst hk
    cases hmoved with
    | wait _ blocked => cases blocked
    | issue _ free =>
      have hclock : QueueStep s.engine (Party.writer i) m .readClock := .clock
      have hr : (revised s old content m.state.now).id = x := hold
      exact .inr ⟨none, .entering hr rfl _, .inr ⟨_, free, .inl hclock, rfl⟩,
        .of_quiet (hclock.quiet hm) (uneventful (by simp [Writing.opening]) (by simp [Writing.opening])
        (.inl (by simp [Writing.opening])))⟩
  | entering hr htext =>
    unfold ConcurrentWrites.entering at hmoved
    cases hmoved
    subst hactive
    exact .inr ⟨none, .writing hr htext m, .inl rfl,
      .of_quiet hquiet (uneventful (by omega) (by omega) (.inl (by omega)))⟩
  | writing hr htext =>
    unfold writeRow at hmoved
    cases hmoved with
    | wait _ blocked => cases blocked
    | issue _ free =>
      exact .inr ⟨none, .readingBack hr _,
        issued_aside (.table ⟨rfl, rfl⟩ rfl rfl (Nat.le_refl _)) free, turned_write hm hr htext⟩
  | readingBack hr =>
    cases hmoved
    have hseen := hread rfl
    unfold textOf at hseen
    obtain ⟨row, hrow, htext⟩ := Option.map_eq_some_iff.mp hseen
    dsimp only
    rw [hr, hrow, Option.getD_some]
    exact .inr ⟨none, .posting (Db.readOne_id hrow) htext m, .inl rfl,
      .of_quiet hquiet (uneventful (by omega) (by omega) (.inl (by omega)))⟩
  | posting hr hseen =>
    unfold ConcurrentWrites.posting at hmoved
    cases hmoved with
    | wait _ blocked => cases blocked
    | issue _ free =>
      exact .inr ⟨none, .embedding hr hseen _,
        issued_aside (.table ⟨rfl, rfl⟩ rfl rfl (Nat.le_refl _)) free, turned_post hm hr hseen⟩
  | embedding hr hseen =>
    cases hmoved
    exact .inr ⟨none, stage_queueing hr hseen _ hm 0, .inl rfl,
      .of_quiet hquiet (uneventful (by omega) (by omega) (.inl (by omega)))⟩
  | drawing hr hseen embedder hnames =>
    cases hmoved with
    | wait _ blocked => cases blocked
    | issue _ free =>
      exact .inr ⟨some m.state.operationIds, .drawn hr hseen embedder hnames _ _,
        issued_aside (.table ⟨rfl, rfl⟩ rfl rfl (Nat.le_succ _)) free, turned_draw hm⟩
  | @drawn r hr hseen embedder store name names hnames opId =>
    cases hmoved with
    | wait _ blocked => cases blocked
    | issue _ free =>
      have hopId : Reserved m.state opId := hmine opId rfl
      have hname : s.engine.vectorNames[store]? = some name := by
        rw [← List.head?_drop, hnames, List.head?_cons]
      have hrest : names = s.engine.vectorNames.drop (store + 1) := by
        rw [← List.tail_drop, hnames, List.tail_cons]
      have hserved : Served s.engine (upsertOf embedder r generation name opId) :=
        served_upsert (List.mem_of_getElem? hname) embedder r opId
      have haside : Aside s.engine m.state
        (.enqueue (upsertOf embedder r generation name opId)) := .enqueue hserved hopId.1 hopId.2
      have hturned : Turned s x k seen generation (k.opening + 2 * store + 6) (some opId) none
        m.state (apply (.enqueue (upsertOf embedder r generation name opId)) m.state) :=
        turned_enqueue hm hr hseen hname hopId
      rw [hrest]
      exact .inr ⟨none, stage_queueing hr hseen embedder hturned.servable (store + 1),
        issued_aside haside free, hturned⟩
  | draining hturns hmeets =>
    obtain ⟨hkept, hissued⟩ := hmeets.moved hmoved
    have huneventful : Uneventful s k (turns + 1) :=
      uneventful (by omega) (by omega) (.inr (by omega))
    rcases hissued with rfl | ⟨c, hfree, hmay, rfl⟩
    · exact .inr ⟨none, .draining (by omega) hkept, .inl rfl, .of_quiet hquiet huneventful⟩
    · have hstep : QueueStep s.engine (Party.writer i) m c := by
        rcases hmay with hstep | ⟨hne, _⟩
        · exact hstep
        · exact absurd rfl hne
      exact .inr ⟨none, .draining (by omega) hkept, .inr ⟨c, hfree, .inl hstep, rfl⟩,
        .of_quiet (hstep.quiet hm) huneventful⟩

/-- A call that has returned has made all its commits. -/
theorem Stage.returned {p : Prog Memory Unit} {m : Scene}
    (h : Stage s x k seen generation i turns mine p m) {u : Unit}
    (hresult : result p = some (.ok u)) :
    k.opening + 2 * s.engine.vectorNames.length + 5 ≤ turns := by
  cases h with
  | draining hturns _ => exact hturns
  | asking hk =>
    subst hk
    rw [execute_update] at hresult
    cases hresult
  | found | removed | entering | writing | readingBack | posting | embedding | drawing | drawn =>
    cases hresult

theorem stage_start (hx : k.Names x) (m : Scene) :
    Stage s x k seen generation i 0 none (k.execute s x) m := by
  cases k with
  | write r =>
    rw [execute_write]
    exact .entering hx rfl m
  | update content => exact .asking rfl m

theorem workerLoop_meets {a : Party} (rounds : ℕ) {m : Scene} (hm : Servable s.engine m.state) :
    Meets (May s.engine a) a (fun _ _ => True) (workerLoop s.engine.coordinator rounds) m := by
  have hloop : ∀ rounds, Outline (May s.engine a) a (fun _ => True) (Idle s.engine)
      (workerLoop s.engine.coordinator rounds) fun _ => Idle s.engine := by
    intro rounds
    induction rounds with
    | zero => exact Outline.pure stable_idle fun _ hm => hm
    | succ rounds ih => exact (outline_drain maxSteps).bind fun _ => ih
  exact (hloop rounds m hm).mono fun _ _ _ => trivial

end Turns
end StrataMemory.ConcurrentWrites
