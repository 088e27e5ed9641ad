import StrataMemory.SettledFlows
import StrataMemory.VerifiedDeletions

set_option autoImplicit false

namespace StrataMemory.IdleFlows
open KeyedTables Records Tables Procedures Worlds CommitEffects Coordinator CoordinatorRuns
open SurfaceRounds CanonicalStore ManagedSurfaces DeletionFlows DeletionInvariants
open FlowInvariants VerifiedDeletions Reorderings StoreRefinement WaitingQueue IndexAgreement SettledFlows
open VectorStore Engine Gateway NodeRuns

def shownAt (c : Contents) (k : RecordId × ℤ) : Option VectorRecord :=
  if c.deleted k.1 = true then none else c.entries k

theorem shown_eq_some {c : Contents} {k : RecordId × ℤ} {rec : VectorRecord} :
    shownAt c k = some rec ↔ c.deleted k.1 = false ∧ c.entries k = some rec := by
  unfold shownAt
  cases c.deleted k.1 <;> simp

theorem shown_contents (s : InMemoryVectorStore) : shownAt (contents s) = s.visible := by
  funext k
  unfold shownAt contents InMemoryVectorStore.visible
  by_cases h : k.1 ∈ s.deleted <;> simp [h]

theorem shown_storesOf (m : Memory) (name : String) :
    shownAt (storesOf m name) = (m.store name).visible :=
  shown_contents _

def put (stores : String → Contents) (p : String × VectorRecord) : String → Contents :=
  Function.update stores p.1 ((stores p.1).upsert [p.2])

section Contents
variable (stores : String → Contents) (name : String)

theorem entries_put (p : String × VectorRecord) (k : RecordId × ℤ) :
    (put stores p name).entries k =
      if p.1 = name ∧ key p.2 = k then some p.2 else (stores name).entries k := by
  unfold put
  by_cases hname : p.1 = name
  · subst hname
    rw [Function.update_self]
    by_cases hkey : key p.2 = k <;> simp [Contents.upsert, hkey]
  · rw [Function.update_of_ne (Ne.symm hname), if_neg fun h => hname h.1]

theorem deleted_put (p : String × VectorRecord) (id : RecordId) :
    (put stores p name).deleted id =
      ((stores name).deleted id && !decide (p.1 = name ∧ p.2.id = id)) := by
  unfold put
  by_cases hname : p.1 = name
  · subst hname
    rw [Function.update_self]
    simp [Contents.upsert]
  · rw [Function.update_of_ne (Ne.symm hname)]
    simp [hname]

theorem entries_puts (plan : List (String × VectorRecord)) (k : RecordId × ℤ) :
    (plan.foldl put stores name).entries k =
      ((plan.reverse.find? fun p => p.1 = name ∧ key p.2 = k).map Prod.snd).or
        ((stores name).entries k) := by
  induction plan generalizing stores with
  | nil => rfl
  | cons p plan ih =>
    rw [List.foldl_cons, ih, entries_put, List.reverse_cons, List.find?_append, Option.map_or,
      Option.or_assoc]
    refine congrArg _ ?_
    by_cases hp : p.1 = name ∧ key p.2 = k <;> simp [hp]

theorem deleted_puts (plan : List (String × VectorRecord)) (id : RecordId) :
    (plan.foldl put stores name).deleted id =
      ((stores name).deleted id && !plan.any fun p => p.1 = name ∧ p.2.id = id) := by
  induction plan generalizing stores with
  | nil => exact (Bool.and_true _).symm
  | cons p plan ih =>
    rw [List.foldl_cons, ih, deleted_put, List.any_cons, Bool.not_or, Bool.and_assoc]

end Contents

structure Puts (op : Operation) (p : String × VectorRecord) : Prop where
  opType : op.opType = .upsertIndex
  target : op.target = some p.1
  records : op.records = [p.2]

theorem replay_puts {ops : List Operation} {plan : List (String × VectorRecord)}
    (h : List.Forall₂ Puts ops plan) (stores : String → Contents) :
    replay act ops stores = plan.foldl put stores := by
  induction h generalizing stores with
  | nil => rfl
  | @cons op p _ _ hop _ ih =>
    have hfirst : act op stores = put stores p := by
      rw [act_target hop.target]
      unfold applied put
      rw [hop.opType, hop.records]
    rw [replay_cons, List.foldl_cons, hfirst, ih]

/-- Neither the file's tables nor the generation have moved. -/
structure Still (w t : World Memory) : Prop where
  authority : authority t = authority w
  postings : t.db.postings = w.db.postings
  generation : t.memory.activeGeneration = w.memory.activeGeneration

theorem Still.refl (w : World Memory) : Still w w := ⟨rfl, rfl, rfl⟩

theorem Still.trans {w u t : World Memory} (h : Still w u) (h' : Still u t) : Still w t :=
  ⟨h'.authority.trans h.authority, h'.postings.trans h.postings, h'.generation.trans h.generation⟩

/-- The upserts in `plan` have been queued, in order, and nothing else. -/
structure Enqueued (e : MemoryEngine) (plan : List (String × VectorRecord)) (w t : World Memory) :
    Prop where
  ready : Ready e t
  queue : ∃ ops, unfinished t.db.opLog = unfinished w.db.opLog ++ ops ∧ List.Forall₂ Puts ops plan
  memory : t.memory = w.memory
  still : Still w t

section Queueing
variable {e : MemoryEngine} {w t : World Memory}

theorem Enqueued.nil (hw : Ready e w) : Enqueued e [] w w :=
  ⟨hw, ⟨[], (List.append_nil _).symm, .nil⟩, rfl, .refl w⟩

theorem Enqueued.trans {plan more : List (String × VectorRecord)} {u : World Memory}
    (h : Enqueued e plan w u) (h' : Enqueued e more u t) : Enqueued e (plan ++ more) w t := by
  obtain ⟨ops, hops, hputs⟩ := h.queue
  obtain ⟨ops', hops', hputs'⟩ := h'.queue
  refine ⟨h'.ready, ⟨ops ++ ops', ?_, List.rel_append hputs hputs'⟩, h'.memory.trans h.memory,
    h.still.trans h'.still⟩
  rw [hops', hops, List.append_assoc]

theorem enqueued_one (hw : Ready e w) (embedder : Embedder) (r : MemoryRecord) (generation : ℤ)
    {name : String} (hname : name ∈ e.vectorNames) :
    Enqueued e [(name, MemoryEngine.vectorRecord embedder r generation)] w
      ((upsertInto embedder r generation name).final w) := by
  let op : Operation := ⟨.upsertIndex, [r.id], some name,
    some [MemoryEngine.vectorRecord embedder r generation], some generation, w.operationIds⟩
  have hserved : Served e op := ⟨⟨.inl rfl, fun _ _ => Iff.rfl⟩, name, hname, rfl⟩
  have hqueued : Queued e op w (apply (.enqueue op) (apply .newOperationId w)) :=
    queued_fresh hw hserved rfl
  exact ⟨hqueued.ready, ⟨[op], unfinished_fresh hw rfl, .cons ⟨rfl, rfl, rfl⟩ .nil⟩, rfl, rfl, rfl, rfl⟩

theorem enqueued_upserts (hw : Ready e w) (embedder : Embedder) (r : MemoryRecord) (generation : ℤ)
    {names : List String} (hnames : ∀ name ∈ names, name ∈ e.vectorNames) :
    Enqueued e (names.map fun name => (name, MemoryEngine.vectorRecord embedder r generation)) w
      ((names.forM (upsertInto embedder r generation)).final w) := by
  induction names generalizing w with
  | nil => exact .nil hw
  | cons name names ih =>
    have hfirst := enqueued_one hw embedder r generation (hnames name List.mem_cons_self)
    exact hfirst.trans (ih hfirst.ready fun n hn => hnames n (List.mem_cons_of_mem _ hn))

end Queueing

/-- No operation waits, and none will be refused. -/
structure Idle (e : MemoryEngine) (w : World Memory) : Prop where
  ready : Ready e w
  empty : unfinished w.db.opLog = []

section Idle
variable {e : MemoryEngine} {w t : World Memory}

theorem Idle.same (hw : Idle e w) (h : SameQueue w t) : Idle e t :=
  ⟨h.ready hw.ready, (congrArg unfinished h.log).trans hw.empty⟩

theorem Idle.of_same (hw : Idle e w) (hdb : t.db = w.db) (hmemory : t.memory = w.memory)
    (hids : t.operationIds = w.operationIds) : Idle e t :=
  hw.same ⟨congrArg Db.opLog hdb, hids.ge, by rw [hmemory], by rw [hmemory]⟩

theorem idle_started (h : Started w) (hfaults : ∀ n, w.memory.faults n = false) : Idle e w := by
  have hlevel : Settled e w := settled_started h hfaults
  refine ⟨hlevel.ready, ?_⟩
  rw [h.db]
  rfl

/-- Draining a queue of upserts puts as many of them into the stores as one drain takes. -/
theorem Enqueued.drained {plan : List (String × VectorRecord)} (h : Enqueued e plan w t)
    (hw : Idle e w) : let u := (runUntilIdle e.coordinator).final t
    Still w u ∧ storesOf u.memory = (plan.take maxSteps).foldl put (storesOf w.memory) ∧
      (plan.length ≤ maxSteps → Idle e u) ∧
      ∃ ops, List.Forall₂ Puts ops (plan.take maxSteps) ∧
        u.memory = replay (handled e) ops w.memory := by
  obtain ⟨ops, hops, hputs⟩ := h.queue
  rw [hw.empty, List.nil_append] at hops
  obtain ⟨hleft, hmemory, hstores⟩ := drain_takes h.ready maxSteps
  have hdrained := drain_ready h.ready maxSteps
  have hauthority : authority ((drain e.coordinator maxSteps).final t) = authority t :=
    authority_final ((drain_uses _ _).mono fun _ => isIndexWork_of_isQueueWork) t
  have htaken := List.forall₂_take maxSteps hputs
  rw [hops] at hleft hstores hmemory
  rw [h.memory] at hmemory hstores
  rw [replay_puts htaken] at hstores
  refine ⟨h.still.trans ⟨hauthority, hdrained.tables.postings, hdrained.tables.generation⟩, hstores,
    fun hlength => ⟨hdrained.ready, hleft.trans ?_⟩, _, htaken, hmemory⟩
  rw [List.drop_eq_nil_iff, hputs.length_eq]
  exact hlength

/-- Entries and postings of `ids` may have been taken out, and nothing else. -/
structure Purged (e : MemoryEngine) (ids : List RecordId) (w t : World Memory) : Prop where
  idle : Idle e t
  authority : authority t = authority w
  posted : ∀ id, id ∉ ids → t.db.hasPosting id = w.db.hasPosting id
  entries : ∀ name, (storesOf t.memory name).entries = (storesOf w.memory name).entries
  deleted : ∀ name id, id ∉ ids →
    (storesOf t.memory name).deleted id = (storesOf w.memory name).deleted id
  generation : t.memory.activeGeneration = w.memory.activeGeneration

theorem Purged.refl (hw : Idle e w) (ids : List RecordId) : Purged e ids w w :=
  ⟨hw, rfl, fun _ _ => rfl, fun _ => rfl, fun _ _ _ => rfl, rfl⟩

theorem purged_removePostings (ids : List RecordId) :
    (CanonicalStore.removePostings ids : Prog Memory Unit).Preserves (Purged e ids w) := by
  unfold CanonicalStore.removePostings
  split
  · exact Proc.Preserves.pure _
  · refine Proc.Preserves.perform fun t ht => ⟨ht.idle.same ⟨rfl, Nat.le_refl _, rfl, rfl⟩,
      ht.authority, fun id hid => ?_, ht.entries, ht.deleted, ht.generation⟩
    change (t.db.postings.eraseAll ids).contains id = _
    rw [Table.contains_eraseAll, decide_eq_false hid]
    exact ht.posted id hid

theorem purged_vector {name : String} (hname : name ∈ e.vectorNames) (ids : List RecordId) :
    ((e.vectorSurface name).remove ids).Preserves (Purged e ids w) := by
  intro t ht
  let op : Operation := ⟨.removeIndex, ids, some name, none, none, t.operationIds⟩
  let queued := apply (.enqueue op) (apply .newOperationId t)
  have hqueued : Queued e op t queued := queued_fresh ht.idle.ready (served_removal hname ids _) rfl
  have hqueue : unfinished queued.db.opLog = [op] := by
    rw [unfinished_fresh ht.idle.ready rfl, ht.idle.empty, List.nil_append]
  obtain ⟨hleft, _, hstores⟩ := drain_takes hqueued.ready maxSteps
  have hdrained := drain_ready hqueued.ready maxSteps
  have hauthority : CommitEffects.authority ((drain e.coordinator maxSteps).final queued) =
      CommitEffects.authority queued :=
    authority_final ((drain_uses _ _).mono fun _ => isIndexWork_of_isQueueWork) queued
  have htaken : ([op] : List Operation).take maxSteps = [op] := rfl
  rw [hqueue, htaken, replay_cons, replay_nil, act_target rfl] at hstores
  rw [hqueue] at hleft
  have hremoved : ((e.vectorSurface name).remove ids).final t =
      (drain e.coordinator maxSteps).final queued := coordinated_remove_final ..
  rw [hremoved]
  generalize (drain e.coordinator maxSteps).final queued = z at *
  refine ⟨⟨hdrained.ready, hleft⟩, hauthority.trans ht.authority, fun id hid => ?_, fun other => ?_,
    fun other id hid => ?_, hdrained.tables.generation.trans ht.generation⟩
  · rw [← ht.posted id hid]
    exact congrArg (fun d : Table RecordId String => d.contains id) hdrained.tables.postings
  · rw [← ht.entries other, hstores]
    by_cases hother : other = name
    · subst hother
      rw [Function.update_self]
      rfl
    · rw [Function.update_of_ne hother]
      rfl
  · rw [← ht.deleted other id hid, hstores]
    by_cases hother : other = name
    · subst hother
      rw [Function.update_self]
      change (decide (id ∈ ids) || _) = _
      rw [decide_eq_false hid, Bool.false_or]
      rfl
    · rw [Function.update_of_ne hother]
      rfl

theorem purged_remove (ids : List RecordId) :
    ∀ s ∈ e.registry, (s.remove ids).Preserves (Purged e ids w) := by
  intro s hs
  rcases List.mem_append.mp hs with hs | hs
  · rcases List.mem_cons.mp hs with rfl | hs
    · exact (purged_removePostings ids).bind fun _ => Proc.Preserves.read _
    · obtain ⟨name, hname, rfl⟩ := List.mem_map.mp hs
      exact purged_vector hname ids
  · cases List.mem_singleton.mp hs
    refine Proc.Preserves.bind (Proc.Preserves.perform fun t ht => ?_) fun _ => Proc.Preserves.read _
    exact ⟨ht.idle.same ⟨rfl, Nat.le_refl _, rfl, rfl⟩, ht.authority, ht.posted, ht.entries, ht.deleted,
      ht.generation⟩

theorem purged_purge (ids : List RecordId) :
    (purge e.registry ids).Preserves (Purged e ids w) :=
  preserves_purgeInto (purged_remove ids) ∅

def upserts (e : MemoryEngine) (embedder : Embedder) (row : MemoryRecord) (generation : ℤ) :
    List (String × VectorRecord) :=
  e.vectorNames.map fun name => (name, MemoryEngine.vectorRecord embedder row generation)

theorem entries_upserts (embedder : Embedder) (row : MemoryRecord) (generation : ℤ)
    (stores : String → Contents) (name : String) (k : RecordId × ℤ) :
    ((upserts e embedder row generation).foldl put stores name).entries k =
      if name ∈ e.vectorNames ∧ k = (row.id, generation) then
        some (MemoryEngine.vectorRecord embedder row generation)
      else (stores name).entries k := by
  have hkey : key (MemoryEngine.vectorRecord embedder row generation) = (row.id, generation) := rfl
  rw [entries_puts]
  cases hfind : (upserts e embedder row generation).reverse.find? fun p => p.1 = name ∧ key p.2 = k with
  | some p =>
    obtain ⟨other, hother, rfl⟩ := List.mem_map.mp (List.mem_reverse.mp (List.mem_of_find?_eq_some hfind))
    obtain ⟨hname, hk⟩ : other = name ∧ key (MemoryEngine.vectorRecord embedder row generation) = k := by
      simpa only [decide_eq_true_eq] using List.find?_some hfind
    rw [if_pos ⟨hname ▸ hother, hk.symm.trans hkey⟩]
    rfl
  | none =>
    have hnot : ¬ (name ∈ e.vectorNames ∧ k = (row.id, generation)) := by
      rintro ⟨hname, rfl⟩
      have hmem : (name, MemoryEngine.vectorRecord embedder row generation) ∈
          (upserts e embedder row generation).reverse :=
        List.mem_reverse.mpr (List.mem_map.mpr ⟨name, hname, rfl⟩)
      exact List.find?_eq_none.mp hfind _ hmem (decide_eq_true ⟨rfl, hkey⟩)
    rw [if_neg hnot]
    rfl

theorem deleted_upserts (embedder : Embedder) (row : MemoryRecord) (generation : ℤ)
    (stores : String → Contents) (name : String) (id : RecordId) :
    ((upserts e embedder row generation).foldl put stores name).deleted id =
      if name ∈ e.vectorNames ∧ id = row.id then false else (stores name).deleted id := by
  rw [deleted_puts]
  have hany : (upserts e embedder row generation).any (fun p => p.1 = name ∧ p.2.id = id) =
      decide (name ∈ e.vectorNames ∧ id = row.id) := by
    rw [Bool.eq_iff_iff, List.any_eq_true, decide_eq_true_iff]
    constructor
    · rintro ⟨p, hp, hfound⟩
      obtain ⟨other, hother, rfl⟩ := List.mem_map.mp hp
      obtain ⟨rfl, rfl⟩ := of_decide_eq_true hfound
      exact ⟨hother, rfl⟩
    · rintro ⟨hname, rfl⟩
      exact ⟨_, List.mem_map_of_mem hname, decide_eq_true ⟨rfl, rfl⟩⟩
  rw [hany]
  by_cases h : name ∈ e.vectorNames ∧ id = row.id
  · rw [if_pos h, decide_eq_true h, Bool.not_true, Bool.and_false]
  · rw [if_neg h, decide_eq_false h, Bool.not_false, Bool.and_true]

theorem upserted (hstores : e.vectorNames.length ≤ maxSteps) (hw : Idle e w) (row : MemoryRecord)
    (generation : ℤ) :
    let u := (e.enqueueVectorUpsert row generation >>= fun _ =>
      runUntilIdle e.coordinator >>= fun _ => pure row : Prog Memory MemoryRecord).final w
    Idle e u ∧ Still w u ∧
      storesOf u.memory = (upserts e w.memory.embedder row generation).foldl put (storesOf w.memory) := by
  have hqueued := enqueued_upserts hw.ready w.memory.embedder row generation (fun _ hname => hname)
  obtain ⟨hstill, hput, hidle, _⟩ := hqueued.drained hw
  have hlength : (upserts e w.memory.embedder row generation).length ≤ maxSteps := by
    rw [upserts, List.length_map]
    exact hstores
  rw [Proc.final_bind_ok (upserts_run e row generation w), Proc.final_bind_pure]
  refine ⟨hidle hlength, hstill, hput.trans ?_⟩
  exact congrArg (List.foldl put (storesOf w.memory)) (List.take_of_length_le hlength)

/-- The row has been given its content and indexed in the active generation; the records in
`dropped` have lost their standing, and may have lost their postings and entries. -/
structure Given (e : MemoryEngine) (row : MemoryRecord) (dropped : List RecordId)
    (w t : World Memory) : Prop where
  idle : Idle e t
  read : row.id ∉ dropped → t.db.readOne row.id = some row
  dead : ∀ id ∈ dropped, ∀ r, t.db.readOne id = some r → r.status.isActive = false
  others : ∀ id, id ≠ row.id → id ∉ dropped → t.db.readOne id = w.db.readOne id
  tombstones : t.db.isTombstoned = w.db.isTombstoned
  posted : ∀ id, id ∉ dropped → t.db.hasPosting id = (decide (id = row.id) || w.db.hasPosting id)
  entries : ∃ rec : VectorRecord, rec.contentHash = row.contentHash ∧
    ∀ name k, (storesOf t.memory name).entries k =
      if name ∈ e.vectorNames ∧ k = (row.id, w.memory.activeGeneration) then some rec
      else (storesOf w.memory name).entries k
  deleted : ∀ name id, id ∉ dropped → (storesOf t.memory name).deleted id =
    if name ∈ e.vectorNames ∧ id = row.id then false else (storesOf w.memory name).deleted id
  generation : t.memory.activeGeneration = w.memory.activeGeneration

theorem Given.of_same {row : MemoryRecord} {dropped : List RecordId} {u : World Memory}
    (h : Given e row dropped u t) (hdb : u.db = w.db) (hmemory : u.memory = w.memory) :
    Given e row dropped w t where
  idle := h.idle
  read := h.read
  dead := h.dead
  others id hne hid := by rw [h.others id hne hid, hdb]
  tombstones := by rw [h.tombstones, hdb]
  posted id hid := by rw [h.posted id hid, hdb]
  entries := hmemory ▸ h.entries
  deleted := hmemory ▸ h.deleted
  generation := by rw [h.generation, hmemory]

theorem hasPosting_posted (w : World Memory) (row : MemoryRecord) (id : RecordId) :
    (apply (.indexPosting row.id row.content) w).db.hasPosting id =
      (decide (id = row.id) || w.db.hasPosting id) := by
  rw [hasPosting_indexPosting]
  by_cases h : id = row.id
  · subst h
    simp
  · rw [Function.update_of_ne h, decide_eq_false h, Bool.false_or]

theorem given_writeMemory (hstores : e.vectorNames.length ≤ maxSteps) (hw : Idle e w)
    (r : MemoryRecord) : ∃ row, row.id = r.id ∧ row.status = r.status ∧
      row.contentHash = r.contentHash ∧ Given e row [] w ((e.writeMemory r none).final w) := by
  obtain ⟨row, hrun, hrows, hid, hstatus, hhash⟩ := write_row r w
  let v := apply (.indexPosting row.id row.content) (apply (.write r) w)
  have hindex : (index row : Prog Memory Unit).run (apply (.write r) w) = (.ok (), v) := rfl
  have hv : Idle e v := hw.same ⟨rfl, Nat.le_refl _, rfl, rfl⟩
  obtain ⟨hidle, hstill, hput⟩ := upserted hstores hv row w.memory.activeGeneration
  refine ⟨row, hid, hstatus, hhash, ?_⟩
  unfold MemoryEngine.writeMemory
  rw [Proc.final_bind_ok (Proc.run_read _ w), Proc.final_bind_ok hrun, Proc.final_bind_ok hindex,
    Option.getD_none]
  refine ⟨hidle, fun _ => ?_, fun _ h => absurd h List.not_mem_nil, fun id hne _ => ?_,
    (isTombstoned_of_authority hstill.authority).trans rfl, fun id _ => ?_,
    ⟨MemoryEngine.vectorRecord w.memory.embedder row w.memory.activeGeneration, rfl, fun name k => ?_⟩,
    fun name id _ => ?_, hstill.generation⟩
  · rw [readOne_of_authority hstill.authority]
    change (apply (.write r) w).db.readOne row.id = _
    rw [hrows, hid, Function.update_self]
  · rw [readOne_of_authority hstill.authority]
    exact readOne_write_of_ne (hid ▸ Ne.symm hne)
  · have hposted : v.db.hasPosting id = (decide (id = row.id) || w.db.hasPosting id) :=
      hasPosting_posted _ row id
    rw [← hposted]
    exact congrArg (fun d : Table RecordId String => d.contains id) hstill.postings
  · exact hput ▸ entries_upserts w.memory.embedder row _ _ name k
  · rw [hput]
    exact deleted_upserts ..

/-- The old id of a correction has a row, or is that of the new record. -/
def Correctable (w : World Memory) (oldId newId : RecordId) : Prop :=
  oldId = newId ∨ (w.db.readOne oldId).isSome = true

instance (w : World Memory) (oldId newId : RecordId) : Decidable (Correctable w oldId newId) :=
  inferInstanceAs (Decidable (_ ∨ _))

/-- The row has been given its content, and no index has been told. -/
structure Stranded (e : MemoryEngine) (row : MemoryRecord) (w t : World Memory) : Prop where
  idle : Idle e t
  rows : t.db.readOne = Function.update w.db.readOne row.id (some row)
  tombstones : t.db.isTombstoned = w.db.isTombstoned
  posted : t.db.hasPosting = w.db.hasPosting
  stores : storesOf t.memory = storesOf w.memory
  generation : t.memory.activeGeneration = w.memory.activeGeneration

theorem Stranded.of_same {row : MemoryRecord} {t u : World Memory} (h : Stranded e row u t)
    (hdb : u.db = w.db) (hmemory : u.memory = w.memory) : Stranded e row w t where
  idle := h.idle
  rows := hdb ▸ h.rows
  tombstones := hdb ▸ h.tombstones
  posted := hdb ▸ h.posted
  stores := hmemory ▸ h.stores
  generation := hmemory ▸ h.generation

/-- The world in which a correction tries to link its record. -/
def unlinked (oldId : RecordId) (r : MemoryRecord) (w : World Memory) : World Memory :=
  apply (.setStatus oldId .superseded) (apply (.write r) w)

theorem readOne_unlinked (oldId : RecordId) {row r : MemoryRecord}
    (hrows : (apply (.write r) w).db.readOne = Function.update w.db.readOne r.id (some row)) :
    (unlinked oldId r w).db.readOne = Function.update
      (Function.update w.db.readOne r.id (some row)) oldId
      ((Function.update w.db.readOne r.id (some row) oldId).map fun old =>
        { old with status := .superseded, updatedAt := (apply (.write r) w).now }) := by
  unfold unlinked
  rw [readOne_setStatus, hrows]

theorem correct_run {row r : MemoryRecord} (oldId : RecordId)
    (hrun : (CanonicalStore.write r : Prog Memory MemoryRecord).run w = (.ok row, apply (.write r) w)) :
    (e.correct oldId r).run w = (do
      CanonicalStore.addDependency row.id oldId .supersedes
      CanonicalStore.index row
      let _ ← purge e.registry [oldId]
      let active ← Proc.read fun w : World Memory => w.memory.activeGeneration
      e.enqueueVectorUpsert row active
      let _ ← runUntilIdle e.coordinator
      return row : Prog Memory MemoryRecord).run (unlinked oldId r w) := by
  simp only [MemoryEngine.correct, DeletionFlows.correct, MemoryEngine.deletion, ↓reduceIte,
    Bool.not_false, bind_assoc, pure_bind]
  rw [Proc.run_bind_ok hrun]
  rfl

theorem edgeAllowed_unlinked {row r : MemoryRecord} {oldId : RecordId} (hid : row.id = r.id) :
    (unlinked oldId r w).db.canonical.edgeAllowed row.id oldId = true ↔ Correctable w oldId r.id := by
  rw [hid, unlinked, edgeAllowed_corrected, Bool.or_eq_true, decide_eq_true_iff]
  exact Iff.rfl

/-- A correction that cannot make its link has written its row. -/
theorem correct_refused {oldId : RecordId} {r : MemoryRecord} (hold : ¬ Correctable w oldId r.id) :
    (e.correct oldId r).run w = (.error .integrityError, unlinked oldId r w) := by
  obtain ⟨row, hrun, _, hid, _⟩ := write_row r w
  have hrefused : (unlinked oldId r w).db.canonical.edgeAllowed row.id oldId = false :=
    Bool.eq_false_iff.mpr ((edgeAllowed_unlinked hid).not.mpr hold)
  have hedge : (CanonicalStore.addDependency row.id oldId .supersedes : Prog Memory Unit).run
      (unlinked oldId r w) = (.error .integrityError, unlinked oldId r w) := by
    rw [addDependency_run, apply_refused .supersedes hrefused, hrefused]
    rfl
  rw [correct_run oldId hrun, Proc.run_bind, hedge]

theorem correct_purged {row r : MemoryRecord} {oldId : RecordId} {u z : World Memory}
    (hrun : (CanonicalStore.write r : Prog Memory MemoryRecord).run w = (.ok row, apply (.write r) w))
    (hid : row.id = r.id) (hold : Correctable w oldId r.id)
    (hu : u = apply (.addDependency row.id oldId .supersedes) (unlinked oldId r w))
    (hz : z = (purge e.registry [oldId]).final (apply (.indexPosting row.id row.content) u)) :
    (e.correct oldId r).run w = (e.enqueueVectorUpsert row z.memory.activeGeneration >>= fun _ =>
      runUntilIdle e.coordinator >>= fun _ => pure row : Prog Memory MemoryRecord).run z := by
  have hedge : (CanonicalStore.addDependency row.id oldId .supersedes : Prog Memory Unit).run
      (unlinked oldId r w) = (.ok (), u) := by
    rw [addDependency_run, if_pos ((edgeAllowed_unlinked hid).mpr hold), hu]
  have hindex : (index row : Prog Memory Unit).run u =
      (.ok (), apply (.indexPosting row.id row.content) u) := rfl
  obtain ⟨report, hpurge⟩ := (purgeInto_returns (engine_lawful e) [oldId] ∅).run
    (apply (.indexPosting row.id row.content) u)
  rw [correct_run oldId hrun, Proc.run_bind_ok hedge, Proc.run_bind_ok hindex, hz]
  exact Proc.run_bind_ok hpurge

theorem stranded_correct (hw : Idle e w) {oldId : RecordId} {r : MemoryRecord}
    (hold : ¬ Correctable w oldId r.id) :
    ((e.correct oldId r).run w).1 = .error .integrityError ∧
      ∃ row, row.id = r.id ∧ row.status = r.status ∧ row.contentHash = r.contentHash ∧
        Stranded e row w ((e.correct oldId r).final w) := by
  obtain ⟨row, _, hrows, hid, hstatus, hhash⟩ := write_row r w
  have hfail := correct_refused (e := e) hold
  have hrow : (unlinked oldId r w).db.readOne = Function.update w.db.readOne row.id (some row) := by
    have hmissing : (apply (.write r) w).db.readOne oldId = none := by
      rw [readOne_write_of_ne fun h => hold (.inl h.symm)]
      exact Option.not_isSome_iff_eq_none.mp fun h => hold (.inr h)
    rw [unlinked, readOne_setStatus, hmissing, hid, ← hrows]
    exact Function.update_eq_self_iff.mpr hmissing.symm
  refine ⟨congrArg Prod.fst hfail, row, hid, hstatus, hhash, ?_⟩
  rw [Proc.final_of_run hfail]
  exact ⟨hw.same ⟨rfl, Nat.le_refl _, rfl, rfl⟩, hrow, rfl, rfl, rfl, rfl⟩

theorem given_correct (hstores : e.vectorNames.length ≤ maxSteps) (hw : Idle e w)
    {oldId : RecordId} {r : MemoryRecord} (hold : Correctable w oldId r.id) :
    ∃ row, row.id = r.id ∧ row.status = r.status ∧ row.contentHash = r.contentHash ∧
      Given e row [oldId] w ((e.correct oldId r).final w) := by
  obtain ⟨row, hrun, hrows, hid, hstatus, hhash⟩ := write_row r w
  let u := apply (.addDependency row.id oldId .supersedes) (unlinked oldId r w)
  let v := apply (.indexPosting row.id row.content) u
  let z := (purgeInto [oldId] e.registry ∅).final v
  have hv : Idle e v := hw.same ⟨rfl, Nat.le_refl _, rfl, rfl⟩
  have hpurged : Purged e [oldId] v z := purged_purge [oldId] v (.refl hv _)
  obtain ⟨hidle, hstill, hput⟩ := upserted hstores hpurged.idle row z.memory.activeGeneration
  have hfinal : (e.correct oldId r).final w = (e.enqueueVectorUpsert row z.memory.activeGeneration >>=
      fun _ => runUntilIdle e.coordinator >>= fun _ => pure row : Prog Memory MemoryRecord).final z :=
    congrArg Prod.snd (correct_purged hrun hid hold rfl rfl)
  have hread : ((e.correct oldId r).final w).db.readOne = Function.update
      (Function.update w.db.readOne row.id (some row)) oldId
      ((Function.update w.db.readOne row.id (some row) oldId).map fun old =>
        { old with status := .superseded, updatedAt := (apply (.write r) w).now }) := by
    rw [hfinal, readOne_of_authority hstill.authority, readOne_of_authority hpurged.authority]
    change u.db.readOne = _
    rw [readOne_addDependency, readOne_unlinked oldId hrows, hid]
  refine ⟨row, hid, hstatus, hhash, hfinal ▸ hidle, fun hnew => ?_, fun id hid r' hr' => ?_,
    fun id hne hother => ?_, ?_, fun id hother => ?_, ?_, fun name id hother => ?_, ?_⟩
  · rw [hread, Function.update_of_ne (fun h => hnew (List.mem_singleton.mpr h)),
      Function.update_self]
  · cases List.mem_singleton.mp hid
    rw [hread, Function.update_self] at hr'
    obtain ⟨_, _, rfl⟩ := Option.map_eq_some_iff.mp hr'
    rfl
  · rw [hread, Function.update_of_ne (fun h => hother (List.mem_singleton.mpr h)),
      Function.update_of_ne hne]
  · rw [hfinal, isTombstoned_of_authority hstill.authority,
      isTombstoned_of_authority hpurged.authority]
    rfl
  · have hposted : v.db.hasPosting id = (decide (id = row.id) || w.db.hasPosting id) :=
      hasPosting_posted u row id
    rw [hfinal, ← hposted, ← hpurged.posted id hother]
    exact congrArg (fun d : Table RecordId String => d.contains id) hstill.postings
  · refine ⟨MemoryEngine.vectorRecord z.memory.embedder row z.memory.activeGeneration, rfl,
      fun name k => ?_⟩
    rw [hfinal, hput, entries_upserts, hpurged.entries, hpurged.generation]
    rfl
  · rw [hfinal, hput, deleted_upserts, hpurged.deleted name id hother]
    rfl
  · rw [hfinal]
    exact hstill.generation.trans hpurged.generation

end Idle

end StrataMemory.IdleFlows
