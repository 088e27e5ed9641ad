import Mathlib.Logic.Function.Basic
import StrataMemory.HandlerEffects
import StrataMemory.LogConservation
import StrataMemory.NodeRuns
import StrataMemory.PendingRows
import StrataMemory.Reorderings
import StrataMemory.SchedulerOrder

set_option autoImplicit false

namespace StrataMemory.StoreRefinement
open KeyedTables Records Tables Procedures Worlds Coordinator CoordinatorRuns Applications
open QueueRuns SchedulerOrder LogConservation PendingRows Reorderings
open VectorStore Engine HandlerEffects NodeRuns

@[ext] structure Contents where
  entries : RecordId × ℤ → Option VectorRecord
  deleted : RecordId → Bool

def key (rec : VectorRecord) : RecordId × ℤ := (rec.id, rec.embeddingGeneration)

namespace Contents

/-- Of several records with one key, the last is kept. -/
def upsert (c : Contents) (records : List VectorRecord) : Contents where
  entries k := (records.reverse.find? fun rec => key rec = k).or (c.entries k)
  deleted id := c.deleted id && !records.any fun rec => rec.id = id

def remove (c : Contents) (ids : List RecordId) : Contents where
  entries := c.entries
  deleted id := decide (id ∈ ids) || c.deleted id

theorem upsert_upsert_self (c : Contents) (records : List VectorRecord) :
    (c.upsert records).upsert records = c.upsert records := by
  ext1
  · funext k
    simp only [upsert]
    rw [← Option.or_assoc, Option.or_self]
  · funext id
    simp only [upsert]
    rw [Bool.and_assoc, Bool.and_self]

theorem remove_remove_self (c : Contents) (ids : List RecordId) :
    (c.remove ids).remove ids = c.remove ids := by
  ext1
  · rfl
  · funext id
    simp only [remove]
    rw [← Bool.or_assoc, Bool.or_self]

theorem upsert_upsert_comm (c : Contents) {records others : List VectorRecord}
    (h : ∀ rec ∈ records, ∀ other ∈ others, rec.id ≠ other.id) :
    (c.upsert others).upsert records = (c.upsert records).upsert others := by
  ext1
  · funext k
    simp only [upsert]
    cases hrec : records.reverse.find? fun rec => key rec = k with
    | none => rfl
    | some rec =>
      have hnone : (others.reverse.find? fun other => key other = k) = none := by
        refine List.find?_eq_none.mpr fun other hother hkey => ?_
        have hmem := List.mem_reverse.mp (List.mem_of_find?_eq_some hrec)
        have hsame : key rec = k := by simpa using List.find?_some hrec
        have hkeys : key rec = key other := hsame.trans (of_decide_eq_true hkey).symm
        exact h rec hmem other (List.mem_reverse.mp hother) (congrArg Prod.fst hkeys)
      simp [hnone]
  · funext id
    simp only [upsert]
    rw [Bool.and_assoc, Bool.and_assoc, Bool.and_comm (!records.any _)]

end Contents

def contents (s : InMemoryVectorStore) : Contents where
  entries := s.byKey.get?
  deleted id := id ∈ s.deleted

theorem contents_upsert (s : InMemoryVectorStore) (records : List VectorRecord) :
    contents (s.upsert records).2 = (contents s).upsert records := by
  change contents (records.foldl InMemoryVectorStore.upsertOne s) = _
  induction records generalizing s with
  | nil =>
    ext1
    · rfl
    · funext id
      exact (Bool.and_true _).symm
  | cons rec records ih =>
    rw [List.foldl_cons, ih]
    ext1
    · funext k
      simp only [Contents.upsert, contents, InMemoryVectorStore.upsertOne, Table.get?_set,
        List.reverse_cons, List.find?_append, Option.or_assoc]
      by_cases hk : key rec = k
      · simp [← hk, key]
      · have hk' : (rec.id, rec.embeddingGeneration) ≠ k := hk
        simp [hk, hk']
    · funext id
      by_cases hid : rec.id = id
      · subst hid
        simp [Contents.upsert, contents, InMemoryVectorStore.upsertOne]
      · have hid' : id ≠ rec.id := Ne.symm hid
        simp [Contents.upsert, contents, InMemoryVectorStore.upsertOne, hid, hid']

theorem contents_remove (s : InMemoryVectorStore) (ids : List RecordId) :
    contents (s.remove ids).2 = (contents s).remove ids := by
  ext1
  · rfl
  · funext id
    simp [Contents.remove, contents, InMemoryVectorStore.remove]

def applied (op : Operation) (c : Contents) : Contents :=
  match op.opType with
  | .upsertIndex => c.upsert op.records
  | .removeIndex | .hardPurge => c.remove op.targetIds
  | .tombstone | .reindexPromote => c

def act (op : Operation) (stores : String → Contents) : String → Contents :=
  match op.target with
  | none => stores
  | some name => Function.update stores name (applied op (stores name))

theorem act_target {op : Operation} {name : String} (h : op.target = some name)
    (stores : String → Contents) :
    act op stores = Function.update stores name (applied op (stores name)) := by
  unfold act
  rw [h]

/-- The operations of the engine: an upsert carries a record for each target id and for
no other, and a removal may name any ids. -/
structure EngineBuilt (op : Operation) : Prop where
  opType : op.opType = .upsertIndex ∨ op.opType = .removeIndex
  payload : op.opType = .upsertIndex → ∀ id, id ∈ op.targetIds ↔ id ∈ op.records.map VectorRecord.id

def storesOf (m : Memory) (name : String) : Contents := contents (m.store name)

theorem act_idempotent (op : Operation) : Idempotent act op := by
  intro stores
  have happlied : ∀ c, applied op (applied op c) = applied op c := by
    intro c
    unfold applied
    cases op.opType with
    | upsertIndex => exact c.upsert_upsert_self _
    | removeIndex | hardPurge => exact c.remove_remove_self _
    | tombstone | reindexPromote => rfl
  unfold act
  cases op.target with
  | none => rfl
  | some name => simp only [Function.update_self, Function.update_idem, happlied]

/-- Operations whose order does not matter are upserts of different ids. -/
theorem act_commute {a b : Operation} (ha : EngineBuilt a) (hb : EngineBuilt b)
    (h : ¬ Conflicts a b) : Function.Commute (act a) (act b) := by
  obtain ⟨hda, hdb, hshared⟩ : a.isDestructive ≠ true ∧ b.isDestructive ≠ true ∧
      ¬ ∃ id ∈ a.targetIds, id ∈ b.targetIds := by
    simpa only [Conflicts, not_or] using h
  have hua : a.opType = .upsertIndex := by simpa [Operation.isDestructive] using hda
  have hub : b.opType = .upsertIndex := by simpa [Operation.isDestructive] using hdb
  have hids : ∀ rec ∈ a.records, ∀ other ∈ b.records, rec.id ≠ other.id := by
    intro rec hrec other hother hid
    have hrecId := (ha.payload hua rec.id).mpr (List.mem_map_of_mem hrec)
    have hotherId := (hb.payload hub other.id).mpr (List.mem_map_of_mem hother)
    exact hshared ⟨rec.id, hrecId, hid ▸ hotherId⟩
  have happlied : ∀ c, applied a (applied b c) = applied b (applied a c) := by
    intro c
    simp only [applied, hua, hub]
    exact c.upsert_upsert_comm hids
  intro stores
  unfold act
  cases a.target with
  | none => rfl
  | some nameA =>
    cases b.target with
    | none => rfl
    | some nameB =>
      by_cases hname : nameA = nameB
      · subst hname
        simp only [Function.update_self, Function.update_idem, happlied]
      · simp only [Function.update_of_ne hname, Function.update_of_ne (Ne.symm hname)]
        exact Function.update_comm (Ne.symm hname) _ _ _

theorem storesOf_applyToStore (name : String) (op : Operation) (m : Memory) :
    storesOf (applyToStore name op m).2 = Function.update (storesOf m) name
      (applied op (storesOf m name)) := by
  have hset : ∀ s : InMemoryVectorStore,
      storesOf (m.setStore name s) = Function.update (storesOf m) name (contents s) := by
    intro s
    funext other
    unfold storesOf
    rw [store_setStore]
    by_cases hname : name = other
    · subst hname
      rw [if_pos rfl, Function.update_self]
    · rw [if_neg hname, Function.update_of_ne (Ne.symm hname)]
  unfold applyToStore applied
  cases op.opType with
  | upsertIndex => exact (hset _).trans (congrArg _ (contents_upsert _ _))
  | removeIndex | hardPurge => exact (hset _).trans (congrArg _ (contents_remove _ _))
  | tombstone | reindexPromote => exact (Function.update_eq_self name _).symm

theorem fullyAcked_applyToStore (name : String) {op : Operation} (hop : EngineBuilt op) (m : Memory) :
    fullyAcked op (applyToStore name op m).1 = true := by
  rcases hop.opType with htype | htype
  · simp only [applyToStore, htype]
    refine List.all_eq_true.mpr fun id hid => ?_
    have hmem := (hop.payload htype id).mp hid
    have hacks : ((m.store name).upsert op.records).1 =
        (op.records.map VectorRecord.id).map fun i => (i, true) := by
      rw [List.map_map]
      rfl
    rw [hacks]
    exact get_acks hmem
  · simp only [applyToStore, htype]
    exact List.all_eq_true.mpr fun id hid => get_acks hid

/-- A handler refuses without effect, or applies the operation and acknowledges all of it. -/
theorem answer_stores {e : MemoryEngine} {op : Operation} (hop : EngineBuilt op) (m : Memory) :
    (fullyAcked op (answer e.coordinator op m).1 = false ∧
        storesOf (answer e.coordinator op m).2 = storesOf m) ∨
      fullyAcked op (answer e.coordinator op m).1 = true ∧
        storesOf (answer e.coordinator op m).2 = act op (storesOf m) := by
  unfold answer act
  cases htarget : op.target with
  | none => exact .inl ⟨rfl, rfl⟩
  | some name =>
    rw [Option.bind_some]
    cases hhandler : e.coordinator.handlers name with
    | none => exact .inl ⟨rfl, rfl⟩
    | some handler =>
      obtain ⟨_, rfl⟩ := handler_eq hhandler
      unfold makeHandler
      by_cases hfault : m.faults m.calls = true
      · simp only [if_pos hfault]
        exact .inl ⟨rfl, rfl⟩
      · simp only [if_neg hfault]
        exact .inr ⟨fullyAcked_applyToStore name hop m, storesOf_applyToStore name op m⟩

/-- The operations that are neither done nor failed, in the order of the log. -/
def unfinished (log : OpLog) : List Operation := (notDone log).map OpRow.operation

theorem unfinished_map {rows : List OpRow} {g : OpRow → OpRow}
    (h : ∀ row ∈ rows, (g row).isLive = row.isLive ∧ (g row).operation = row.operation) :
    ((rows.map g).filter OpRow.isLive).map OpRow.operation =
      (rows.filter OpRow.isLive).map OpRow.operation := by
  induction rows with
  | nil => rfl
  | cons row rows ih =>
    obtain ⟨hlive, hop⟩ := h row List.mem_cons_self
    have htail := ih fun r hr => h r (List.mem_cons_of_mem _ hr)
    rw [List.map_cons, List.filter_cons, List.filter_cons, hlive]
    split
    · rw [List.map_cons, List.map_cons, hop, htail]
    · exact htail

theorem unfinished_split {log : OpLog} {before after : List OpRow} {row : OpRow}
    (h : notDone log = before ++ row :: after) : unfinished log =
      before.map OpRow.operation ++ row.operation :: after.map OpRow.operation := by
  rw [unfinished, h, List.map_append, List.map_cons]

theorem unfinished_advance {log : OpLog} {p : OpRow → Bool} {f : Progress → Progress}
    (h : ∀ row ∈ log.rows, p row = true → (f row.progress).state.isLive = row.isLive) :
    unfinished (log.advance p f) = unfinished log := by
  refine unfinished_map fun row hrow => ?_
  by_cases hp : p row = true
  · rw [if_pos hp]
    exact ⟨h row hrow hp, rfl⟩
  · rw [if_neg hp]
    exact ⟨rfl, rfl⟩

theorem unfinished_settled {log : OpLog} {before after : List OpRow} {row : OpRow} {p : Progress}
    (h : notDone log = before ++ row :: after) (hp : p.state.isLive = false) :
    unfinished (log.advance (fun r => r.seq = row.seq) fun _ => p) =
      before.map OpRow.operation ++ after.map OpRow.operation := by
  have hdead : [{ row with progress := p }].filter OpRow.isLive = [] :=
    List.filter_cons_of_neg (by simp [OpRow.isLive, hp])
  unfold unfinished
  rw [notDone_advance_at h, hdead, List.append_nil, List.map_append]

theorem unfinished_append (log : OpLog) (op : Operation) (now : Time) :
    unfinished (log.append op now) = unfinished log ∧
        operations (log.append op now) = operations log ∨
      unfinished (log.append op now) = unfinished log ++ [op] ∧
        operations (log.append op now) = operations log ++ [op] := by
  by_cases hfresh : op.opId ∈ log.rows.map fun r => r.operation.opId
  · have hsame : log.append op now = log := dif_pos hfresh
    exact .inl ⟨congrArg unfinished hsame, congrArg operations hsame⟩
  · refine .inr ⟨?_, ?_⟩
    · rw [unfinished, notDone_append hfresh, List.map_append]
      rfl
    · rw [operations, rows_append hfresh, List.map_append]
      rfl

structure Fresh (log : OpLog) : Prop where
  live : ∀ row ∈ log.rows, row.isLive = true
  built : ∀ row ∈ log.rows, EngineBuilt row.operation

/-- No retry is forced, and only operations of the engine are queued. -/
def Plain (_ : World Memory) : Move → Prop
  | .retry _ => False
  | .enqueue op => EngineBuilt op
  | _ => True

/-- Unless an operation has failed, what is left to apply brings the stores to where the
whole log brings `stores`. -/
structure OnCourse (stores : String → Contents) (w : World Memory) : Prop where
  built : ∀ row ∈ w.db.opLog.rows, EngineBuilt row.operation
  course : (∃ row ∈ w.db.opLog.rows, row.progress.state = .failed) ∨
    replay act (unfinished w.db.opLog) (storesOf w.memory) =
      replay act (operations w.db.opLog) stores

section Course
variable {e : MemoryEngine} {stores : String → Contents} {w t : World Memory}

theorem EngineBuilt.effect (hbuilt : ∀ row ∈ w.db.opLog.rows, EngineBuilt row.operation)
    (h : Effect e.coordinator Plain w t) : ∀ row ∈ t.db.opLog.rows, EngineBuilt row.operation := by
  intro row hrow
  rcases h.row hrow with ⟨old, hold, p, rfl, _⟩ | ⟨_, hmet⟩
  · exact hbuilt old hold
  · exact hmet

/-- The rows before the selected one are of upserts of other ids. -/
theorem selected_commutes (hbuilt : ∀ row ∈ notDone w.db.opLog, EngineBuilt row.operation)
    {now : Time} {row : OpRow} (hsel : selectEligible w.db.opLog now = some row) :
    ∃ before after, notDone w.db.opLog = before ++ row :: after ∧
      ∀ op ∈ before.map OpRow.operation, Function.Commute (act op) (act row.operation) := by
  obtain ⟨before, after, hrows, _, hblocked⟩ := selectFrom_some hsel
  have hlive : ∀ r ∈ before ++ row :: after, EngineBuilt r.operation := fun r hr =>
    hbuilt r (hrows ▸ hr : r ∈ notDone w.db.opLog)
  refine ⟨before, after, hrows, fun op hop => ?_⟩
  obtain ⟨r, hr, rfl⟩ := List.mem_map.mp hop
  have hnot := not_conflicts_of_not_blocked hblocked hr
  exact act_commute (hlive r (by simp [hr])) (hlive row (by simp)) hnot

theorem OnCourse.liveBuilt (hw : OnCourse stores w) :
    ∀ row ∈ notDone w.db.opLog, EngineBuilt row.operation := fun row hrow =>
  hw.built row (List.mem_filter.mp hrow).1

theorem OnCourse.begun (hw : OnCourse stores w) {row : OpRow} {now : Time}
    (hsel : selectEligible w.db.opLog w.now = some row)
    (hlog : t.db.opLog = w.db.opLog.advance (fun r => r.seq = row.seq)
      fun p => { p with state := .inProgress, updatedAt := now })
    (hmemory : t.memory = w.memory ∨ t.memory = (answer e.coordinator row.operation w.memory).2)
    (hcourse : replay act (unfinished w.db.opLog) (storesOf w.memory) =
      replay act (operations w.db.opLog) stores) :
    replay act (unfinished t.db.opLog) (storesOf t.memory) =
      replay act (operations t.db.opLog) stores := by
  obtain ⟨hrow, hlive⟩ := live_of_selectEligible hsel
  obtain ⟨before, after, hrows, hcommute⟩ := selected_commutes hw.liveBuilt hsel
  have hsame : unfinished t.db.opLog = unfinished w.db.opLog := by
    rw [hlog]
    refine unfinished_advance fun r hr hseq => ?_
    rw [seq_unique hrow hr (of_decide_eq_true hseq), hlive]
    rfl
  have hstores : storesOf t.memory = storesOf w.memory ∨
      storesOf t.memory = act row.operation (storesOf w.memory) := by
    rcases hmemory with hmemory | hmemory
    · exact .inl (congrArg storesOf hmemory)
    · rw [hmemory]
      exact (answer_stores (hw.built row hrow) w.memory).imp And.right And.right
  rw [hsame, hlog, operations_advance, ← hcourse]
  rcases hstores with hstores | hstores <;> rw [hstores]
  -- The call has been made, and will be made again.
  rw [unfinished_split hrows]
  exact replay_redone hcommute (act_idempotent _) _ _

theorem OnCourse.closed (hw : OnCourse stores w) {row : OpRow} {p : Progress}
    (hsel : selectEligible w.db.opLog w.now = some row)
    (hverdict : Verdict e.coordinator row (answer e.coordinator row.operation w.memory).1 p)
    (hlog : t.db.opLog = w.db.opLog.advance (fun r => r.seq = row.seq) fun _ => p)
    (hmemory : t.memory = (answer e.coordinator row.operation w.memory).2)
    (hcourse : replay act (unfinished w.db.opLog) (storesOf w.memory) =
      replay act (operations w.db.opLog) stores) :
    (∃ r ∈ t.db.opLog.rows, r.progress.state = .failed) ∨
      replay act (unfinished t.db.opLog) (storesOf t.memory) =
        replay act (operations t.db.opLog) stores := by
  obtain ⟨hrow, hlive⟩ := live_of_selectEligible hsel
  obtain ⟨before, after, hrows, hcommute⟩ := selected_commutes hw.liveBuilt hsel
  cases hverdict with
  | done hacked hstate =>
    refine .inr ?_
    have hstores : storesOf t.memory = act row.operation (storesOf w.memory) := by
      rw [hmemory]
      rcases answer_stores (hw.built row hrow) w.memory with ⟨hrefused, _⟩ | ⟨_, hstores⟩
      · exact absurd (hacked.symm.trans hrefused) (by decide)
      · exact hstores
    rw [hlog, unfinished_settled hrows (by rw [hstate]; rfl), operations_advance, ← hcourse,
      unfinished_split hrows, hstores]
    exact replay_taken hcommute _ _
  | failed _ _ hstate =>
    refine .inl ⟨{ row with progress := p }, ?_, hstate⟩
    rw [hlog]
    have hmem : _ ∈ (w.db.opLog.advance (fun r => r.seq = row.seq) fun _ => p).rows :=
      List.mem_map_of_mem hrow
    rwa [if_pos (decide_eq_true rfl)] at hmem
  | deferred hrefused _ hstate _ =>
    refine .inr ?_
    have hstores : storesOf t.memory = storesOf w.memory := by
      rw [hmemory]
      rcases answer_stores (hw.built row hrow) w.memory with ⟨_, hstores⟩ | ⟨hacked, _⟩
      · exact hstores
      · exact absurd (hacked.symm.trans hrefused) (by decide)
    have hsame : unfinished t.db.opLog = unfinished w.db.opLog := by
      rw [hlog]
      refine unfinished_advance fun r hr hseq => ?_
      rw [seq_unique hrow hr (of_decide_eq_true hseq), hlive, hstate]
      rfl
    rw [hsame, hlog, operations_advance, hstores, hcourse]

theorem OnCourse.effect (hw : OnCourse stores w) (h : Effect e.coordinator Plain w t) :
    OnCourse stores t := by
  refine ⟨EngineBuilt.effect hw.built h, ?_⟩
  rcases hw.course with ⟨row, hrow, hfailed⟩ | hcourse
  · have hdead : row.isLive = false := by simp [OpRow.isLive, OpState.isLive, hfailed]
    exact .inl ⟨row, settled_kept h hrow hdead fun _ => id, hfailed⟩
  cases h with
  | application point =>
    cases point with
    | idle hlog hmemory =>
      rw [hlog, hmemory]
      exact .inr hcourse
    | begun hsel _ hlog hmemory => exact .inr (hw.begun hsel hlog hmemory hcourse)
    | closed hsel hverdict hlog hmemory => exact hw.closed hsel hverdict hlog hmemory hcourse
  | enqueued op now _ hlog hmemory =>
    rw [hlog, hmemory]
    rcases unfinished_append w.db.opLog op now with ⟨hsame, hops⟩ | ⟨hgrown, hops⟩
    · rw [hsame, hops]
      exact .inr hcourse
    · rw [hgrown, hops, replay_append, replay_append, hcourse]
      exact .inr rfl
  | recovered now hlog hmemory =>
    have hsame : unfinished t.db.opLog = unfinished w.db.opLog := by
      rw [hlog]
      refine unfinished_advance fun r _ hstate => ?_
      simp [OpRow.isLive, OpState.isLive, of_decide_eq_true hstate]
    rw [hsame, hlog, operations_advance, hmemory]
    exact .inr hcourse
  | retried opId now hmet _ _ => exact hmet.elim

theorem onCourse_start (hw : Fresh w.db.opLog) : OnCourse (storesOf w.memory) w := by
  refine ⟨hw.built, .inr ?_⟩
  have hall : notDone w.db.opLog = w.db.opLog.rows := List.filter_eq_self.mpr hw.live
  rw [unfinished, hall, operations]

/-- One operation on the store that it names, without the coordinator. -/
def applyDirectly (op : Operation) (m : Memory) : Memory :=
  match op.target with
  | none => m
  | some name => (applyToStore name op m).2

theorem storesOf_applyDirectly (op : Operation) (m : Memory) :
    storesOf (applyDirectly op m) = act op (storesOf m) := by
  unfold applyDirectly act
  cases op.target with
  | none => rfl
  | some name => exact storesOf_applyToStore name op m

/-- However the scheduler orders and repeats the operations of the engine, once all of them
are done every store holds what the log leaves when it is applied once, in order. -/
theorem stores_eq_replay (e : MemoryEngine) {w₀ : World Memory} (hstart : Fresh w₀.db.opLog)
    {moves : List Move} (hplain : Meets Plain e.coordinator moves w₀)
    (hdone : ∀ row ∈ (run e.coordinator moves w₀).db.opLog.rows, row.progress.state = .done) :
    storesOf (run e.coordinator moves w₀).memory = storesOf
      (replay applyDirectly (operations (run e.coordinator moves w₀).db.opLog) w₀.memory) := by
  have hw := run_keeps (fun _ _ hu h => hu.effect h) hplain (onCourse_start hstart)
  rcases hw.course with ⟨row, hrow, hfailed⟩ | hcourse
  · exact absurd ((hdone row hrow).symm.trans hfailed) (by decide)
  · have hnone : unfinished (run e.coordinator moves w₀).db.opLog = [] := by
      refine List.map_eq_nil_iff.mpr (List.filter_eq_nil_iff.mpr fun row hrow => ?_)
      simp [OpRow.isLive, OpState.isLive, hdone row hrow]
    rw [hnone] at hcourse
    exact hcourse.trans (replay_view storesOf_applyDirectly _ _).symm

end Course

def upsertRecord (opId : OpId) (id : RecordId) : Operation where
  opType := .upsertIndex
  targetIds := [id]
  target := some "hot"
  payload := some [⟨id, [1], "tea", "length", 1, []⟩]
  expectedGeneration := some 1
  opId := opId

theorem upsertRecord_built (opId : OpId) (id : RecordId) : EngineBuilt (upsertRecord opId id) :=
  ⟨.inl rfl, fun _ _ => by simp [upsertRecord, Operation.records]⟩

theorem stores_eq_replay_crashed :
    let w := run plainStrata.engine.coordinator [.enqueue (upsertRecord 1 7),
      .enqueue (upsertRecord 2 8), .crash 5, .applyNext, .applyNext] plainWorld
    storesOf w.memory = storesOf
      (replay applyDirectly (operations w.db.opLog) plainWorld.memory) := by
  refine stores_eq_replay plainStrata.engine ?_ ?_ ?_
  · exact ⟨fun _ h => absurd h List.not_mem_nil, fun _ h => absurd h List.not_mem_nil⟩
  · exact ⟨upsertRecord_built 1 7, upsertRecord_built 2 8, trivial, trivial, trivial, trivial⟩
  · decide

end StrataMemory.StoreRefinement
