import StrataMemory.IdleCalls

set_option autoImplicit false

namespace StrataMemory.Reindexing
open KeyedTables Records Tables Procedures Worlds CommitEffects Coordinator CanonicalStore
open Applications HandlerEffects Reorderings StoreRefinement WaitingQueue SettledFlows IdleFlows
open IdleCalls
open VectorStore Engine Gateway NodeRuns

def reindexedRows (db : Db) (ids : List RecordId) : List MemoryRecord :=
  (readIds db ids).filter fun r => !db.isTombstoned r.id

/-- Their upserts, record by record and store by store. -/
def reindexPlan (e : MemoryEngine) (embedder : Embedder) (generation : ℤ)
    (records : List MemoryRecord) : List (String × VectorRecord) :=
  records.flatMap fun r => upserts e embedder r generation

def upsertPairs (e : MemoryEngine) (db : Db) (ids : List RecordId) : List (String × RecordId) :=
  (reindexedRows db ids).flatMap fun r => e.vectorNames.map fun name => (name, r.id)

/-- The id is upserted into the store by the one drain of the reindexing. -/
def Reached (e : MemoryEngine) (db : Db) (ids : List RecordId) (name : String) (id : RecordId) :
    Prop :=
  (name, id) ∈ (upsertPairs e db ids).take maxSteps

instance (e : MemoryEngine) (db : Db) (ids : List RecordId) (name : String) (id : RecordId) :
    Decidable (Reached e db ids name id) :=
  inferInstanceAs (Decidable (_ ∈ _))

section Plan
variable {e : MemoryEngine} {w : World Memory}

theorem generation_of_plan {embedder : Embedder} {generation : ℤ} {records : List MemoryRecord}
    {p : String × VectorRecord} (h : p ∈ reindexPlan e embedder generation records) :
    p.2.embeddingGeneration = generation := by
  obtain ⟨r, _, hp⟩ := List.mem_flatMap.mp h
  obtain ⟨name, _, rfl⟩ := List.mem_map.mp hp
  rfl

theorem row_of_plan {embedder : Embedder} {generation : ℤ} {db : Db} {ids : List RecordId}
    {p : String × VectorRecord} (h : p ∈ reindexPlan e embedder generation (reindexedRows db ids)) :
    ∃ r, db.readOne p.2.id = some r ∧ p.2.contentHash = r.contentHash := by
  obtain ⟨r, hr, hp⟩ := List.mem_flatMap.mp h
  obtain ⟨name, _, rfl⟩ := List.mem_map.mp hp
  obtain ⟨id, _, hread⟩ := List.mem_filterMap.mp (List.mem_filter.mp hr).1
  have hid : r.id = id := Db.readOne_id hread
  subst hid
  exact ⟨r, hread, rfl⟩

theorem upsertPairs_eq (embedder : Embedder) (generation : ℤ) (db : Db) (ids : List RecordId) :
    upsertPairs e db ids = (reindexPlan e embedder generation (reindexedRows db ids)).map
      fun p => (p.1, p.2.id) := by
  unfold upsertPairs reindexPlan upserts
  rw [List.map_flatMap]
  refine congrArg (fun f => List.flatMap f (reindexedRows db ids)) (funext fun r => ?_)
  rw [List.map_map]
  rfl

theorem reached_iff_plan (embedder : Embedder) (generation : ℤ) (db : Db) (ids : List RecordId)
    (name : String) (id : RecordId) : Reached e db ids name id ↔
      ∃ p ∈ (reindexPlan e embedder generation (reindexedRows db ids)).take maxSteps,
        p.1 = name ∧ p.2.id = id := by
  unfold Reached
  rw [upsertPairs_eq embedder generation, ← List.map_take, List.mem_map]
  constructor
  · rintro ⟨p, hp, heq⟩
    exact ⟨p, hp, congrArg Prod.fst heq, congrArg Prod.snd heq⟩
  · rintro ⟨p, hp, rfl, rfl⟩
    exact ⟨p, hp, rfl⟩

/-- When one drain is enough, every row is reached that is not tombstoned. -/
theorem reached_iff {db : Db} {ids : List RecordId}
    (henough : (upsertPairs e db ids).length ≤ maxSteps) {name : String}
    (hname : name ∈ e.vectorNames) (id : RecordId) : Reached e db ids name id ↔
      id ∈ ids ∧ (db.readOne id).isSome = true ∧ db.isTombstoned id = false := by
  unfold Reached
  rw [List.take_of_length_le henough]
  unfold upsertPairs reindexedRows readIds
  rw [List.mem_flatMap]
  constructor
  · rintro ⟨r, hr, hpair⟩
    obtain ⟨hread, hnot⟩ := List.mem_filter.mp hr
    obtain ⟨id', hid', hrow⟩ := List.mem_filterMap.mp hread
    obtain ⟨other, _, heq⟩ := List.mem_map.mp hpair
    cases heq
    have hrid : r.id = id' := Db.readOne_id hrow
    subst hrid
    exact ⟨hid', by rw [hrow]; rfl, by simpa using hnot⟩
  · rintro ⟨hid, hrow, hnot⟩
    obtain ⟨r, hr⟩ := Option.isSome_iff_exists.mp hrow
    have hrid : r.id = id := Db.readOne_id hr
    subst hrid
    refine ⟨r, List.mem_filter.mpr ⟨List.mem_filterMap.mpr ⟨_, hid, hr⟩, ?_⟩, List.mem_map.mpr ⟨name, hname, rfl⟩⟩
    rw [hnot]
    rfl

theorem reindexRecords_returns (embedder : Embedder) (generation : ℤ) (records : List MemoryRecord) :
    (e.reindexRecords generation embedder records).Returns := by
  induction records with
  | nil => exact Proc.Returns.pure _
  | cons r rest ih =>
    refine (Proc.Returns.read _).bind fun tombstoned => ?_
    split
    · exact (enqueueUpserts_returns e embedder r generation).bind fun _ => ih
    · exact ih

theorem enqueued_reindexRecords (hw : Ready e w) (embedder : Embedder) (generation : ℤ)
    (records : List MemoryRecord) :
    Enqueued e (reindexPlan e embedder generation
      (records.filter fun r => !w.db.isTombstoned r.id)) w
      ((e.reindexRecords generation embedder records).final w) := by
  induction records generalizing w with
  | nil => exact .nil hw
  | cons r rest ih =>
    have hfirst := enqueued_upserts hw embedder r generation fun _ hname => hname
    let u := (e.vectorNames.forM (upsertInto embedder r generation)).final w
    have hsame : u.db.isTombstoned = w.db.isTombstoned := isTombstoned_of_authority hfirst.still.authority
    have hrest := ih hfirst.ready
    rw [hsame] at hrest
    change Enqueued e _ w ((if (!w.db.isTombstoned r.id) = true then
      e.enqueueUpserts embedder r generation >>= fun _ => e.reindexRecords generation embedder rest
      else e.reindexRecords generation embedder rest).final w)
    by_cases hnot : (!w.db.isTombstoned r.id) = true
    · obtain ⟨_, hrun⟩ := (enqueueUpserts_returns e embedder r generation).run w
      rw [if_pos hnot, List.filter_cons, if_pos hnot, Proc.final_bind_ok hrun]
      exact hfirst.trans hrest
    · rw [if_neg hnot, List.filter_cons, if_neg hnot]
      exact ih hw

theorem reindexInto_drained (hw : Idle e w) (embedder : Embedder) (generation : ℤ)
    (ids : List RecordId) :
    let plan := reindexPlan e embedder generation (reindexedRows w.db ids)
    let t := (e.reindexInto generation embedder ids).final w
    Still w t ∧ storesOf t.memory = (plan.take maxSteps).foldl put (storesOf w.memory) ∧
      (plan.length ≤ maxSteps → Idle e t) ∧
      ∃ ops, List.Forall₂ Puts ops (plan.take maxSteps) ∧
        t.memory = replay (handled e) ops w.memory := by
  obtain ⟨_, hrun⟩ := (reindexRecords_returns embedder generation (readIds w.db ids)).run w
  have hqueued := enqueued_reindexRecords hw.ready embedder generation (readIds w.db ids)
  have hfinal : (e.reindexInto generation embedder ids).final w = (runUntilIdle e.coordinator).final
      ((e.reindexRecords generation embedder (readIds w.db ids)).final w) := by
    unfold MemoryEngine.reindexInto
    rw [Proc.final_bind_ok (run_query _ w), Proc.final_bind_ok hrun, Proc.final_bind_pure]
  rw [hfinal]
  exact hqueued.drained hw

/-- After upserts into a generation, a store shows there the last that it was given of an id,
or what it showed before. -/
theorem shown_puts {plan : List (String × VectorRecord)} {generation : ℤ}
    (h : ∀ p ∈ plan, p.2.embeddingGeneration = generation) (stores : String → Contents)
    (name : String) (id : RecordId) :
    (∃ p ∈ plan, p.1 = name ∧ p.2.id = id ∧
        shownAt (plan.foldl put stores name) (id, generation) = some p.2) ∨
      (∀ p ∈ plan, ¬ (p.1 = name ∧ p.2.id = id)) ∧
        shownAt (plan.foldl put stores name) (id, generation) = shownAt (stores name) (id, generation) := by
  have hkey : ∀ p ∈ plan, key p.2 = (id, generation) ↔ p.2.id = id := fun p hp =>
    ⟨congrArg Prod.fst, fun hid => Prod.ext hid (h p hp)⟩
  by_cases hput : ∃ p ∈ plan, p.1 = name ∧ p.2.id = id
  · obtain ⟨q, hq, hname, hid⟩ := hput
    have hany : plan.any (fun p => p.1 = name ∧ p.2.id = id) = true :=
      List.any_eq_true.mpr ⟨q, hq, decide_eq_true ⟨hname, hid⟩⟩
    cases hfind : plan.reverse.find? fun p => p.1 = name ∧ key p.2 = (id, generation) with
    | none =>
      have hboth : q.1 = name ∧ key q.2 = (id, generation) := ⟨hname, (hkey q hq).mpr hid⟩
      exact absurd (decide_eq_true hboth) (List.find?_eq_none.mp hfind q (List.mem_reverse.mpr hq))
    | some p =>
      have hp : p ∈ plan := List.mem_reverse.mp (List.mem_of_find?_eq_some hfind)
      obtain ⟨hpname, hpkey⟩ : p.1 = name ∧ key p.2 = (id, generation) := by
        simpa only [decide_eq_true_eq] using List.find?_some hfind
      refine .inl ⟨p, hp, hpname, (hkey p hp).mp hpkey, shown_eq_some.mpr ⟨?_, ?_⟩⟩
      · rw [deleted_puts, hany, Bool.not_true, Bool.and_false]
      · rw [entries_puts, hfind]
        rfl
  · have hnone : ∀ p ∈ plan, ¬ (p.1 = name ∧ p.2.id = id) := fun p hp hboth => hput ⟨p, hp, hboth⟩
    have hany : plan.any (fun p => p.1 = name ∧ p.2.id = id) = false :=
      List.any_eq_false.mpr fun p hp => by simpa using hnone p hp
    have hfind : plan.reverse.find? (fun p => p.1 = name ∧ key p.2 = (id, generation)) = none := by
      refine List.find?_eq_none.mpr fun p hp hboth => ?_
      have hp' := List.mem_reverse.mp hp
      obtain ⟨hpname, hpkey⟩ := of_decide_eq_true hboth
      exact hnone p hp' ⟨hpname, (hkey p hp').mp hpkey⟩
    refine .inr ⟨hnone, ?_⟩
    unfold shownAt
    rw [deleted_puts, entries_puts, hany, hfind, Bool.not_false, Bool.and_true]
    rfl

theorem entriesOf_upsert {s : InMemoryVectorStore} {rec : VectorRecord} {generation : ℤ}
    (h : rec.embeddingGeneration ≠ generation) :
    (s.upsert [rec]).2.entriesOf generation = s.entriesOf generation :=
  Table.filter_assignIn (p := fun k : RecordId × ℤ => k.2 = generation) (decide_eq_false h) rec _

theorem entriesOf_handled {op : Operation} {p : String × VectorRecord} (hputs : Puts op p)
    {generation : ℤ} (h : p.2.embeddingGeneration ≠ generation) (m : Memory) (name : String) :
    ((handled e op m).store name).entriesOf generation = (m.store name).entriesOf generation := by
  unfold handled answer
  cases htarget : op.target.bind e.coordinator.handlers with
  | none => rfl
  | some handler =>
    obtain ⟨target, _, hhandler⟩ := Option.bind_eq_some_iff.mp htarget
    obtain ⟨_, rfl⟩ := handler_eq hhandler
    change ((makeHandler target op m).2.store name).entriesOf generation = _
    unfold makeHandler
    split
    · rfl
    · unfold applyToStore
      rw [hputs.opType, hputs.records]
      change ((m.setStore target ((m.store target).upsert [p.2]).2).store name).entriesOf generation = _
      rw [store_setStore]
      split
      · next hname =>
        rw [entriesOf_upsert h, hname]
      · rfl

theorem entriesOf_replay {ops : List Operation} {plan : List (String × VectorRecord)}
    (hputs : List.Forall₂ Puts ops plan) {generation : ℤ}
    (h : ∀ p ∈ plan, p.2.embeddingGeneration ≠ generation) (m : Memory) (name : String) :
    ((replay (handled e) ops m).store name).entriesOf generation =
      (m.store name).entriesOf generation := by
  induction hputs generalizing m with
  | nil => rfl
  | cons hfirst _ ih =>
    rw [replay_cons, ih fun p hp => h p (List.mem_cons_of_mem _ hp)]
    exact entriesOf_handled hfirst (h _ List.mem_cons_self) m name

end Plan

def LiveIn (w : World Memory) (name : String) (generation : ℤ) (id : RecordId) : Prop :=
  ((w.memory.store name).visible (id, generation)).isSome = true

instance (w : World Memory) (name : String) (generation : ℤ) (id : RecordId) :
    Decidable (LiveIn w name generation id) :=
  inferInstanceAs (Decidable (_ = true))

theorem key_of_liveIn {w : World Memory} {name : String} {generation : ℤ} {id : RecordId}
    (h : LiveIn w name generation id) : (id, generation) ∈ (w.memory.store name).byKey.keys := by
  obtain ⟨rec, hrec⟩ := Option.isSome_iff_exists.mp h
  have hget := (InMemoryVectorStore.visible_eq_some.mp hrec).2
  exact (Table.lookupIn_isSome _ _).mp (Option.isSome_iff_exists.mpr ⟨rec, hget⟩)

section Migration
variable (s : Strata) (w : World Memory) (generation : ℤ) (embedder : Embedder)
  (ids : List RecordId)

def opened : World Memory := after s w (.openShadowGeneration generation embedder)

def reindexed : World Memory :=
  after s (opened s w generation embedder) (.reindexInto generation embedder ids)

def promoted : World Memory :=
  after s (reindexed s w generation embedder ids) (.promoteGeneration generation)

def SameLive : Prop :=
  ∀ name ∈ s.engine.vectorNames, ∀ id, LiveIn (promoted s w generation embedder ids) name generation id ↔
    LiveIn w name w.memory.activeGeneration id

/-- Every search of the active generation finds the same in the other world. -/
def SameSearches (w t : World Memory) : Prop :=
  ∀ name ∈ s.engine.vectorNames, ∀ vector topK filters,
    (t.memory.store name).search s.engine.platform vector topK (some w.memory.activeGeneration) filters =
      (w.memory.store name).search s.engine.platform vector topK (some w.memory.activeGeneration) filters

/-- The records that the reindexing upserts, and those that the generation shows already, are
those that the active one shows. -/
def Rebuildable : Prop :=
  ∀ name ∈ s.engine.vectorNames, ∀ id,
    Reached s.engine w.db ids name id ∨ LiveIn w name generation id ↔
      LiveIn w name w.memory.activeGeneration id

end Migration

section Migrations
variable {s : Strata} {w : World Memory} {generation : ℤ} {embedder : Embedder}
  {ids : List RecordId}

theorem opened_still (s : Strata) (w : World Memory) (generation : ℤ) (embedder : Embedder) :
    Still w (opened s w generation embedder) ∧
    (opened s w generation embedder).memory = w.memory :=
  ⟨⟨authority_registerGeneration .., (registerGeneration_kept generation embedder.modelId .shadow w).2.2,
    rfl⟩, rfl⟩

theorem idle_opened (hw : Idle s.engine w) (generation : ℤ) (embedder : Embedder) :
    Idle s.engine (opened s w generation embedder) :=
  hw.same ⟨(registerGeneration_kept generation embedder.modelId .shadow w).1, Nat.le_refl _, rfl, rfl⟩

theorem reindexedRows_of_authority {t : World Memory} (h : authority t = authority w)
    (ids : List RecordId) : reindexedRows t.db ids = reindexedRows w.db ids := by
  unfold reindexedRows readIds
  rw [readOne_of_authority h, isTombstoned_of_authority h]

theorem reindexed_drained (hw : Idle s.engine w) (generation : ℤ) (embedder : Embedder)
    (ids : List RecordId) :
    let plan := reindexPlan s.engine embedder generation (reindexedRows w.db ids)
    let t := reindexed s w generation embedder ids
    storesOf t.memory = (plan.take maxSteps).foldl put (storesOf w.memory) ∧
      ∃ ops, List.Forall₂ Puts ops (plan.take maxSteps) ∧
        t.memory = replay (handled s.engine) ops w.memory := by
  have hopened := (opened_still s w generation embedder).1
  obtain ⟨_, hstores, _, hmemory⟩ :=
    reindexInto_drained (idle_opened hw generation embedder) embedder generation ids
  rw [reindexedRows_of_authority hopened.authority] at hstores hmemory
  exact ⟨hstores, hmemory⟩

theorem liveIn_promoted (hw : Idle s.engine w) (name : String) (id : RecordId) :
    LiveIn (promoted s w generation embedder ids) name generation id ↔
      Reached s.engine w.db ids name id ∨ LiveIn w name generation id := by
  obtain ⟨hstores, _⟩ := reindexed_drained hw generation embedder ids
  change (((reindexed s w generation embedder ids).memory.store name).visible (id, generation)).isSome =
    true ↔ _
  rw [reached_iff_plan embedder generation, LiveIn, ← shown_storesOf, ← shown_storesOf, hstores]
  rcases shown_puts (fun p hp => generation_of_plan (List.mem_of_mem_take hp)) (storesOf w.memory) name id
    with ⟨p, hp, hname, hid, hshown⟩ | ⟨hnone, hshown⟩
  · rw [hshown]
    exact iff_of_true rfl (.inl ⟨p, hp, hname, hid⟩)
  · rw [hshown]
    exact ⟨.inr, fun h => h.resolve_left fun ⟨p, hp, hboth⟩ => hnone p hp hboth⟩

theorem sameLive_iff (hw : Idle s.engine w) :
    SameLive s w generation embedder ids ↔ Rebuildable s w generation ids := by
  unfold SameLive Rebuildable
  simp only [liveIn_promoted hw]

/-- A reindexing that only upserts what the active generation shows changes no search there. -/
theorem sameSearches_reindexed (hw : Idle s.engine w)
    (hshadow : generation ≠ w.memory.activeGeneration)
    (h : Rebuildable s w generation ids) :
    SameSearches s w (reindexed s w generation embedder ids) := by
  obtain ⟨hstores, ops, hputs, hmemory⟩ := reindexed_drained hw generation embedder ids
  intro name hname vector topK filters
  have hentries : ((reindexed s w generation embedder ids).memory.store name).entriesOf
      w.memory.activeGeneration = (w.memory.store name).entriesOf w.memory.activeGeneration := by
    rw [hmemory]
    refine entriesOf_replay hputs (fun p hp => ?_) _ _
    rw [generation_of_plan (List.mem_of_mem_take hp)]
    exact hshadow
  have hdeleted : ∀ id, (storesOf (reindexed s w generation embedder ids).memory name).deleted id =
      (storesOf w.memory name).deleted id := by
    intro id
    rw [hstores, deleted_puts]
    by_cases hreached : Reached s.engine w.db ids name id
    · obtain ⟨rec, hrec⟩ := Option.isSome_iff_exists.mp ((h name hname id).mp (.inl hreached))
      rw [← shown_storesOf, shown_eq_some] at hrec
      rw [hrec.1, Bool.false_and]
    · rw [reached_iff_plan embedder generation] at hreached
      rw [List.any_eq_false.mpr fun p hp => by simpa using fun hn hi => hreached ⟨p, hp, hn, hi⟩,
        Bool.not_false, Bool.and_true]
  unfold InMemoryVectorStore.search
  rw [InMemoryVectorStore.hits_of_entriesOf hentries fun e _ => ?_]
  exact decide_eq_decide.mp (hdeleted e.1.1)

/-- After any run of the gateway, a migration makes its generation show what the active one
shows, and leaves the searches of that one alone until the promotion, if and only if the
records that it upserts are those that the active generation shows. -/
theorem reindex_agrees_iff (s : Strata) (hstores : s.engine.vectorNames.length ≤ maxSteps)
    {w₀ : World Memory} (hstart : Started w₀) (hfaults : ∀ n, w₀.memory.faults n = false)
    {calls : List Call} (hcalls : ∀ c ∈ calls, isGatewayOperation c = true) (generation : ℤ)
    (embedder : Embedder) (ids : List RecordId) :
    let w := runCalls s w₀ calls
    (SameLive s w generation embedder ids ↔ Rebuildable s w generation ids) ∧
      (generation ≠ w.memory.activeGeneration →
        (SameLive s w generation embedder ids ∧ SameSearches s w (opened s w generation embedder) ∧
          SameSearches s w (reindexed s w generation embedder ids) ↔
        Rebuildable s w generation ids)) := by
  intro w
  have hw : Idle s.engine w := idle_runCalls hstores hcalls (idle_started hstart hfaults)
  have hlive : SameLive s w generation embedder ids ↔ Rebuildable s w generation ids := sameLive_iff hw
  refine ⟨hlive, fun hshadow => ⟨fun h => hlive.mp h.1, fun h => ⟨hlive.mpr h, ?_, ?_⟩⟩⟩
  · exact fun _ _ _ _ _ => rfl
  · exact sameSearches_reindexed hw hshadow h

theorem reindex_agrees_written :
    SameLive plainStrata (runCalls plainStrata plainWorld [.writeMemory "tea" {}]) 2 plainEmbedder [1] := by
  refine (reindex_agrees_iff plainStrata (by decide) started_plainWorld (fun _ => rfl)
    (by decide) 2 plainEmbedder [1]).1.mpr fun name hname id => ?_
  cases List.mem_singleton.mp hname
  let w := runCalls plainStrata plainWorld [.writeMemory "tea" {}]
  have hkeys : (w.memory.store "hot").byKey.keys = [(1, 1)] := by decide
  have hpairs : (upsertPairs plainStrata.engine w.db [1]).take maxSteps = [("hot", 1)] := by decide
  constructor
  · rintro (hreached | hlive)
    · have hmem : ("hot", id) ∈ (upsertPairs plainStrata.engine w.db [1]).take maxSteps := hreached
      rw [hpairs] at hmem
      cases List.mem_singleton.mp hmem
      decide
    · have hkey := key_of_liveIn hlive
      rw [hkeys] at hkey
      cases List.mem_singleton.mp hkey
  · intro hlive
    have hkey := key_of_liveIn hlive
    rw [hkeys] at hkey
    cases List.mem_singleton.mp hkey
    exact .inl (by decide)

/-- A superseded record comes back with the migration, also in the old generation. -/
theorem superseded_reindexed :
    let w := runCalls plainStrata plainWorld [.writeMemory "tea" {}, .supersedeMemory 1 "milk" {}]
    let t := reindexed plainStrata w 2 plainEmbedder [1, 2]
    w.db.canonical.records.keys = [1, 2] ∧ w.memory.activeGeneration = 1 ∧
      ¬ LiveIn w "hot" 1 1 ∧ LiveIn (promoted plainStrata w 2 plainEmbedder [1, 2]) "hot" 2 1 ∧
      ((w.memory.store "hot").search plainPlatform [3] 5 (some 1)).map VectorHit.id = [2] ∧
      ((t.memory.store "hot").search plainPlatform [3] 5 (some 1)).map VectorHit.id = [1, 2] ∧
      ¬ SameLive plainStrata w 2 plainEmbedder [1, 2] ∧ ¬ SameSearches plainStrata w t := by
  refine ⟨by decide, by decide, by decide, by decide, by decide, by decide, fun h => ?_, fun h => ?_⟩
  · exact absurd (h "hot" (by decide) 1) (by decide)
  · exact absurd (congrArg (List.map VectorHit.id) (h "hot" (by decide) [3] 5 [])) (by decide)

end Migrations
end StrataMemory.Reindexing
