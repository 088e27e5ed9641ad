import StrataMemory.Histories
import StrataMemory.Reindexing

set_option autoImplicit false

namespace StrataMemory.Migrations
open KeyedTables Records Tables Procedures Worlds CommitEffects Coordinator CanonicalStore
open FlowInvariants StoreRefinement WaitingQueue SettledFlows IdleFlows IdleCalls Reindexing
open Histories Resolver VectorStore Engine Gateway NodeRuns

def Shown (e : MemoryEngine) (generation : ℤ) (w : World Memory) (id : RecordId)
    (contentHash : String) : Prop :=
  ∀ name ∈ e.vectorNames, ((w.memory.store name).visible (id, generation)).map
    VectorRecord.contentHash = some contentHash

/-- Each store has an entry of the generation with the hash, soft-deleted or not. -/
def Kept (e : MemoryEngine) (generation : ℤ) (w : World Memory) (id : RecordId)
    (contentHash : String) : Prop :=
  ∀ name ∈ e.vectorNames, ((w.memory.store name).byKey.get? (id, generation)).map
    VectorRecord.contentHash = some contentHash

/-- Every live record has a live entry of the generation with its hash. -/
def Complete (e : MemoryEngine) (generation : ℤ) (w : World Memory) : Prop :=
  ∀ id r, w.db.readOne id = some r → r.status.isActive = true → w.db.isTombstoned id = false →
    Shown e generation w id r.contentHash

/-- A content that is given to the record leaves it complete: the record is not live, or the
generation is the active one, or it has an entry of the same content. -/
def Carried (e : MemoryEngine) (generation : ℤ) (w : World Memory) (id : RecordId)
    (status : Status) (contentHash : String) : Prop :=
  status.isActive = true → w.db.isTombstoned id = false →
    w.memory.activeGeneration = generation ∨ Kept e generation w id contentHash

def Present (e : MemoryEngine) (generation : ℤ) (w : World Memory) (id : RecordId)
    (status : Status) (contentHash : String) : Prop :=
  status.isActive = true → w.db.isTombstoned id = false → Shown e generation w id contentHash

def Fit (s : Strata) (generation : ℤ) (w : World Memory) : Call → Prop
  | .writeMemory content fields => Carried s.engine generation w (createdId fields w) fields.status
      (s.engine.platform.contentHash content)
  | .updateMemory recordId (some text) _ => ∀ old, w.db.readOne recordId = some old →
      Carried s.engine generation w recordId old.status (s.engine.platform.contentHash text)
  | .updateMemory recordId none (some status) => ∀ old, w.db.readOne recordId = some old →
      Present s.engine generation w recordId status old.contentHash
  | .supersedeMemory oldId content fields =>
      if Correctable w oldId (createdId fields w) then
        oldId = createdId fields w ∨ Carried s.engine generation w (createdId fields w) fields.status
          (s.engine.platform.contentHash content)
      else Present s.engine generation w (createdId fields w) fields.status
        (s.engine.platform.contentHash content)
  | _ => True

/-- The calls that a migration is interleaved with. -/
def isWriteCall : Call → Bool
  | .writeMemory .. | .updateMemory .. | .supersedeMemory .. => true
  | _ => false

section Steps
variable {e : MemoryEngine} {generation : ℤ} {w t : World Memory}

theorem shown_of {id : RecordId} {contentHash : String}
    (h : ∀ name ∈ e.vectorNames, ∃ rec : VectorRecord, (storesOf t.memory name).deleted id = false ∧
      (storesOf t.memory name).entries (id, generation) = some rec ∧ rec.contentHash = contentHash) :
    Shown e generation t id contentHash := by
  intro name hname
  obtain ⟨rec, hlive, hentry, hhash⟩ := h name hname
  have hshown : shownAt (storesOf t.memory name) (id, generation) = some rec :=
    shown_eq_some.mpr ⟨hlive, hentry⟩
  rw [← shown_storesOf, hshown, ← hhash]
  rfl

theorem Shown.entry {id : RecordId} {contentHash : String} (h : Shown e generation w id contentHash)
    {name : String} (hname : name ∈ e.vectorNames) : ∃ rec : VectorRecord,
      (storesOf w.memory name).deleted id = false ∧
        (storesOf w.memory name).entries (id, generation) = some rec ∧ rec.contentHash = contentHash := by
  obtain ⟨rec, hrec, hhash⟩ := Option.map_eq_some_iff.mp (h name hname)
  rw [← shown_storesOf, shown_eq_some] at hrec
  exact ⟨rec, hrec.1, hrec.2, hhash⟩

theorem complete_given (h : Complete e generation w) {row : MemoryRecord} {dropped : List RecordId}
    (hgiven : Given e row dropped w t) : Complete e generation t ↔
      (row.id ∉ dropped → Carried e generation w row.id row.status row.contentHash) := by
  obtain ⟨rec, hrec, hentries⟩ := hgiven.entries
  constructor
  · intro hafter hkept hactive hnot
    have hshown := hafter row.id row (hgiven.read hkept) hactive (by rw [hgiven.tombstones]; exact hnot)
    refine or_iff_not_imp_left.mpr fun hother name hname => ?_
    obtain ⟨found, _, hentry, hhash⟩ := hshown.entry hname
    rw [hentries, if_neg fun hboth => hother (congrArg Prod.snd hboth.2).symm] at hentry
    exact Option.map_eq_some_iff.mpr ⟨found, hentry, hhash⟩
  · intro hcarried id r hrow hactive hnot
    have hkept : id ∉ dropped := fun hmem => by
      rw [hgiven.dead id hmem r hrow] at hactive
      cases hactive
    rw [hgiven.tombstones] at hnot
    refine shown_of fun name hname => ?_
    rw [hgiven.deleted name id hkept, hentries]
    by_cases hsame : id = row.id
    · subst hsame
      cases (hgiven.read hkept).symm.trans hrow
      rw [if_pos ⟨hname, rfl⟩]
      rcases hcarried hkept hactive hnot with hgen | hold
      · rw [if_pos ⟨hname, Prod.ext rfl hgen.symm⟩]
        exact ⟨rec, rfl, rfl, hrec⟩
      · by_cases hgen : w.memory.activeGeneration = generation
        · rw [if_pos ⟨hname, Prod.ext rfl hgen.symm⟩]
          exact ⟨rec, rfl, rfl, hrec⟩
        · rw [if_neg fun hboth => hgen (congrArg Prod.snd hboth.2).symm]
          obtain ⟨found, hfound, hhash⟩ := Option.map_eq_some_iff.mp (hold name hname)
          exact ⟨found, rfl, hfound, hhash⟩
    · rw [if_neg fun hboth => hsame hboth.2, if_neg fun hboth => hsame (congrArg Prod.fst hboth.2)]
      rw [hgiven.others id hsame hkept] at hrow
      exact (h id r hrow hactive hnot).entry hname

theorem shown_of_stores {id : RecordId} {contentHash : String}
    (h : storesOf t.memory = storesOf w.memory) :
    Shown e generation t id contentHash ↔ Shown e generation w id contentHash := by
  unfold Shown
  simp only [← shown_storesOf, h]

theorem complete_stranded (h : Complete e generation w) {row : MemoryRecord}
    (hstranded : Stranded e row w t) : Complete e generation t ↔
      Present e generation w row.id row.status row.contentHash := by
  have hread : t.db.readOne row.id = some row := by
    rw [hstranded.rows, Function.update_self]
  constructor
  · intro hafter hactive hnot
    rw [← hstranded.tombstones] at hnot
    exact (shown_of_stores hstranded.stores).mp (hafter row.id row hread hactive hnot)
  · intro hpresent id r hrow hactive hnot
    rw [hstranded.tombstones] at hnot
    refine (shown_of_stores hstranded.stores).mpr ?_
    by_cases hsame : id = row.id
    · subst hsame
      cases hread.symm.trans hrow
      exact hpresent hactive hnot
    · rw [hstranded.rows, Function.update_of_ne hsame] at hrow
      exact h id r hrow hactive hnot

theorem complete_setStatus (h : Complete e generation w) {id : RecordId} {old : MemoryRecord}
    (hold : w.db.readOne id = some old) (status : Status) :
    Complete e generation (apply (.setStatus id status) w) ↔
      Present e generation w id status old.contentHash := by
  have hread := readOne_setStatus id status w
  constructor
  · intro hafter hactive hnot
    refine hafter id { old with status := status, updatedAt := w.now } ?_ hactive hnot
    rw [hread, Function.update_self, hold]
    rfl
  · intro hpresent other r hrow hactive hnot
    rw [hread] at hrow
    by_cases hsame : other = id
    · subst hsame
      rw [Function.update_self, hold] at hrow
      cases hrow
      exact hpresent hactive hnot
    · rw [Function.update_of_ne hsame] at hrow
      exact h other r hrow hactive hnot

end Steps

section Runs
variable {s : Strata} {generation : ℤ} {w : World Memory}

theorem isGatewayOperation_of_write {c : Call} (h : isWriteCall c = true) :
    isGatewayOperation c = true := by
  cases c <;> first | rfl | cases h

theorem complete_update (hstores : s.engine.vectorNames.length ≤ maxSteps)
    (hw : Idle s.engine w) (h : Complete s.engine generation w) (recordId : RecordId)
    (content : Option String) (status : Option Status) :
    Complete s.engine generation (after s w (.updateMemory recordId content status)) ↔
      Fit s generation w (.updateMemory recordId content status) := by
  cases hrow : w.db.readOne recordId with
  | none =>
    rw [after_update_none hrow]
    refine iff_of_true h ?_
    cases content with
    | some text => simp [Fit, hrow]
    | none => cases status <;> simp [Fit, hrow]
  | some old =>
    cases content with
    | some text =>
      obtain ⟨row, hid, hstatus, hhash, hgiven⟩ := given_update_call hstores hw hrow text status
      rw [complete_given h hgiven, hid, hstatus, hhash]
      simp only [Fit, hrow, Option.some.injEq, forall_eq']
      exact ⟨fun hcarried => hcarried List.not_mem_nil, fun hcarried _ => hcarried⟩
    | none =>
      cases status with
      | none =>
        rw [after_touch hrow]
        exact iff_of_true h trivial
      | some status =>
        rw [after_patch hrow, complete_setStatus h hrow]
        simp only [Fit, hrow, Option.some.injEq, forall_eq']

theorem complete_write (hstores : s.engine.vectorNames.length ≤ maxSteps) {c : Call}
    (hc : isWriteCall c = true) (hw : Idle s.engine w) (h : Complete s.engine generation w) :
    Complete s.engine generation (after s w c) ↔ Fit s generation w c := by
  cases c with
  | writeMemory content fields =>
    obtain ⟨row, hid, hstatus, hhash, hgiven⟩ := given_write_call hstores hw content fields
    rw [complete_given h hgiven, hid, hstatus, hhash]
    exact ⟨fun hcarried => hcarried List.not_mem_nil, fun hcarried _ => hcarried⟩
  | updateMemory recordId content status =>
    exact complete_update hstores hw h recordId content status
  | supersedeMemory oldId content fields =>
    by_cases hold : Correctable w oldId (createdId fields w)
    · obtain ⟨row, hid, hstatus, hhash, hgiven⟩ := given_supersede_call hstores hw content hold
      rw [complete_given h hgiven, hid, hstatus, hhash]
      simp only [Fit, if_pos hold, List.mem_singleton, or_iff_not_imp_left]
      exact ⟨fun hcarried hne => hcarried (Ne.symm hne), fun hcarried hne => hcarried (Ne.symm hne)⟩
    · obtain ⟨_, row, hid, hstatus, hhash, hstranded⟩ := stranded_supersede_call hw content hold
      rw [complete_stranded h hstranded, hid, hstatus, hhash]
      simp only [Fit, if_neg hold]
  | _ => cases hc

theorem complete_promote (target : ℤ) :
    Complete s.engine generation (after s w (.promoteGeneration target)) ↔
      Complete s.engine generation w :=
  Iff.rfl

theorem idle_promote (hw : Idle s.engine w) (target : ℤ) :
    Idle s.engine (after s w (.promoteGeneration target)) :=
  ⟨⟨hw.ready.waiting, hw.ready.fresh, hw.ready.faultless⟩, hw.empty⟩

theorem complete_reindexed (hw : Idle s.engine w) (embedder : Embedder) {ids : List RecordId}
    (hids : ∀ id, (w.db.readOne id).isSome = true → id ∈ ids)
    (henough : (upsertPairs s.engine w.db ids).length ≤ maxSteps) :
    let t := after s w (.reindexInto generation embedder ids)
    Idle s.engine t ∧ Complete s.engine generation t := by
  obtain ⟨hstill, hstores, hidle, _⟩ := reindexInto_drained hw embedder generation ids
  have hlength : (reindexPlan s.engine embedder generation (reindexedRows w.db ids)).length ≤
      maxSteps := by
    rw [upsertPairs_eq embedder generation, List.length_map] at henough
    exact henough
  refine ⟨hidle hlength, fun id r hrow hactive hnot => ?_⟩
  have hauthority : authority (after s w (.reindexInto generation embedder ids)) = authority w :=
    hstill.authority
  rw [readOne_of_authority hauthority] at hrow
  rw [isTombstoned_of_authority hauthority] at hnot
  rw [List.take_of_length_le hlength] at hstores
  intro name hname
  have hshown : shownAt (storesOf (after s w (.reindexInto generation embedder ids)).memory name) =
      shownAt (((reindexPlan s.engine embedder generation (reindexedRows w.db ids)).foldl put
        (storesOf w.memory)) name) := congrArg (fun stores => shownAt (stores name)) hstores
  have hreached : Reached s.engine w.db ids name id :=
    (reached_iff henough hname id).mpr ⟨hids id (by rw [hrow]; rfl), by rw [hrow]; rfl, hnot⟩
  rw [reached_iff_plan embedder generation, List.take_of_length_le hlength] at hreached
  rw [← shown_storesOf, hshown]
  have hgeneration : ∀ p ∈ reindexPlan s.engine embedder generation (reindexedRows w.db ids),
      p.2.embeddingGeneration = generation := fun p hp => generation_of_plan hp
  rcases shown_puts hgeneration (storesOf w.memory) name id with
    ⟨p, hp, _, hid, hfound⟩ | ⟨hnone, _⟩
  · obtain ⟨row, hread, hhash⟩ := row_of_plan hp
    rw [hid] at hread
    cases hread.symm.trans hrow
    rw [hfound]
    exact congrArg some hhash
  · obtain ⟨p, hp, hboth⟩ := hreached
    exact absurd hboth (hnone p hp)

def snapshot (s : Strata) (w : World Memory) (before between : List Call) (generation : ℤ)
    (embedder : Embedder) : World Memory :=
  runCalls s w (before ++ .openShadowGeneration generation embedder :: between)

theorem idle_snapshot (hstores : s.engine.vectorNames.length ≤ maxSteps) {before between : List Call}
    (hbefore : ∀ c ∈ before, isWriteCall c = true) (hbetween : ∀ c ∈ between, isWriteCall c = true)
    (generation : ℤ) (embedder : Embedder) (hw : Idle s.engine w) :
    Idle s.engine (snapshot s w before between generation embedder) := by
  have hfirst : Idle s.engine (runCalls s w before) :=
    idle_runCalls hstores (fun c hc => isGatewayOperation_of_write (hbefore c hc)) hw
  have hopened : Idle s.engine (opened s (runCalls s w before) generation embedder) :=
    idle_opened hfirst generation embedder
  have hlast : Idle s.engine
      (runCalls s (opened s (runCalls s w before) generation embedder) between) :=
    idle_runCalls hstores (fun c hc => isGatewayOperation_of_write (hbetween c hc)) hopened
  unfold snapshot runCalls
  rw [List.foldl_append]
  exact hlast

theorem complete_step (hstores : s.engine.vectorNames.length ≤ maxSteps) {c : Call}
    (hc : isWriteCall c = true ∨ c = .promoteGeneration generation)
    (hw : Idle s.engine w ∧ Complete s.engine generation w) :
    Idle s.engine (after s w c) ∧
      (Complete s.engine generation (after s w c) ↔ Fit s generation w c) := by
  rcases hc with hc | rfl
  · exact ⟨idle_call hstores (isGatewayOperation_of_write hc) hw.1, complete_write hstores hc hw.1 hw.2⟩
  · exact ⟨idle_promote hw.1 generation,
      iff_of_true ((complete_promote generation).mpr hw.2) trivial⟩

/-- In every run of writes with one migration whose rows one drain can embed: from the
reindexing on the generation stays complete if and only if every call is fit; and then it
is complete when it is promoted, and after each later call. -/
theorem migration_complete_iff (s : Strata) (hstores : s.engine.vectorNames.length ≤ maxSteps)
    {w : World Memory} (hstart : Started w) (hfaults : ∀ n, w.memory.faults n = false)
    {before between meanwhile later : List Call} (hbefore : ∀ c ∈ before, isWriteCall c = true)
    (hbetween : ∀ c ∈ between, isWriteCall c = true)
    (hmeanwhile : ∀ c ∈ meanwhile, isWriteCall c = true) (hlater : ∀ c ∈ later, isWriteCall c = true)
    (generation : ℤ) (embedder : Embedder) {ids : List RecordId}
    (hids : ∀ id, ((snapshot s w before between generation embedder).db.readOne id).isSome = true →
      id ∈ ids)
    (henough : (upsertPairs s.engine (snapshot s w before between generation embedder).db ids).length ≤
      maxSteps) :
    let t := after s (snapshot s w before between generation embedder)
      (.reindexInto generation embedder ids)
    let upToPromotion := meanwhile ++ [.promoteGeneration generation]
    let promoted := runCalls s t upToPromotion
    Complete s.engine generation t ∧
      (AfterEach (after s) (Complete s.engine generation) t (upToPromotion ++ later) ↔
        Along (after s) (Fit s generation) t (upToPromotion ++ later)) ∧
      (Along (after s) (Fit s generation) t (upToPromotion ++ later) →
        Complete s.engine generation promoted ∧
          AfterEach (after s) (Complete s.engine generation) promoted later) := by
  intro t upToPromotion promoted
  obtain ⟨hidle, hcomplete⟩ := complete_reindexed
    (idle_snapshot hstores hbefore hbetween generation embedder (idle_started hstart hfaults))
    embedder hids henough
  have hcalls : ∀ c ∈ upToPromotion ++ later, isWriteCall c = true ∨ c = .promoteGeneration generation := by
    intro c hc
    rcases List.mem_append.mp hc with hc | hc
    · rcases List.mem_append.mp hc with hc | hc
      · exact .inl (hmeanwhile c hc)
      · exact .inr (List.mem_singleton.mp hc)
    · exact .inl (hlater c hc)
  have hiff : AfterEach (after s) (Complete s.engine generation) t (upToPromotion ++ later) ↔
      Along (after s) (Fit s generation) t (upToPromotion ++ later) := by
    refine along_iff (fun u c hc hu => (complete_step hstores (hcalls c hc) hu).2)
      (fun u c hc hu hfit => ?_) ⟨hidle, hcomplete⟩
    obtain ⟨hidle', hstep⟩ := complete_step hstores (hcalls c hc) hu
    exact ⟨hidle', hstep.mpr hfit⟩
  refine ⟨hcomplete, hiff, fun hfit => ?_⟩
  obtain ⟨hfirst, hrest⟩ := along_append.mp (hiff.mpr hfit)
  exact ⟨AfterEach.last hcomplete hfirst, hrest⟩

theorem migration_complete_written :
    let t := after plainStrata
      (snapshot plainStrata plainWorld [.writeMemory "tea" {}] [] 2 plainEmbedder)
      (.reindexInto 2 plainEmbedder [1])
    AfterEach (after plainStrata) (Complete plainStrata.engine 2)
      (runCalls plainStrata t [.promoteGeneration 2]) [.writeMemory "milk" {}] := by
  intro t
  have hkeys : (snapshot plainStrata plainWorld [.writeMemory "tea" {}] [] 2
      plainEmbedder).db.canonical.records.keys = [1] := by decide
  have hfit : Along (after plainStrata) (Fit plainStrata 2) t
      ([] ++ [.promoteGeneration 2] ++ [.writeMemory "milk" {}]) :=
    ⟨trivial, fun _ _ => .inl (by decide), trivial⟩
  refine ((migration_complete_iff plainStrata (by decide) started_plainWorld (fun _ => rfl)
    (by decide) (by decide) (by decide) (by decide) 2 plainEmbedder (fun id hid => ?_)
    (by decide)).2.2 hfit).2
  rw [← hkeys]
  exact (Table.lookupIn_isSome _ _).mp hid

/-- What is written between the reindexing and the promotion is not in the new generation. -/
theorem written_meanwhile_lost :
    let calls : List Call := [.writeMemory "tea" {}, .openShadowGeneration 2 plainEmbedder,
      .reindexInto 2 plainEmbedder [1], .updateMemory 1 (some "milk") none, .writeMemory "coffee" {},
      .promoteGeneration 2]
    let w := runCalls plainStrata plainWorld calls
    AllReturned plainStrata plainWorld calls ∧ w.memory.activeGeneration = 2 ∧
      isLiveRecord w.db 1 = true ∧ isLiveRecord w.db 2 = true ∧
      ((w.memory.store "hot").visible (1, 2)).map VectorRecord.contentHash = some "tea" ∧
      (w.memory.store "hot").visible (2, 2) = none ∧ ¬ Complete plainStrata.engine 2 w := by
  refine ⟨⟨by decide, by decide, by decide, by decide, by decide, by decide, trivial⟩, by decide,
    by decide, by decide, by decide, by decide, fun h => ?_⟩
  have hshown := h 2 _ rfl rfl (by decide) "hot" (by decide)
  exact absurd hshown (by decide)

end Runs
end StrataMemory.Migrations
