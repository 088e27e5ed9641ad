import Mathlib.Algebra.Order.BigOperators.Group.List
import Mathlib.Algebra.Order.Ring.Nat
import StrataMemory.BuriedRecords
import StrataMemory.PendingRows

set_option autoImplicit false

namespace StrataMemory.QueuedUpserts
open KeyedTables Records Tables Procedures Worlds CommitEffects Coordinator CoordinatorRuns
open HandlerEffects DeletionFlows DeletionMachine DeletionInvariants VerifiedDeletions
open BuriedRecords PendingRows Engine Gateway NodeRuns

/-- A step of the coordinator, or time passing with the adapters failing as they may. -/
inductive QueueMove where
  | applyNext
  | recover
  | elapse (clock : ℕ → Time) (faults : ℕ → Bool)

def queueMove (s : Strata) (w : World Memory) : QueueMove → World Memory
  | .applyNext => after s w .applyNext
  | .recover => after s w .recover
  | .elapse clock faults => { w with clock := clock, memory := { w.memory with faults := faults } }

def runMoves (s : Strata) (w : World Memory) (moves : List QueueMove) : World Memory :=
  moves.foldl (queueMove s) w

variable {e : MemoryEngine} {ids : List RecordId} {mode : DeletionMode}

theorem drained_recover {w : World Memory} (h : Drained e ids w) :
    Drained e ids (apply .recover w) := by
  intro row hrow hlive
  obtain ⟨old, hold, _, hop, hprogress⟩ := mem_advance hrow
  rw [hop]
  refine h old hold ?_
  by_cases hs : old.progress.state = .inProgress
  · unfold OpRow.isLive
    rw [hs]
    rfl
  · rw [if_neg (by simpa using hs)] at hprogress
    unfold OpRow.isLive at hlive ⊢
    rw [← hprogress]
    exact hlive

theorem buried_move {s : Strata} {w : World Memory} (h : Buried s.engine ids mode w)
    (m : QueueMove) : Buried s.engine ids mode (queueMove s w m) := by
  cases m with
  | applyNext => exact (buried_queue s ids mode).applyNext.discard w h
  | recover => exact h.of_eq rfl rfl rfl (drained_recover h.drained)
  | elapse clock faults =>
    exact ⟨⟨h.posting, h.vector, h.artifact⟩, h.erased, h.drained⟩

theorem buried_moves {s : Strata} {w : World Memory} (h : Buried s.engine ids mode w)
    (moves : List QueueMove) : Buried s.engine ids mode (runMoves s w moves) := by
  induction moves generalizing w with
  | nil => exact h
  | cons m moves ih => exact ih (buried_move h m)

section Application
variable {V : Type}

/-- The commit that closes an application of `row`: it settles the row, or defers it
for one more attempt. -/
inductive Closes (c : WriteCoordinator V) (row : OpRow) : Commit V → Prop where
  | finish (acks : Acks) : Closes c row (.finish row.seq acks .done)
  | fail (attempts : ℕ) (reason : String) : Closes c row (.failOp row.seq attempts reason)
  | defer (backoff : Time) (reason : String) (left : row.progress.attempts + 1 < c.maxAttempts) :
      Closes c row (.deferOp row.seq (row.progress.attempts + 1) backoff reason)

theorem recordAcks_keeps (op : Operation) (acks : Acks) (w : World V) :
    ((recordAcks op acks).final w).db.opLog = w.db.opLog ∧
      ((recordAcks op acks).final w).memory = w.memory := by
  have huses : (recordAcks op acks : Prog V Unit).Uses
      fun c => ∃ id name opId b, c = .recordIndexAck id name opId b :=
    Proc.Uses.forM _ _ fun id _ => (uses_commit _ _).mpr ⟨id, _, _, _, rfl⟩
  refine huses.run (R := fun v u => u.db.opLog = v.db.opLog ∧ u.memory = v.memory)
    (fun _ => ⟨rfl, rfl⟩) ?_ ?_ w
  · rintro v u t ⟨hlog, hmemory⟩ ⟨hlog', hmemory'⟩
    exact ⟨hlog'.trans hlog, hmemory'.trans hmemory⟩
  · rintro _ v ⟨id, name, opId, b, rfl⟩
    exact ⟨rfl, rfl⟩

theorem failOrRetry_closes (c : WriteCoordinator V) (row : OpRow) (reason : String) :
    ∃ b, failOrRetry c row reason = commit b ∧ Closes c row b := by
  unfold failOrRetry
  dsimp only
  split
  · exact ⟨_, rfl, .fail _ _⟩
  · rename_i h
    exact ⟨_, rfl, .defer _ _ (Nat.lt_of_not_le h)⟩

def handled (c : WriteCoordinator V) (op : Operation) (v : V) : V :=
  match op.target.bind c.handlers with
  | none => v
  | some handler => (handler op v).2

theorem callHandler_run (c : WriteCoordinator V) (op : Operation) (w : World V) :
    ∃ result u, (callHandler c op).run w = (.ok result, u) ∧ u.db.opLog = w.db.opLog ∧
      u.memory = handled c op w.memory := by
  unfold callHandler handled
  cases op.target.bind c.handlers with
  | none => exact ⟨_, w, rfl, rfl, rfl⟩
  | some handler => exact ⟨_, _, rfl, rfl, rfl⟩

theorem runOp_closes (c : WriteCoordinator V) (row : OpRow) (w : World V) :
    ∃ b u, (runOp c row).final w = apply b u ∧ Closes c row b ∧ u.db.opLog = w.db.opLog ∧
      u.memory = handled c row.operation w.memory := by
  obtain ⟨result, v, hcall, hlog, hmemory⟩ := callHandler_run c row.operation w
  have hacked : ∀ (acks : Acks) (next : Prog V Unit) (b : Commit V), next = commit b →
      Closes c row b → ∃ b u, (recordAcks row.operation acks >>= fun _ => next).final v =
        apply b u ∧ Closes c row b ∧ u.db.opLog = w.db.opLog ∧
          u.memory = handled c row.operation w.memory := by
    rintro acks _ b rfl hb
    have hreturns : (recordAcks row.operation acks : Prog V Unit).Returns :=
      Proc.Returns.forM _ _ fun _ _ => returns_commit _
    obtain ⟨_, hrun⟩ := hreturns.run v
    obtain ⟨hlog', hmemory'⟩ := recordAcks_keeps row.operation acks v
    refine ⟨b, (recordAcks row.operation acks).final v, ?_, hb, hlog'.trans hlog,
      hmemory'.trans hmemory⟩
    rw [Proc.final_bind_ok hrun]
    rfl
  have hfail : ∀ acks reason, ∃ b u, (recordAcks row.operation acks >>= fun _ =>
      failOrRetry c row reason).final v = apply b u ∧ Closes c row b ∧
        u.db.opLog = w.db.opLog ∧ u.memory = handled c row.operation w.memory := by
    intro acks reason
    obtain ⟨b, hb, hcloses⟩ := failOrRetry_closes c row reason
    exact hacked acks _ b hb hcloses
  unfold runOp
  dsimp only
  rw [Proc.final_bind_ok hcall]
  cases result with
  | error reason => exact hfail _ reason
  | ok acks =>
    dsimp only
    by_cases hall : (row.operation.targetIds.all fun rid => acks.get rid) = true
    · rw [if_pos hall]
      exact hacked acks _ _ rfl (.finish acks)
    · rw [if_neg hall]
      exact hfail acks _

/-- What an application does to the log: only its row changes, and if that stays in the
queue it has one attempt fewer. -/
structure Spends (c : WriteCoordinator V) (row : OpRow) (old new : List OpRow) : Prop where
  advanced : ∃ f : Progress → Progress,
    new = old.map (fun r => if r.seq = row.seq then { r with progress := f r.progress } else r) ∧
    ∀ p, (f p).state.isLive = true →
      (f p).attempts = row.progress.attempts + 1 ∧ row.progress.attempts + 1 < c.maxAttempts

theorem Closes.spends {c : WriteCoordinator V} {row : OpRow} {b : Commit V} (hb : Closes c row b)
    {w u : World V} (hlog : u.db.opLog = (apply (.setOpState row.seq .inProgress) w).db.opLog) :
    Spends c row w.db.opLog.rows (apply b u).db.opLog.rows ∧ (apply b u).memory = u.memory := by
  have hadvanced : ∀ f : Progress → Progress, (∀ p, (f p).state.isLive = true →
      (f p).attempts = row.progress.attempts + 1 ∧ row.progress.attempts + 1 < c.maxAttempts) →
      Spends c row w.db.opLog.rows (u.db.opLog.advance (fun r => r.seq = row.seq) f).rows := by
    intro f hf
    refine ⟨fun p => f { p with state := .inProgress, updatedAt := w.now }, ?_, fun _ => hf _⟩
    rw [hlog]
    change (w.db.opLog.rows.map _).map _ = _
    rw [List.map_map]
    refine List.map_congr_left fun r _ => ?_
    by_cases hseq : r.seq = row.seq
    · simp [hseq]
    · simp [hseq]
  cases hb with
  | finish acks =>
    refine ⟨hadvanced _ fun _ h => ?_, rfl⟩
    cases h
  | fail attempts reason =>
    refine ⟨hadvanced _ fun _ h => ?_, rfl⟩
    cases h
  | defer backoff reason left => exact ⟨hadvanced _ fun _ _ => ⟨rfl, left⟩, rfl⟩

theorem applyNext_selected (c : WriteCoordinator V) {w : World V} {row : OpRow}
    (h : selectEligible w.db.opLog w.now = some row) :
    Spends c row w.db.opLog.rows ((applyNext c).final w).db.opLog.rows ∧
      ((applyNext c).final w).memory = handled c row.operation w.memory := by
  let v := apply (.setOpState row.seq .inProgress) (apply .readClock w)
  have hfinal : (applyNext c).final w = (runOp c row).final v := by
    obtain ⟨_, hrun⟩ := (runOp_returns c row).run v
    unfold applyNext
    rw [Proc.final_bind_ok (run_commit _ _), Proc.final_bind_ok (run_nowMs _),
      Proc.final_bind_ok (run_query _ _)]
    change Proc.final (applySelected c (selectEligible w.db.opLog w.now) >>= fun _ => _) _ = _
    rw [h]
    exact Proc.final_bind_ok ((Proc.run_bind_ok (run_commit _ _)).trans (Proc.run_bind_ok hrun))
  obtain ⟨b, u, hb, hcloses, hlog, hmemory⟩ := runOp_closes c row v
  obtain ⟨hspends, hkeeps⟩ := hcloses.spends (w := apply .readClock w) hlog
  rw [hfinal, hb]
  exact ⟨hspends, hkeeps.trans hmemory⟩

end Application

section Progress
variable {V : Type}

def weight (c : WriteCoordinator V) (r : OpRow) : ℕ :=
  if r.isLive then c.maxAttempts - r.progress.attempts + 1 else 0

def attemptsLeft (c : WriteCoordinator V) (rows : List OpRow) : ℕ := (rows.map (weight c)).sum

theorem Spends.weight_lt {c : WriteCoordinator V} {row : OpRow} {log : OpLog} {new : List OpRow}
    (h : Spends c row log.rows new) (hrow : row ∈ log.rows) (hlive : row.isLive = true) :
    attemptsLeft c new < attemptsLeft c log.rows := by
  obtain ⟨f, rfl, hf⟩ := h.advanced
  have hspent : weight c { row with progress := f row.progress } < weight c row := by
    unfold weight
    rw [if_pos hlive]
    split
    · rename_i hstill
      obtain ⟨hattempts, hleft⟩ := hf _ hstill
      dsimp only
      omega
    · omega
  have heq : ∀ r ∈ log.rows, r.seq = row.seq → r = row := fun r hr => seq_unique hrow hr
  unfold attemptsLeft
  rw [List.map_map]
  refine List.sum_lt_sum _ _ (fun r hr => ?_) ⟨row, hrow, ?_⟩
  · dsimp only [Function.comp]
    split
    · rename_i hseq
      rw [heq r hr hseq]
      exact hspent.le
    · exact le_rfl
  · dsimp only [Function.comp]
    rw [if_pos rfl]
    exact hspent

theorem exists_ready (rows : List OpRow) : ∃ now, ∀ row ∈ rows, ready now row = true := by
  induction rows with
  | nil => exact ⟨0, fun _ h => absurd h List.not_mem_nil⟩
  | cons row rows ih =>
    obtain ⟨now, hnow⟩ := ih
    refine ⟨max now (row.progress.nextAttemptAt.getD 0), fun r hr => ?_⟩
    rcases List.mem_cons.mp hr with rfl | hr
    · unfold ready
      cases r.progress.nextAttemptAt with
      | none => rfl
      | some t => exact decide_eq_true (le_max_right _ _)
    · have hready := hnow r hr
      unfold ready at hready ⊢
      cases hat : r.progress.nextAttemptAt with
      | none => rfl
      | some t =>
        rw [hat] at hready
        exact decide_eq_true ((of_decide_eq_true hready).trans (le_max_left _ _))

theorem runnable_recover {w : World V} {row : OpRow}
    (hrow : row ∈ (apply (.recover : Commit V) w).db.opLog.rows) (hlive : row.isLive = true) :
    runnable row = true := by
  obtain ⟨old, _, _, _, hprogress⟩ := mem_advance hrow
  by_cases hs : old.progress.state = .inProgress
  · rw [if_pos (by simpa using hs)] at hprogress
    unfold runnable
    rw [hprogress]
    rfl
  · rw [if_neg (by simpa using hs)] at hprogress
    unfold OpRow.isLive OpState.isLive at hlive
    unfold runnable
    rw [hprogress] at hlive ⊢
    cases hstate : old.progress.state <;> rw [hstate] at hlive hs
    all_goals first | rfl | exact absurd rfl hs | cases hlive

theorem attemptsLeft_recover (c : WriteCoordinator V) (w : World V) :
    attemptsLeft c (apply (.recover : Commit V) w).db.opLog.rows =
      attemptsLeft c w.db.opLog.rows := by
  unfold attemptsLeft
  change ((w.db.opLog.rows.map _).map _).sum = _
  rw [List.map_map]
  refine congrArg List.sum (List.map_congr_left fun r _ => ?_)
  dsimp only [Function.comp]
  by_cases hs : r.progress.state = .inProgress
  · unfold weight OpRow.isLive
    simp [hs, OpState.isLive]
  · simp [hs]

end Progress

def Queued (op : Operation) (w : World Memory) : Prop :=
  ∃ row ∈ w.db.opLog.rows, row.isLive = true ∧ row.operation = op

theorem queued_recover {op : Operation} {w : World Memory} (h : Queued op w) :
    Queued op (apply .recover w) := by
  obtain ⟨row, hrow, hlive, rfl⟩ := h
  refine ⟨_, List.mem_map_of_mem hrow, ?_, ?_⟩
  · split
    · rfl
    · exact hlive
  · split <;> rfl

theorem head_applied (s : Strata) {op : Operation} {w : World Memory} (h : Queued op w) :
    ∃ (moves : List QueueMove) (row : OpRow) (m : Memory), m.faults = (fun _ => false) ∧
      (runMoves s w moves).memory = handled s.engine.coordinator row.operation m ∧
      attemptsLeft s.engine.coordinator (runMoves s w moves).db.opLog.rows <
        attemptsLeft s.engine.coordinator w.db.opLog.rows ∧
      (row.operation = op ∨ Queued op (runMoves s w moves)) := by
  have hqueued := queued_recover h
  let v := apply (.recover : Commit Memory) w
  obtain ⟨now, hnow⟩ := exists_ready v.db.opLog.rows
  let u : World Memory :=
    { v with clock := fun _ => now, memory := { v.memory with faults := fun _ => false } }
  obtain ⟨target, htarget, hlive, hop⟩ := hqueued
  have hmem : target ∈ notDone v.db.opLog := List.mem_filter.mpr ⟨htarget, hlive⟩
  cases hhead : notDone v.db.opLog with
  | nil =>
    rw [hhead] at hmem
    cases hmem
  | cons row rest =>
    obtain ⟨hrow, hrowLive⟩ := List.mem_filter.mp (hhead ▸ List.mem_cons_self : row ∈ notDone v.db.opLog)
    have hselect : selectEligible u.db.opLog u.now = some row :=
      selectEligible_head hhead (runnable_recover hrow hrowLive) (hnow row hrow)
    obtain ⟨hspends, hmemory⟩ := applyNext_selected s.engine.coordinator hselect
    have hfinal : runMoves s w [.recover, .elapse (fun _ => now) fun _ => false, .applyNext] =
        (applyNext s.engine.coordinator).final u := Proc.final_discard _ u
    refine ⟨_, row, u.memory, rfl, by rw [hfinal, hmemory], ?_, ?_⟩
    · rw [hfinal, ← attemptsLeft_recover s.engine.coordinator w]
      exact hspends.weight_lt hrow hrowLive
    · rw [hfinal]
      by_cases hseq : target.seq = row.seq
      · exact .inl (seq_unique hrow htarget hseq ▸ hop)
      · obtain ⟨f, hrows, _⟩ := hspends.advanced
        refine .inr ⟨target, ?_, hlive, hop⟩
        rw [hrows]
        exact List.mem_map.mpr ⟨target, htarget, if_neg hseq⟩

/-- Once its adapter answers, an upsert in the queue reaches its store. -/
theorem upsert_applied (s : Strata) {op : Operation} (hop : upsertsInto s.engine op)
    {rec : VectorRecord} (hrec : rec ∈ op.records) (w : World Memory) (h : Queued op w) :
    ∃ moves, ∃ name ∈ s.engine.vectorNames,
      Memory.vectorContains name (runMoves s w moves).memory rec.id = true := by
  induction hn : attemptsLeft s.engine.coordinator w.db.opLog.rows using Nat.strong_induction_on
    generalizing w with
  | _ n ih =>
    obtain ⟨moves, row, m, hfaults, hmemory, hlt, happlied | hqueued⟩ := head_applied s h
    · obtain ⟨htype, name, hname, htarget⟩ := hop
      have hhandled : handled s.engine.coordinator row.operation m = (makeHandler name op m).2 := by
        have hhandler : s.engine.coordinator.handlers name = some (makeHandler name) :=
          if_pos hname
        unfold handled
        rw [happlied, htarget, Option.bind_some, hhandler]
      refine ⟨moves, name, hname, ?_⟩
      rw [hmemory, hhandled, vectorContains_makeHandler, hfaults, if_pos ⟨rfl, rfl⟩]
      unfold presentAfter
      rw [htype]
      dsimp only
      rw [Bool.or_eq_true]
      exact .inl (List.any_eq_true.mpr ⟨rec, hrec, decide_eq_true rfl⟩)
    · obtain ⟨more, name, hname, hcontains⟩ := ih _ (hn ▸ hlt) _ hqueued rfl
      refine ⟨moves ++ more, name, hname, ?_⟩
      unfold runMoves at hcontains ⊢
      rw [List.foldl_append]
      exact hcontains

/-- After a job that ended `VERIFIED`, the steps of the queue leave its ids out of every
vector store, whatever the schedule, exactly when no upsert of one of them is queued. -/
theorem unindexed_by_queue_iff (s : Strata) {w u : World Memory} {ids : List RecordId}
    {mode : DeletionMode} (hdeletion : Deletion s w ids mode u)
    (hverified : EndsIn ids .verified u) :
    (∀ moves, ∀ name ∈ s.engine.vectorNames, ∀ id ∈ ids,
      Memory.vectorContains name (runMoves s u moves).memory id = false) ↔
      Drained s.engine ids u := by
  constructor
  · intro hall row hrow hlive hop rec hrec hid
    obtain ⟨moves, name, hname, hcontains⟩ :=
      upsert_applied s hop hrec u ⟨row, hrow, hlive, rfl⟩
    rw [hall moves name hname rec.id hid] at hcontains
    cases hcontains
  · intro hdrained moves name hname id hid
    exact (buried_moves (buried_of_deletion hdeletion hverified hdrained) moves).vector id hid
      name hname

theorem unindexed_after_erasure :
    let w := runCalls plainStrata plainWorld [.writeMemory "tea" {}]
    let u := (requestDeletion plainStrata.engine.deletion 1 .hard true).final w
    ∀ moves, ∀ name ∈ plainStrata.engine.vectorNames, ∀ id ∈ covered w.db 1 true,
      Memory.vectorContains name (runMoves plainStrata u moves).memory id = false :=
  (unindexed_by_queue_iff plainStrata (.request 1 .hard true) (by decide)).mpr (by decide)

/-- The adapter refuses the upsert of a new record, which waits for its next attempt.
The record is erased in the meantime, verified, and then the upsert is applied. -/
theorem verified_deletion_undone_by_queue :
    let host := { plainWorld with memory := { plainWorld.memory with faults := fun n => n = 0 } }
    let w := runCalls plainStrata host [.writeMemory "tea" {}]
    let u := (requestDeletion plainStrata.engine.deletion 1 .hard true).final w
    let v := runMoves plainStrata u [.elapse (fun _ => 100) fun _ => false, .applyNext]
    Reachable plainStrata w ∧ covered w.db 1 true = [1] ∧ EndsIn [1] .verified u ∧
      Memory.vectorContains "hot" v.memory 1 = true ∧ v.db.readOne 1 = none :=
  ⟨⟨_, [.writeMemory "tea" {}], ⟨rfl, rfl, rfl, rfl⟩, rfl⟩, by decide⟩

end StrataMemory.QueuedUpserts
