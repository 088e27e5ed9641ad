import StrataMemory.Interleavings
import StrataMemory.QueueRuns
import StrataMemory.SharedViews

set_option autoImplicit false

/-!
# The writer thread and its wake-up event

One thread drains the op log and sleeps on an event when there is nothing to apply.
Callers queue or retry an operation, or ask the thread to stop, and set the event only
afterwards. The thread may find nothing, miss the commit, and then clear the event.
-/
namespace StrataMemory.WriterWorker
open KeyedTables Records Tables Procedures Worlds Coordinator Interleavings

/-- `signals` counts the callers between their change and `_wake.set()`; `scanned` is the
clock reading of the thread's latest `apply_next`. -/
structure Desk (V : Type) where
  world : World V
  wake : Bool
  stop : Bool
  signals : ℕ
  scanned : Time

inductive Party where
  | thread | caller
  deriving DecidableEq

inductive Act (V : Type) where
  | issue (c : Commit V)
  | clearWake
  -- of callers
  | enqueue (op : Operation)
  | retry (opId : OpId)
  | setStop
  | setWake

section Acts
variable {V : Type}

def act : Act V → Desk V → Desk V
  | .issue .readClock, d => { d with world := apply .readClock d.world, scanned := d.world.now }
  | .issue c, d => { d with world := apply c d.world }
  | .clearWake, d => { d with wake := false }
  | .enqueue op, d => { d with world := apply (.enqueue op) d.world, signals := d.signals + 1 }
  | .retry opId, d => { d with world := apply (.retryOp opId) d.world, signals := d.signals + 1 }
  | .setStop, d => { d with stop := true, signals := d.signals + 1 }
  | .setWake, d =>
    if d.signals = 0 then d else { d with wake := true, signals := d.signals - 1 }

instance : Commands (Desk V) (Act V) := ⟨act⟩

/-- The write lock is left to the one thread that takes it. -/
instance : Locks (Act V) := ⟨fun _ => false, fun _ => false⟩

abbrev Scene (V : Type) := Moment Party (Desk V) (Act V)

inductive Calls : Act V → Prop where
  | enqueue (op : Operation) : Calls (.enqueue op)
  | retry (opId : OpId) : Calls (.retry opId)
  | setStop : Calls .setStop
  | setWake : Calls .setWake

/-- Callers do not apply operations, and do not clear the event. -/
def May : Party → Scene V → Act V → Prop
  | .thread, _, _ => True
  | .caller, _, a => Calls a

end Acts

section Thread
variable {V : Type}

/-- Where the thread is in `_loop`. -/
inductive Place (V : Type) where
  /-- `while not self._stop.is_set()` -/
  | checking
  /-- inside `run_until_idle` -/
  | draining (left : Proc (Desk V) (Act V) PyError ℕ)
  /-- `wake.wait(timeout=self.idle_wait_s)` -/
  | waiting
  /-- `wake.clear()` -/
  | clearing
  | ended

structure Node (V : Type) where
  scene : Scene V
  place : Place V

/-- `run_until_idle`, on the desk. -/
def draining (c : WriteCoordinator V) : Proc (Desk V) (Act V) PyError ℕ :=
  within Desk.world Act.issue (runUntilIdle c)

/-- One statement of the thread. -/
def threadStep (c : WriteCoordinator V) (n : Node V) : Node V :=
  match n.place with
  | .checking => { n with place := if n.scene.state.stop then .ended else .draining (draining c) }
  | .draining (.done applied) => { n with place := if applied = 0 then .waiting else .checking }
  | .draining (.fail _) => { n with place := .ended }
  | .draining (.observe next) => { n with place := .draining (next n.scene.state) }
  | .draining (.step a next) => ⟨n.scene.commit .thread a, .draining (next n.scene.state)⟩
  | .waiting => if n.scene.state.wake then { n with place := .clearing } else n
  | .clearing => ⟨n.scene.commit .thread .clearWake, .checking⟩
  | .ended => n

inductive Move where
  | thread
  /-- The wait runs into its timeout. -/
  | timeout
  | enqueue (op : Operation)
  | retry (opId : OpId)
  | setStop
  | setWake

def step (c : WriteCoordinator V) (n : Node V) : Move → Node V
  | .thread => threadStep c n
  | .timeout =>
    match n.place with
    | .waiting => { n with place := .clearing }
    | _ => n
  | .enqueue op => { n with scene := n.scene.commit .caller (.enqueue op) }
  | .retry opId => { n with scene := n.scene.commit .caller (.retry opId) }
  | .setStop => { n with scene := n.scene.commit .caller .setStop }
  | .setWake => { n with scene := n.scene.commit .caller .setWake }

def run (c : WriteCoordinator V) (moves : List Move) (n : Node V) : Node V := moves.foldl (step c) n

end Thread

section Established
variable {V : Type}

/-- Somebody has set, or is about to set, the event. -/
def Called (m : Scene V) : Prop := m.state.wake = true ∨ 0 < m.state.signals

/-- Unless somebody calls, the latest scan found all there is. -/
def Settled (m : Scene V) : Prop :=
  Called m ∨ selectEligible m.state.world.db.opLog m.state.scanned = none

/-- A thread that has to stop is called. -/
def Heard (m : Scene V) : Prop := m.state.stop = true → Called m

theorem commit_state (m : Scene V) (j : Party) (a : Act V) :
    (m.commit j a).state = act a m.state := rfl

theorem called_of_caller {m : Scene V} {a : Act V} (ha : Calls a)
    (hm : Called m) : Called (m.commit .caller a) := by
  unfold Called at *
  rw [commit_state]
  cases ha with
  | enqueue op => exact .inr (Nat.succ_pos _)
  | retry opId => exact .inr (Nat.succ_pos _)
  | setStop => exact .inr (Nat.succ_pos _)
  | setWake =>
    simp only [act]
    split
    · exact hm
    · exact .inl rfl

theorem settled_of_caller {m : Scene V} {a : Act V} (ha : Calls a)
    (hm : Settled m) : Settled (m.commit .caller a) := by
  rcases hm with hcalled | hidle
  · exact .inl (called_of_caller ha hcalled)
  · cases ha with
    | enqueue op => exact .inl (.inr (Nat.succ_pos _))
    | retry opId => exact .inl (.inr (Nat.succ_pos _))
    | setStop => exact .inl (.inr (Nat.succ_pos _))
    | setWake =>
      unfold Settled Called
      rw [commit_state]
      simp only [act]
      split
      · exact .inr hidle
      · exact .inl (.inl rfl)

theorem heard_of_caller {m : Scene V} {a : Act V} (ha : Calls a) (hm : Heard m) :
    Heard (m.commit .caller a) := by
  intro hstop
  cases ha with
  | enqueue op => exact .inr (Nat.succ_pos _)
  | retry opId => exact .inr (Nat.succ_pos _)
  | setStop => exact .inr (Nat.succ_pos _)
  | setWake =>
    refine called_of_caller .setWake (hm ?_)
    rw [commit_state] at hstop
    simp only [act] at hstop
    split at hstop <;> exact hstop

theorem stable_of_caller {P : Scene V → Prop}
    (hP : ∀ m a, Calls a → P m → P (m.commit .caller a)) : Stable May .thread P := by
  intro m j a hj _ ha hm
  cases j with
  | thread => exact absurd rfl hj
  | caller => exact hP m a ha hm

abbrev Contract (P : Scene V → Prop) {α : Type} (p : Prog V α) (Q : α → Scene V → Prop) : Prop :=
  Outline May .thread (fun _ => True) P (within Desk.world Act.issue p) Q

theorem Contract.bind {α β : Type} {P : Scene V → Prop} {p : Prog V α} {f : α → Prog V β}
    {M : α → Scene V → Prop} {R : β → Scene V → Prop} (hp : Contract P p M)
    (hf : ∀ a, Contract (M a) (f a) R) : Contract P (p >>= f) R := by
  unfold Contract
  rw [within_bind]
  exact Outline.bind hp hf

theorem Contract.of_yields {α : Type} {Q : α → Prop} {p : Prog V α} (hp : p.Yields Q) :
    Contract (fun _ => True) p fun a _ => Q a :=
  Outline.of_yields (fun _ _ => trivial) (yields_within _ _ hp)

theorem stable_scanned (now : Time) :
    Stable May .thread fun m : Scene V => m.state.scanned = now := by
  refine stable_of_caller fun m a ha hm => ?_
  cases ha with
  | enqueue op | retry opId | setStop => exact hm
  | setWake =>
    rw [commit_state]
    simp only [act]
    split <;> exact hm

theorem stable_found {α : Type} (found : Option α) :
    Stable May .thread fun m : Scene V => found = none → Settled m :=
  stable_of_caller fun _ _ ha hm h => settled_of_caller ha (hm h)

theorem applySelected_settled (c : WriteCoordinator V) (selected : Option OpRow) :
    Contract (fun m => selected = none → Settled m) (applySelected c selected)
      fun applied m => applied = none → Settled m := by
  cases selected with
  | none => exact Outline.pure (stable_found none) fun _ hm _ => hm rfl
  | some row =>
    have hyields : (applySelected c (some row)).Yields fun applied => applied ≠ none :=
      Proc.Yields.second _ fun _ => Proc.Yields.second _ fun _ => Option.some_ne_none _
    exact (Contract.of_yields hyields).weaken (fun _ _ => trivial) |>.mono
      fun _ _ hsome hnone => absurd hnone hsome

theorem applyNext_settled (c : WriteCoordinator V) :
    Contract (fun _ => True) (applyNext c) fun applied m => applied = none → Settled m := by
  refine Contract.bind (M := fun _ _ => True)
    (Contract.of_yields (Proc.Yields.of_forall (fun _ => trivial) _)) fun _ => ?_
  refine Contract.bind (M := fun now m => m.state.scanned = now) ?_ fun now => ?_
  · exact Outline.performing (fun _ _ _ _ _ _ _ => trivial) (fun _ _ _ => ⟨trivial, rfl⟩)
      stable_scanned
  refine Contract.bind (M := fun selected m => selected = none → Settled m) ?_ fun selected => ?_
  · refine Outline.read (stable_scanned now) (fun m hm hnone => .inr ?_) stable_found
    rw [hm]
    exact hnone
  refine Contract.bind (applySelected_settled c selected) fun applied => ?_
  refine Contract.bind (M := fun _ m => applied = none → Settled m) ?_ fun _ =>
    Outline.pure (stable_found applied) fun _ hm => hm
  exact Outline.perform (stable_found applied) (fun _ hm _ => ⟨trivial, hm⟩) (stable_found applied)

/-- When a drain applies nothing, the thread has seen all there is. -/
theorem drain_settled (c : WriteCoordinator V) (steps : ℕ) :
    Contract (fun _ => True) (drain c (steps + 1)) fun applied m => applied = 0 → Settled m := by
  refine Contract.bind (applyNext_settled c) fun applied => ?_
  cases applied with
  | none =>
    exact Outline.pure (stable_of_caller fun _ _ ha hm h => settled_of_caller ha (hm h))
      fun _ hm _ => hm rfl
  | some opId =>
    have hyields : (drain c steps >>= fun applied => pure (applied + 1) : Prog V ℕ).Yields
        fun applied => applied ≠ 0 := Proc.Yields.second _ fun _ => Nat.succ_ne_zero _
    exact ((Contract.of_yields hyields).weaken fun _ _ => trivial).mono
      fun _ _ hpos hzero => absurd hzero hpos

end Established

section Sleep
variable {V : Type}

def Outcome (r : Except PyError ℕ) (m : Scene V) : Prop :=
  r.casesOn (fun _ => True) fun applied => applied = 0 → Settled m

structure Drains (left : Proc (Desk V) (Act V) PyError ℕ) (m : Scene V) : Prop where
  heard : Heard m
  commits : left.Uses fun a => ∃ c, a = .issue c
  contract : Meets May .thread Outcome left m

def Sound (n : Node V) : Prop :=
  match n.place with
  | .draining left => Drains left n.scene
  | .waiting => Heard n.scene ∧ Settled n.scene
  | .checking | .clearing | .ended => True

theorem heard_issue {m : Scene V} (c : Commit V) (hm : Heard m) :
    Heard (m.commit .thread (.issue c)) := by
  unfold Heard Called at *
  rw [commit_state]
  cases c <;> exact hm

theorem drains_start (c : WriteCoordinator V) {m : Scene V} (hm : Heard m) :
    Drains (draining c) m where
  heard := hm
  commits := uses_within _ _ (fun k => ⟨k, rfl⟩) _
  contract := drain_settled c 9999 m trivial

theorem sound_caller {n : Node V} (hn : Sound n) {a : Act V} (ha : Calls a) :
    Sound ⟨n.scene.commit .caller a, n.place⟩ := by
  obtain ⟨scene, place⟩ := n
  cases place with
  | draining left =>
    exact ⟨heard_of_caller ha hn.heard, hn.commits,
      hn.contract.rely (.single (.commit (by decide) rfl ha))⟩
  | waiting => exact ⟨heard_of_caller ha hn.1, settled_of_caller ha hn.2⟩
  | checking | clearing | ended => trivial

theorem sound_thread (c : WriteCoordinator V) {n : Node V} (hn : Sound n) :
    Sound (threadStep c n) := by
  obtain ⟨scene, place⟩ := n
  cases place with
  | checking =>
    unfold threadStep
    dsimp only
    split
    · trivial
    · rename_i hstop
      exact drains_start c fun h => absurd h hstop
  | draining left =>
    obtain ⟨heard, commits, contract⟩ := hn
    cases left with
    | done applied =>
      have hsettled := contract.result rfl
      unfold threadStep
      dsimp only
      split
      · rename_i hzero
        exact ⟨heard, hsettled hzero⟩
      · trivial
    | fail e => trivial
    | observe next => exact ⟨heard, commits _, (contract.moved (.observe next)).1⟩
    | step a next =>
      obtain ⟨⟨k, rfl⟩, commits⟩ := commits
      exact ⟨heard_issue k heard, commits _, (contract.moved (.issue next rfl)).1⟩
  | waiting =>
    unfold threadStep
    dsimp only
    split
    · trivial
    · exact hn
  | clearing | ended => trivial

theorem sound_step (c : WriteCoordinator V) {n : Node V} (hn : Sound n) (m : Move) :
    Sound (step c n m) := by
  cases m with
  | thread => exact sound_thread c hn
  | timeout =>
    obtain ⟨scene, place⟩ := n
    cases place with
    | waiting => trivial
    | draining left => exact hn
    | checking | clearing | ended => trivial
  | enqueue op => exact sound_caller hn (.enqueue op)
  | retry opId => exact sound_caller hn (.retry opId)
  | setStop => exact sound_caller hn .setStop
  | setWake => exact sound_caller hn .setWake

theorem sound_run (c : WriteCoordinator V) (moves : List Move) {n : Node V} (hn : Sound n) :
    Sound (run c moves n) := by
  induction moves generalizing n with
  | nil => exact hn
  | cons m moves ih => exact ih (sound_step c hn m)

/-- The thread never sleeps on work: when it waits, the event is clear and no caller is about
to set it, nothing that was eligible when it last looked has been left or has been added, and
it has not been asked to stop. -/
theorem no_lost_wakeup (c : WriteCoordinator V) (started : Node V)
    (hstarted : started.place = .checking) (moves : List Move)
    (hwaiting : (run c moves started).place = .waiting)
    (hclear : (run c moves started).scene.state.wake = false)
    (hsignals : (run c moves started).scene.state.signals = 0) :
    let desk := (run c moves started).scene.state
    selectEligible desk.world.db.opLog desk.scanned = none ∧ desk.stop = false := by
  intro desk
  have hsound : Sound (run c moves started) :=
    sound_run c moves (by unfold Sound; rw [hstarted]; trivial)
  unfold Sound at hsound
  rw [hwaiting] at hsound
  have huncalled : ¬ Called (run c moves started).scene := by
    rintro (hwake | hpos)
    · rw [hclear] at hwake
      cases hwake
    · omega
  refine ⟨hsound.2.resolve_left huncalled, ?_⟩
  by_contra hstop
  exact huncalled (hsound.1 (by simpa using hstop))

end Sleep

/-- The thread of an index that is down has been started on an empty log; no time passes. -/
def newThread : Node ℕ :=
  ⟨⟨⟨{ QueueRuns.newQueue with clock := fun _ => 0 }, false, false, 0, 0⟩, none, []⟩, .checking⟩

/-- An upsert is queued when the thread has looked at the empty log; it then fails once. -/
def upsertMissed : List Move :=
  List.replicate 4 .thread ++ [.enqueue (QueueRuns.upsertOf 1 7)] ++ List.replicate 3 .thread ++
    [.setWake] ++ List.replicate 23 .thread

theorem no_lost_wakeup_backoff :
    let desk := (run QueueRuns.downAtFirst upsertMissed newThread).scene.state
    desk.world.memory = 1 ∧ selectEligible desk.world.db.opLog desk.scanned = none := by
  refine ⟨by decide +kernel, ?_⟩
  exact (no_lost_wakeup QueueRuns.downAtFirst newThread rfl upsertMissed rfl (by decide +kernel)
    (by decide +kernel)).1

section Answers
variable {V : Type} {c : WriteCoordinator V}

/-- A run without end, in which the thread is scheduled again and again, and every caller
gets to set the event. No timeout is needed. -/
structure Endless (c : WriteCoordinator V) (nodes : ℕ → Node V) (moves : ℕ → Move) : Prop where
  started : (nodes 0).place = .checking
  next : ∀ k, nodes (k + 1) = step c (nodes k) (moves k)
  thread : ∀ k, ∃ j, k ≤ j ∧ moves j = .thread
  callers : ∀ k, ∃ j, k ≤ j ∧ moves j = .setWake

variable {nodes : ℕ → Node V} {moves : ℕ → Move}

theorem Endless.sound (h : Endless c nodes moves) (k : ℕ) : Sound (nodes k) := by
  induction k with
  | zero =>
    unfold Sound
    rw [h.started]
    trivial
  | succ k ih =>
    rw [h.next]
    exact sound_step c ih (moves k)

theorem Endless.until_thread (h : Endless c nodes moves) {P : Node V → Prop}
    (hP : ∀ n m, m ≠ .thread → P n → P (step c n m)) {k : ℕ} (hk : P (nodes k)) :
    ∃ j, k ≤ j ∧ moves j = .thread ∧ P (nodes j) := by
  obtain ⟨j, hkj, hj⟩ := h.thread k
  obtain ⟨d, rfl⟩ := Nat.exists_eq_add_of_le hkj
  induction d generalizing k with
  | zero => exact ⟨k, le_rfl, hj, hk⟩
  | succ d ih =>
    by_cases hmove : moves k = .thread
    · exact ⟨k, le_rfl, hmove, hk⟩
    · have hnext : P (nodes (k + 1)) := h.next k ▸ hP _ _ hmove hk
      obtain ⟨i, hi, hrest⟩ := ih hnext (by omega) (by rw [← hj]; congr 1; omega)
      exact ⟨i, by omega, hrest⟩

theorem step_other (c : WriteCoordinator V) (n : Node V) {m : Move} (hm : m ≠ .thread) :
    (∃ a, Calls a ∧ step c n m = ⟨n.scene.commit .caller a, n.place⟩) ∨ step c n m = n ∨
      n.place = .waiting ∧ step c n m = ⟨n.scene, .clearing⟩ := by
  cases m with
  | thread => exact absurd rfl hm
  | timeout =>
    obtain ⟨scene, place⟩ := n
    cases place with
    | waiting => exact .inr (.inr ⟨rfl, rfl⟩)
    | checking | draining left | clearing | ended => exact .inr (.inl rfl)
  | enqueue op => exact .inl ⟨_, .enqueue op, rfl⟩
  | retry opId => exact .inl ⟨_, .retry opId, rfl⟩
  | setStop => exact .inl ⟨_, .setStop, rfl⟩
  | setWake => exact .inl ⟨_, .setWake, rfl⟩

theorem called_issue {m : Scene V} (k : Commit V) (hm : Called m) :
    Called (m.commit .thread (.issue k)) := by
  unfold Called at *
  rw [commit_state]
  cases k <;> exact hm

theorem place_other {n : Node V} {m : Move} (hm : m ≠ .thread) (hplace : n.place ≠ .waiting) :
    (step c n m).place = n.place := by
  rcases step_other c n hm with ⟨a, _, h⟩ | h | ⟨hwaiting, _⟩
  · rw [h]
  · rw [h]
  · exact absurd hwaiting hplace

theorem called_other {n : Node V} {m : Move} (hm : m ≠ .thread) (hn : Called n.scene) :
    Called (step c n m).scene := by
  rcases step_other c n hm with ⟨a, ha, h⟩ | h | ⟨_, h⟩
  · rw [h]
    exact called_of_caller ha hn
  · rw [h]
    exact hn
  · rw [h]
    exact hn

/-- Away from the wait, the thread stays in its place until it moves, and no call is lost. -/
theorem Endless.thread_next (h : Endless c nodes moves) {place : Place V} {k : ℕ}
    (hk : (nodes k).place = place) (hplace : place ≠ .waiting) :
    ∃ j, k ≤ j ∧ (nodes j).place = place ∧ nodes (j + 1) = threadStep c (nodes j) ∧
      (Called (nodes k).scene → Called (nodes j).scene) := by
  obtain ⟨j, hj, hmove, hsame, hcalled⟩ := h.until_thread
    (P := fun n => n.place = place ∧ (Called (nodes k).scene → Called n.scene))
    (fun n m hm hn => ⟨(place_other hm (hn.1 ▸ hplace)).trans hn.1,
      fun hcalled => called_other hm (hn.2 hcalled)⟩) ⟨hk, id⟩
  have hnext := h.next j
  rw [hmove] at hnext
  exact ⟨j, hj, hsame, hnext, hcalled⟩

theorem Endless.drain_ends (h : Endless c nodes moves)
    {left : Proc (Desk V) (Act V) PyError ℕ} {k : ℕ} (hk : (nodes k).place = .draining left)
    (hcalled : Called (nodes k).scene) :
    ∃ j, k ≤ j ∧ Called (nodes j).scene ∧
      ((nodes j).place = .waiting ∨ (nodes j).place = .checking ∨ (nodes j).place = .ended) := by
  induction left generalizing k with
  | done applied =>
    obtain ⟨j, hj, hplace, hnext, hkept⟩ := h.thread_next hk nofun
    unfold threadStep at hnext
    rw [hplace] at hnext
    refine ⟨j + 1, by omega, by rw [hnext]; exact hkept hcalled, ?_⟩
    rw [hnext]
    dsimp only
    split
    · exact .inl rfl
    · exact .inr (.inl rfl)
  | fail e =>
    obtain ⟨j, hj, hplace, hnext, hkept⟩ := h.thread_next hk nofun
    unfold threadStep at hnext
    rw [hplace] at hnext
    exact ⟨j + 1, by omega, by rw [hnext]; exact hkept hcalled, by rw [hnext]; exact .inr (.inr rfl)⟩
  | observe next ih =>
    obtain ⟨j, hj, hplace, hnext, hkept⟩ := h.thread_next hk nofun
    unfold threadStep at hnext
    rw [hplace] at hnext
    obtain ⟨i, hi, hrest⟩ := ih _ (k := j + 1) (by rw [hnext]) (by rw [hnext]; exact hkept hcalled)
    exact ⟨i, by omega, hrest⟩
  | step a next ih =>
    obtain ⟨j, hj, hplace, hnext, hkept⟩ := h.thread_next hk nofun
    have hsound := h.sound j
    unfold Sound at hsound
    rw [hplace] at hsound
    obtain ⟨b, rfl⟩ := hsound.commits.1
    unfold threadStep at hnext
    rw [hplace] at hnext
    obtain ⟨i, hi, hrest⟩ := ih _ (k := j + 1) (by rw [hnext])
      (by rw [hnext]; exact called_issue b (hkept hcalled))
    exact ⟨i, by omega, hrest⟩

theorem step_waiting {n : Node V} (m : Move) (hn : n.place = .waiting) (hcalled : Called n.scene) :
    (step c n m).place = .clearing ∨
      (step c n m).place = .waiting ∧ Called (step c n m).scene ∧
        (m = .setWake ∨ n.scene.state.wake = true → (step c n m).scene.state.wake = true) ∧
        (m = .thread → n.scene.state.wake = false) := by
  obtain ⟨scene, place⟩ := n
  subst hn
  cases m with
  | thread =>
    cases hwake : scene.state.wake with
    | true => exact .inl (by simp only [step, threadStep, hwake, if_true])
    | false =>
      have hsame : step c ⟨scene, .waiting⟩ .thread = ⟨scene, .waiting⟩ := by
        simp only [step, threadStep, hwake, Bool.false_eq_true, if_false]
      rw [hsame]
      exact .inr ⟨rfl, hcalled, fun h => h.elim nofun nofun, fun _ => rfl⟩
  | timeout => exact .inl rfl
  | enqueue op =>
    exact .inr ⟨rfl, called_of_caller (.enqueue op) hcalled, fun h => h.elim nofun id, nofun⟩
  | retry opId =>
    exact .inr ⟨rfl, called_of_caller (.retry opId) hcalled, fun h => h.elim nofun id, nofun⟩
  | setStop => exact .inr ⟨rfl, called_of_caller .setStop hcalled, fun h => h.elim nofun id, nofun⟩
  | setWake =>
    refine .inr ⟨rfl, called_of_caller .setWake hcalled, fun _ => ?_, nofun⟩
    change (act .setWake scene.state).wake = true
    simp only [act]
    split
    · rename_i hzero
      exact hcalled.resolve_right fun hpos => absurd hzero hpos.ne'
    · rfl

theorem Endless.woken (h : Endless c nodes moves) {k : ℕ} (hk : (nodes k).place = .waiting)
    (hcalled : Called (nodes k).scene) : ∃ j, k ≤ j ∧ (nodes j).place = .clearing := by
  by_contra hnever
  have hasleep : ∀ j, k ≤ j → (nodes j).place ≠ .clearing := fun j hj h => hnever ⟨j, hj, h⟩
  have hwaits : ∀ j, k ≤ j → (nodes j).place = .waiting ∧ Called (nodes j).scene := by
    intro j hj
    induction j, hj using Nat.le_induction with
    | base => exact ⟨hk, hcalled⟩
    | succ j hj ih =>
      have hstep := (step_waiting (c := c) (moves j) ih.1 ih.2).resolve_left fun hclear =>
        hasleep (j + 1) (by omega) (h.next j ▸ hclear)
      rw [h.next j]
      exact ⟨hstep.1, hstep.2.1⟩
  have hstep : ∀ j, k ≤ j → (moves j = .setWake ∨ (nodes j).scene.state.wake = true →
      (nodes (j + 1)).scene.state.wake = true) ∧
      (moves j = .thread → (nodes j).scene.state.wake = false) := by
    intro j hj
    have hmoved := (step_waiting (c := c) (moves j) (hwaits j hj).1 (hwaits j hj).2).resolve_left
      fun hclear => hasleep (j + 1) (by omega) (h.next j ▸ hclear)
    rw [h.next j]
    exact hmoved.2.2
  -- Once a caller has set the event, it stays set, and the thread sees it.
  obtain ⟨j, hj, hset⟩ := h.callers k
  have hwake : ∀ i, j + 1 ≤ i → (nodes i).scene.state.wake = true := by
    intro i hi
    induction i, hi using Nat.le_induction with
    | base => exact (hstep j hj).1 (.inl hset)
    | succ i hi ih => exact (hstep i (by omega)).1 (.inr ih)
  obtain ⟨i, hi, hmove⟩ := h.thread (j + 1)
  exact absurd ((hwake i hi).symm.trans ((hstep i (by omega)).2 hmove)) (by decide)

/-- A thread that is called looks again, unless it has ended. -/
theorem Endless.looks_again (h : Endless c nodes moves) {k : ℕ} (hcalled : Called (nodes k).scene) :
    ∃ j, k ≤ j ∧ ((nodes j).place = .checking ∨ (nodes j).place = .ended) := by
  have hclearing : ∀ i, (nodes i).place = .clearing → ∃ j, i ≤ j ∧ (nodes j).place = .checking := by
    intro i hi
    obtain ⟨j, hj, hplace, hnext, _⟩ := h.thread_next hi nofun
    unfold threadStep at hnext
    rw [hplace] at hnext
    exact ⟨j + 1, by omega, by rw [hnext]⟩
  have hwaiting : ∀ i, (nodes i).place = .waiting → Called (nodes i).scene →
      ∃ j, i ≤ j ∧ (nodes j).place = .checking := by
    intro i hi hc
    obtain ⟨j, hj, hplace⟩ := h.woken hi hc
    obtain ⟨j', hj', hchecking⟩ := hclearing j hplace
    exact ⟨j', by omega, hchecking⟩
  cases hplace : (nodes k).place with
  | checking => exact ⟨k, le_rfl, .inl hplace⟩
  | ended => exact ⟨k, le_rfl, .inr hplace⟩
  | clearing => exact (hclearing k hplace).imp fun j hj => ⟨hj.1, .inl hj.2⟩
  | waiting => exact (hwaiting k hplace hcalled).imp fun j hj => ⟨hj.1, .inl hj.2⟩
  | draining left =>
    obtain ⟨i, hi, hc, hplace | hplace | hplace⟩ := h.drain_ends hplace hcalled
    · obtain ⟨j, hj, hchecking⟩ := hwaiting i hplace hc
      exact ⟨j, by omega, .inl hchecking⟩
    · exact ⟨i, hi, .inl hplace⟩
    · exact ⟨i, hi, .inr hplace⟩

theorem stop_step {n : Node V} (hn : Sound n) (m : Move) (hstop : n.scene.state.stop = true) :
    (step c n m).scene.state.stop = true := by
  have hcaller : ∀ {a : Act V}, Calls a → (act a n.scene.state).stop = true := by
    intro a ha
    cases ha with
    | enqueue op | retry opId => exact hstop
    | setStop => rfl
    | setWake =>
      simp only [act]
      split <;> exact hstop
  by_cases hm : m = .thread
  · subst hm
    obtain ⟨scene, place⟩ := n
    cases place with
    | checking | clearing | ended => exact hstop
    | waiting =>
      simp only [step, threadStep]
      split <;> exact hstop
    | draining left =>
      cases left with
      | done applied | fail e | observe next => exact hstop
      | step a next =>
        obtain ⟨b, rfl⟩ := hn.commits.1
        change (act (.issue b) scene.state).stop = true
        cases b <;> exact hstop
  · rcases step_other c n hm with ⟨a, ha, h⟩ | h | ⟨_, h⟩
    · rw [h]
      exact hcaller ha
    · rw [h]
      exact hstop
    · rw [h]
      exact hstop

theorem Endless.stop_stands (h : Endless c nodes moves) {k j : ℕ} (hkj : k ≤ j)
    (hstop : (nodes k).scene.state.stop = true) : (nodes j).scene.state.stop = true := by
  induction j, hkj using Nat.le_induction with
  | base => exact hstop
  | succ j hj ih =>
    rw [h.next j]
    exact stop_step (h.sound j) (moves j) ih

theorem Endless.ended_stands (h : Endless c nodes moves) {k j : ℕ} (hkj : k ≤ j)
    (hk : (nodes k).place = .ended) : (nodes j).place = .ended := by
  induction j, hkj using Nat.le_induction with
  | base => exact hk
  | succ j hj ih =>
    rw [h.next j]
    by_cases hm : moves j = .thread
    · rw [hm]
      unfold step threadStep
      rw [ih]
      exact ih
    · exact (place_other hm (ih ▸ nofun)).trans ih

theorem Endless.stops (h : Endless c nodes moves) {k : ℕ}
    (hstop : (nodes k).scene.state.stop = true) : ∃ j, k ≤ j ∧ (nodes j).place = .ended := by
  have hlooks : ∃ j, k ≤ j ∧ ((nodes j).place = .checking ∨ (nodes j).place = .ended) := by
    have hsound := h.sound k
    unfold Sound at hsound
    cases hplace : (nodes k).place with
    | checking => exact ⟨k, le_rfl, .inl hplace⟩
    | ended => exact ⟨k, le_rfl, .inr hplace⟩
    | clearing =>
      obtain ⟨j, hj, hsame, hnext, _⟩ := h.thread_next hplace nofun
      unfold threadStep at hnext
      rw [hsame] at hnext
      exact ⟨j + 1, by omega, .inl (by rw [hnext])⟩
    | waiting =>
      rw [hplace] at hsound
      exact h.looks_again (hsound.1 hstop)
    | draining left =>
      rw [hplace] at hsound
      exact h.looks_again (hsound.heard hstop)
  obtain ⟨j, hj, hchecking | hended⟩ := hlooks
  · obtain ⟨i, hi, hplace, hnext, _⟩ := h.thread_next hchecking nofun
    unfold threadStep at hnext
    rw [hplace] at hnext
    refine ⟨i + 1, by omega, ?_⟩
    rw [hnext]
    exact if_pos (h.stop_stands (by omega) hstop)
  · exact ⟨j, hj, hended⟩

/-- The thread answers: after each call it looks again, or has ended, and once it has been
asked to stop it ends for good. -/
theorem calls_answered (c : WriteCoordinator V) (nodes : ℕ → Node V) (moves : ℕ → Move)
    (h : Endless c nodes moves) (k : ℕ) :
    ((∃ op, moves k = .enqueue op) ∨ (∃ opId, moves k = .retry opId) →
      ∃ j, k < j ∧ ((nodes j).place = .checking ∨ (nodes j).place = .ended)) ∧
    ((nodes k).scene.state.stop = true → ∃ j, k ≤ j ∧ ∀ i, j ≤ i → (nodes i).place = .ended) := by
  refine ⟨fun hcall => ?_, fun hstop => ?_⟩
  · have hcalled : Called (nodes (k + 1)).scene := by
      rw [h.next k]
      rcases hcall with ⟨op, hop⟩ | ⟨opId, hretry⟩
      · rw [hop]
        exact .inr (Nat.succ_pos _)
      · rw [hretry]
        exact .inr (Nat.succ_pos _)
    exact h.looks_again hcalled
  · obtain ⟨j, hj, hended⟩ := h.stops hstop
    exact ⟨j, hj, fun i hi => h.ended_stands hi hended⟩

end Answers

/-- The thread and the callers take turns; an upsert is queued, and later a stop requested. -/
def turns (k : ℕ) : Move :=
  if k = 1 then .enqueue (QueueRuns.upsertOf 1 7)
  else if k = 3 then .setStop
  else if k % 2 = 0 then .thread
  else .setWake

def turnsOf (k : ℕ) : Node ℕ := run QueueRuns.downAtFirst ((List.range k).map turns) newThread

theorem endless_turns : Endless QueueRuns.downAtFirst turnsOf turns where
  started := rfl
  next k := by
    unfold turnsOf run
    rw [List.range_succ, List.map_append, List.foldl_append]
    rfl
  thread k := ⟨2 * k, by omega, by unfold turns; grind⟩
  callers k := ⟨2 * k + 5, by omega, by unfold turns; grind⟩

theorem calls_answered_turns : (∃ j, 1 < j ∧
      ((turnsOf j).place = .checking ∨ (turnsOf j).place = .ended)) ∧
    ∃ j, 4 ≤ j ∧ ∀ i, j ≤ i → (turnsOf i).place = .ended :=
  ⟨(calls_answered _ turnsOf turns endless_turns 1).1 (.inl ⟨_, rfl⟩),
    (calls_answered _ turnsOf turns endless_turns 4).2 (by decide +kernel)⟩

end StrataMemory.WriterWorker
