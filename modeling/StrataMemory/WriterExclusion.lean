import StrataMemory.Histories
import StrataMemory.QueueRuns
import StrataMemory.SeveralCoordinators

set_option autoImplicit false

namespace StrataMemory.WriterExclusion
open Records Tables Worlds Coordinator CoordinatorRuns Applications QueueRuns Histories
open SeveralCoordinators

section Exclusion
variable {ι τ V : Type}

def Has (f : Stage → Option OpRow) (m : State ι τ V) (t : τ) (row : OpRow) : Prop :=
  ∃ i stage, m.threads t = some (i, stage) ∧ f stage = some row

/-- No two handler calls for one target overlap, and no operation is handled while another
thread has called its handler and not marked the outcome. -/
structure Exclusive (m : State ι τ V) : Prop where
  targets : ∀ {t u row other}, t ≠ u → Has Stage.handled m t row → Has Stage.handled m u other →
    row.operation.target ≠ other.operation.target
  operations : ∀ {t u row other}, t ≠ u → Has Stage.handled m t row →
    Has Stage.unsettled m u other → row.operation.opId ≠ other.operation.opId

/-- No coordinator is opened while an application is under way whose row is in progress. No
row is selected for a target of which another coordinator has selected a row and not marked
it yet, or of which a row is in progress. -/
def Apart (m : State ι τ V) : Move ι τ V → Prop
  | .construct i => m.opened i = false → ∀ t row, ¬ Has Stage.begun m t row
  | .turn t => ∀ i now row target, m.threads t = some (i, .timed now) →
      selectEligible m.world.db.opLog now = some row → row.operation.target = some target →
      (∀ u j other, j ≠ i → m.threads u = some (j, .selected other) →
        other.operation.target ≠ some target) ∧
      ∀ other ∈ m.world.db.opLog.rows, other.progress.state = .inProgress →
        other.operation.target ≠ some target
  | _ => True

end Exclusion

section Rows
variable {log : OpLog} {row : OpRow}

def Listed (log : OpLog) (row : OpRow) : Prop :=
  ∃ r ∈ log.rows, r.seq = row.seq ∧ r.operation = row.operation

def Marked (log : OpLog) (row : OpRow) : Prop :=
  ∃ r ∈ log.rows, r.seq = row.seq ∧ r.operation = row.operation ∧ r.progress.state = .inProgress

theorem Listed.advance (h : Listed log row) (p : OpRow → Bool) (f : Progress → Progress) :
    Listed (log.advance p f) row := by
  obtain ⟨r, hr, hseq, hop⟩ := h
  obtain ⟨q, hq⟩ := exists_mem_advance hr p f
  exact ⟨_, hq, hseq, hop⟩

theorem Listed.append (h : Listed log row) (op : Operation) (now : Time) :
    Listed (log.append op now) row := by
  obtain ⟨r, hr, hrest⟩ := h
  exact ⟨r, mem_append_of_mem hr op now, hrest⟩

theorem Marked.append (h : Marked log row) (op : Operation) (now : Time) :
    Marked (log.append op now) row := by
  obtain ⟨r, hr, hrest⟩ := h
  exact ⟨r, mem_append_of_mem hr op now, hrest⟩

theorem Marked.advance (h : Marked log row) {p : OpRow → Bool} (f : Progress → Progress)
    (hp : ∀ r ∈ log.rows, r.seq = row.seq → r.progress.state = .inProgress → p r = false) :
    Marked (log.advance p f) row := by
  obtain ⟨r, hr, hseq, hop, hstate⟩ := h
  refine ⟨r, List.mem_map.mpr ⟨r, hr, if_neg ?_⟩, hseq, hop, hstate⟩
  rw [hp r hr hseq hstate]
  exact Bool.false_ne_true

theorem Listed.seq_eq {other : OpRow} (h : Listed log row) (h' : Listed log other)
    (hseq : other.seq = row.seq) : other.operation = row.operation := by
  obtain ⟨r, hr, hrow, hop⟩ := h
  obtain ⟨r', hr', hother, hop'⟩ := h'
  have hsame : r' = r := seq_unique hr hr' (by rw [hrow, hother, hseq])
  rw [← hop, ← hop', hsame]

theorem Listed.operation_eq {other : OpRow} (h : Listed log row) (h' : Listed log other)
    (hid : row.operation.opId = other.operation.opId) : row.operation = other.operation := by
  obtain ⟨r, hr, _, hop⟩ := h
  obtain ⟨r', hr', _, hop'⟩ := h'
  have hsame : r = r' := row_unique hr hr' (by rw [hop, hop', hid])
  rw [← hop, ← hop', hsame]

theorem Listed.marked (h : Listed log row) (f : Progress → Progress)
    (hf : ∀ p, (f p).state = .inProgress) :
    Marked (log.advance (fun r => r.seq = row.seq) f) row := by
  obtain ⟨r, hr, hseq, hop⟩ := h
  refine ⟨{ r with progress := f r.progress }, List.mem_map.mpr ⟨r, hr, ?_⟩, hseq, hop, hf _⟩
  exact if_pos (decide_eq_true hseq)

end Rows

section Soundness
variable {ι τ V : Type} {m : State ι τ V}

/-- A thread past the lock of a coordinator holds it. -/
def Locked (m : State ι τ V) : Prop :=
  ∀ t i stage, m.threads t = some (i, stage) → m.writeLock i = some t

structure Sound (m : State ι τ V) : Prop where
  locked : Locked m
  listed : ∀ {t row}, Has Stage.row m t row → Listed m.world.db.opLog row
  called : ∀ {t row}, Has Stage.handled m t row → row.operation.target.isSome = true
  marked : ∀ {t row target}, Has Stage.begun m t row → row.operation.target = some target →
    Marked m.world.db.opLog row
  apart : ∀ {t u row other target}, t ≠ u → Has Stage.row m t row → Has Stage.row m u other →
    row.operation.target = some target → other.operation.target ≠ some target

theorem Has.imp {f g : Stage → Option OpRow} {t : τ} {row : OpRow}
    (hfg : ∀ {stage}, f stage = some row → g stage = some row) (h : Has f m t row) :
    Has g m t row := by
  obtain ⟨i, stage, hthread, hrow⟩ := h
  exact ⟨i, stage, hthread, hfg hrow⟩

theorem Sound.exclusive (h : Sound m) : Exclusive m := by
  have hrow : ∀ {t row}, Has Stage.begun m t row → Has Stage.row m t row :=
    Has.imp Stage.row_of_begun
  have hhandled : ∀ {t row}, Has Stage.handled m t row → Has Stage.row m t row := fun h =>
    hrow (h.imp Stage.begun_of_handled)
  refine ⟨fun {t u row other} hne ht hu htarget => ?_, fun {t u row other} hne ht hu hid => ?_⟩
  · obtain ⟨target, hsome⟩ := Option.isSome_iff_exists.mp (h.called ht)
    exact h.apart hne (hhandled ht) (hhandled hu) hsome (htarget ▸ hsome)
  · obtain ⟨target, hsome⟩ := Option.isSome_iff_exists.mp (h.called ht)
    have hother := hrow (hu.imp Stage.begun_of_unsettled)
    have hsame := (h.listed (hhandled ht)).operation_eq (h.listed hother) hid
    exact h.apart hne (hhandled ht) hother hsome (hsame ▸ hsome)

theorem Sound.seq_ne (h : Sound m) {t u : τ} {row other : OpRow} {target : String} (hne : t ≠ u)
    (ht : Has Stage.row m t row) (hu : Has Stage.row m u other)
    (htarget : other.operation.target = some target) : other.seq ≠ row.seq := by
  intro hseq
  have hsame := (h.listed ht).seq_eq (h.listed hu) hseq
  exact h.apart hne.symm hu ht htarget (hsame ▸ htarget)

/-- What the stage of `t` needs beside the other threads. -/
structure Fits (m : State ι τ V) (log : OpLog) (t : τ) (stage : Stage) : Prop where
  listed : ∀ {row}, stage.row = some row → Listed log row
  called : ∀ {row}, stage.handled = some row → row.operation.target.isSome = true
  marked : ∀ {row target}, stage.begun = some row → row.operation.target = some target →
    Marked log row
  apart : ∀ {u row other target}, u ≠ t → stage.row = some row → Has Stage.row m u other →
    row.operation.target = some target → other.operation.target ≠ some target

theorem fits_of_row {log : OpLog} {t : τ} {stage : Stage} (h : stage.row = none) :
    Fits m log t stage := by
  have hbegun : ∀ {row}, stage.begun ≠ some row := fun hrow => by
    rw [Stage.row_of_begun hrow] at h
    cases h
  refine ⟨fun hrow => ?_, fun hrow => ?_, fun hrow _ => absurd hrow hbegun, fun _ hrow => ?_⟩
  · rw [h] at hrow
    cases hrow
  · exact absurd (Stage.begun_of_handled hrow) hbegun
  · rw [h] at hrow
    cases hrow

section Threads
variable [DecidableEq τ] {t : τ} {w : World V} {locks : ι → Option τ} {opened : ι → Bool}
  {next : Option (ι × Stage)}

theorem has_update {f : Stage → Option OpRow} {u : τ} {row : OpRow} :
    Has f ⟨w, opened, locks, Function.update m.threads t next⟩ u row ↔
      if u = t then ∃ a, next = some a ∧ f a.2 = some row else Has f m u row := by
  unfold Has
  by_cases hu : u = t
  · subst hu
    simp only [Function.update_self, if_true, Prod.exists]
  · simp only [Function.update_of_ne hu, if_neg hu]

theorem Locked.update
    (hlocks : ∀ {u i stage}, u ≠ t → m.threads u = some (i, stage) → locks i = some u)
    (hown : ∀ {i stage}, next = some (i, stage) → locks i = some t) :
    Locked ⟨w, opened, locks, Function.update m.threads t next⟩ := by
  intro u i stage hu
  by_cases hut : u = t
  · subst hut
    exact hown ((Function.update_self u next m.threads).symm.trans hu)
  · exact hlocks hut ((Function.update_of_ne hut next m.threads).symm.trans hu)

theorem Locked.stay (h : Locked m) {i : ι} {stage : Stage} (ht : m.threads t = some (i, stage))
    (stage' : Stage) :
    Locked { m with world := w, threads := Function.update m.threads t (some (i, stage')) } := by
  refine Locked.update (fun _ hu => h _ _ _ hu) (fun hnext => ?_)
  cases hnext
  exact h _ _ _ ht

theorem Sound.update (h : Sound m)
    (hlocked : Locked ⟨w, opened, locks, Function.update m.threads t next⟩)
    (hlisted : ∀ {row}, Listed m.world.db.opLog row → Listed w.db.opLog row)
    (hothers : ∀ {u row target}, u ≠ t → Has Stage.begun m u row →
      row.operation.target = some target → Marked w.db.opLog row)
    (hfits : ∀ {i stage}, next = some (i, stage) → Fits m w.db.opLog t stage) :
    Sound ⟨w, opened, locks, Function.update m.threads t next⟩ where
  locked := hlocked
  listed {u row} hu := by
    rw [has_update] at hu
    split at hu
    · obtain ⟨a, ha, hrow⟩ := hu
      exact (hfits ha).listed hrow
    · exact hlisted (h.listed hu)
  called {u row} hu := by
    rw [has_update] at hu
    split at hu
    · obtain ⟨a, ha, hrow⟩ := hu
      exact (hfits ha).called hrow
    · exact h.called hu
  marked {u row target} hu htarget := by
    rw [has_update] at hu
    split at hu
    · obtain ⟨a, ha, hrow⟩ := hu
      exact (hfits ha).marked hrow htarget
    · rename_i hut
      exact hothers hut hu htarget
  apart {u v row other target} hne hu hv htarget := by
    rw [has_update] at hu hv
    by_cases hut : u = t
    · have hvt : v ≠ t := fun hvt => hne (hut.trans hvt.symm)
      rw [if_pos hut] at hu
      rw [if_neg hvt] at hv
      obtain ⟨a, ha, hrow⟩ := hu
      exact (hfits ha).apart hvt hrow hv htarget
    · rw [if_neg hut] at hu
      split at hv
      · obtain ⟨a, ha, hrow⟩ := hv
        exact fun hother => (hfits ha).apart hut hrow hu hother htarget
      · exact h.apart hne hu hv htarget

theorem Sound.stay (h : Sound m) {i : ι} {stage stage' : Stage}
    (ht : m.threads t = some (i, stage)) (hlog : w.db.opLog = m.world.db.opLog)
    (hfits : Fits m m.world.db.opLog t stage') :
    Sound { m with world := w, threads := Function.update m.threads t (some (i, stage')) } := by
  refine h.update (h.locked.stay ht stage') (fun hrow => hlog ▸ hrow)
    (fun _ hu htarget => hlog ▸ h.marked hu htarget) (fun hnext => ?_)
  cases hnext
  exact hlog ▸ hfits

theorem Sound.progress (h : Sound m) {i : ι} {stage stage' : Stage} {row : OpRow}
    (ht : m.threads t = some (i, stage)) (hrow : stage.row = some row) {f : Progress → Progress}
    (hlog : w.db.opLog = m.world.db.opLog.advance (fun r => r.seq = row.seq) f)
    (hfits : Fits m w.db.opLog t stage') :
    Sound { m with world := w, threads := Function.update m.threads t (some (i, stage')) } := by
  refine h.update (h.locked.stay ht stage') (fun hlisted => hlog ▸ hlisted.advance _ _)
    (fun hne hu htarget => ?_) (fun hnext => ?_)
  · rw [hlog]
    have hother := h.seq_ne hne.symm ⟨i, stage, ht, hrow⟩ (hu.imp Stage.row_of_begun) htarget
    exact (h.marked hu htarget).advance f fun r _ hseq _ => decide_eq_false (hseq ▸ hother)
  · cases hnext
    exact hfits

end Threads

theorem Sound.fits (h : Sound m) {t : τ} {i : ι} {stage stage' : Stage}
    (ht : m.threads t = some (i, stage)) (hrow : ∀ {row}, stage'.row = some row → stage.row = some row)
    (hbegun : ∀ {row}, stage'.begun = some row → stage.begun = some row)
    (hcalled : ∀ {row}, stage'.handled = some row → row.operation.target.isSome = true) :
    Fits m m.world.db.opLog t stage' where
  listed hstage := h.listed ⟨i, stage, ht, hrow hstage⟩
  called := hcalled
  marked hstage htarget := h.marked ⟨i, stage, ht, hbegun hstage⟩ htarget
  apart hne hstage hu htarget := h.apart hne.symm ⟨i, stage, ht, hrow hstage⟩ hu htarget

theorem Sound.construct (h : Sound m) (hnone : ∀ t row, ¬ Has Stage.begun m t row)
    (opened : ι → Bool) : Sound { m with world := apply .recover m.world, opened := opened } where
  locked := h.locked
  listed hrow := (h.listed hrow).advance _ _
  called := h.called
  marked hrow := absurd hrow (hnone _ _)
  apart := h.apart

theorem Sound.enqueue (h : Sound m) (op : Operation) :
    Sound { m with world := apply (.enqueue op) m.world } where
  locked := h.locked
  listed hrow := (h.listed hrow).append op _
  called := h.called
  marked hrow htarget := (h.marked hrow htarget).append op _
  apart := h.apart

theorem Sound.retry (h : Sound m) (opId : OpId) :
    Sound { m with world := apply (.retryOp opId) m.world } where
  locked := h.locked
  listed hrow := (h.listed hrow).advance _ _
  called := h.called
  marked hrow htarget := (h.marked hrow htarget).advance _ fun r _ _ hstate => by simp [hstate]
  apart := h.apart

theorem Sound.selection (h : Sound m) {t : τ} {i : ι} (hapart : Apart m (.turn t)) {now : Time}
    {row : OpRow} (ht : m.threads t = some (i, .timed now))
    (hselected : selectEligible m.world.db.opLog now = some row) :
    Fits m m.world.db.opLog t (.selected row) where
  listed hrow := by
    cases hrow
    exact ⟨row, (live_of_selectEligible hselected).1, rfl, rfl⟩
  called hrow := by cases hrow
  marked hrow := by cases hrow
  apart {u _ other target} hne hrow hu htarget := by
    cases hrow
    obtain ⟨hselections, hprogress⟩ := hapart i now row target ht hselected htarget
    obtain ⟨j, stage, hthread, hstage⟩ := hu
    have hbegun : stage.begun = some other → other.operation.target ≠ some target := by
      intro hstage hother
      obtain ⟨r, hr, _, hop, hstate⟩ := h.marked ⟨j, stage, hthread, hstage⟩ hother
      exact hprogress r hr hstate (hop ▸ hother)
    cases stage with
    | locked | timed now | leaving => cases hstage
    | selected r =>
      cases hstage
      refine hselections u j other ?_ hthread
      -- The lock of the coordinator keeps its other threads out.
      rintro rfl
      exact hne (Option.some.inj ((h.locked _ _ _ hthread).symm.trans (h.locked _ _ _ ht)))
    | marked r | handling r | answered r result unacked => exact hbegun hstage

section Steps
variable [DecidableEq τ] {t : τ} {i : ι}

theorem Sound.turn (h : Sound m) {c : WriteCoordinator V} (hapart : Apart m (.turn t))
    {stage next : Stage} {w : World V} (ht : m.threads t = some (i, stage))
    (hadvanced : advance c m.world stage = (some next, w)) :
    Sound { m with world := w, threads := Function.update m.threads t (some (i, next)) } := by
  cases stage with
  | locked =>
    cases hadvanced
    exact h.stay ht rfl (fits_of_row rfl)
  | timed now =>
    rw [advance_timed c m.world rfl] at hadvanced
    cases hselected : selectEligible m.world.db.opLog now with
    | none =>
      rw [hselected] at hadvanced
      cases hadvanced
      exact h.stay ht rfl (fits_of_row rfl)
    | some row =>
      rw [hselected] at hadvanced
      cases hadvanced
      exact h.stay ht rfl (h.selection hapart ht hselected)
  | selected row =>
    cases hadvanced
    have hlisted := h.listed ⟨i, _, ht, rfl⟩
    let mark : Progress → Progress := fun p =>
      { p with state := .inProgress, updatedAt := m.world.now }
    have hlog : (apply (.setOpState row.seq .inProgress) m.world).db.opLog =
        m.world.db.opLog.advance (fun r => r.seq = row.seq) mark := rfl
    refine h.progress ht rfl hlog ⟨fun hrow => ?_, fun hrow => ?_, fun hrow _ => ?_, ?_⟩
    · cases hrow
      exact hlisted.advance _ _
    · cases hrow
    · cases hrow
      exact hlisted.marked mark fun _ => rfl
    · intro u _ other target hne hrow hu htarget
      cases hrow
      exact h.apart hne.symm ⟨i, _, ht, rfl⟩ hu htarget
  | marked row =>
    rw [advance_marked m.world rfl] at hadvanced
    cases hhandler : row.operation.target.bind c.handlers with
    | none =>
      rw [hhandler] at hadvanced
      cases hadvanced
      exact h.stay ht rfl (h.fits ht id id fun hrow => by cases hrow)
    | some handler =>
      rw [hhandler] at hadvanced
      cases hadvanced
      refine h.stay ht rfl (h.fits ht id id fun hrow => ?_)
      cases hrow
      obtain ⟨target, htarget, _⟩ := Option.bind_eq_some_iff.mp hhandler
      exact Option.isSome_iff_exists.mpr ⟨target, htarget⟩
  | handling row =>
    cases hadvanced
    exact h.stay ht rfl (h.fits ht id id fun hrow => h.called ⟨i, _, ht, hrow⟩)
  | answered row result unacked =>
    cases unacked with
    | cons rid rest =>
      cases hadvanced
      exact h.stay ht rfl (h.fits ht id id fun hrow => by cases hrow)
    | nil =>
      cases hadvanced
      obtain ⟨f, hlog, _⟩ := closing_verdict c row result m.world
      exact h.progress ht rfl hlog (fits_of_row rfl)
  | leaving => cases hadvanced

variable [DecidableEq ι]

theorem Locked.lock (h : Locked m) (hfree : m.writeLock i = none) :
    Locked { m with
      writeLock := Function.update m.writeLock i (some t)
      threads := Function.update m.threads t (some (i, .locked)) } := by
  refine Locked.update (fun {u j stage} _ hu => ?_) (fun hnext => ?_)
  · have hlock := h _ _ _ hu
    have hji : j ≠ i := by
      rintro rfl
      rw [hfree] at hlock
      cases hlock
    rw [Function.update_of_ne hji, hlock]
  · cases hnext
    exact Function.update_self i _ _

theorem Locked.release (h : Locked m) {stage : Stage} (ht : m.threads t = some (i, stage)) :
    Locked { m with
      writeLock := Function.update m.writeLock i none
      threads := Function.update m.threads t none } := by
  refine Locked.update (fun {u j stage'} hne hu => ?_) (fun hnext => ?_)
  · have hlock := h _ _ _ hu
    have hji : j ≠ i := by
      rintro rfl
      exact hne (Option.some.inj (hlock.symm.trans (h _ _ _ ht)))
    rw [Function.update_of_ne hji, hlock]
  · cases hnext

theorem Locked.moved (h : Locked m) {c : ι → WriteCoordinator V} {mv : Move ι τ V}
    {n : State ι τ V} (hmoved : Moved c m mv n) : Locked n := by
  cases hmoved with
  | idle | construct closed | enqueue | retry => exact h
  | lock hfree => exact h.lock hfree
  | turn ht _ => exact h.stay ht _
  | release ht => exact h.release ht
  | handlerEnd ht result memory => exact h.stay ht _

theorem Sound.lock (h : Sound m) (hfree : m.writeLock i = none) :
    Sound { m with
      writeLock := Function.update m.writeLock i (some t)
      threads := Function.update m.threads t (some (i, .locked)) } := by
  refine h.update (h.locked.lock hfree) id (fun _ hu => h.marked hu) (fun hnext => ?_)
  cases hnext
  exact fits_of_row rfl

theorem Sound.release (h : Sound m) {stage : Stage} (ht : m.threads t = some (i, stage)) :
    Sound { m with
      writeLock := Function.update m.writeLock i none
      threads := Function.update m.threads t none } := by
  refine h.update (h.locked.release ht) id (fun _ hu => h.marked hu) (fun hnext => ?_)
  cases hnext

/-- Every move that keeps coordinators apart keeps what holds. -/
theorem Sound.moved (h : Sound m) {c : ι → WriteCoordinator V} {mv : Move ι τ V}
    {n : State ι τ V} (hmoved : Moved c m mv n) (hapart : Apart m mv) : Sound n := by
  cases hmoved with
  | idle => exact h
  | construct hclosed => exact h.construct (hapart hclosed) _
  | enqueue i op => exact h.enqueue op
  | retry i opId => exact h.retry opId
  | lock hfree => exact h.lock hfree
  | turn ht hadvanced => exact h.turn hapart ht hadvanced
  | release ht => exact h.release ht
  | handlerEnd ht result memory =>
    exact h.stay ht rfl (h.fits ht id id fun hrow => by cases hrow)

end Steps
end Soundness

section Runs
variable {ι τ V : Type} {m : State ι τ V}

/-- No thread applies the queue. The log is any log, with rows left in progress or not. -/
def Quiet (m : State ι τ V) : Prop := ∀ t, m.threads t = none

theorem not_has (h : Quiet m) {f : Stage → Option OpRow} {t : τ} {row : OpRow} : ¬ Has f m t row := by
  rintro ⟨i, stage, hthread, _⟩
  rw [h t] at hthread
  cases hthread

theorem locked_of_quiet (h : Quiet m) : Locked m := by
  intro t i stage hthread
  rw [h] at hthread
  cases hthread

theorem sound_of_quiet (h : Quiet m) : Sound m where
  locked := locked_of_quiet h
  listed hrow := absurd hrow (not_has h)
  called hrow := absurd hrow (not_has h)
  marked hrow := absurd hrow (not_has h)
  apart _ hrow := absurd hrow (not_has h)

variable [DecidableEq ι] [DecidableEq τ]

/-- Coordinators that stay apart exclude each other, at every moment of every run. -/
theorem apart_exclusive (c : ι → WriteCoordinator V) (hquiet : Quiet m) {moves : List (Move ι τ V)}
    (hapart : Along (move c) Apart m moves) : AfterEach (move c) Exclusive m moves := by
  have hsound : AfterEach (move c) Sound m moves :=
    afterEach_of_along (fun s mv _ hs hmv => hs.moved (move_moved c s mv) hmv) (sound_of_quiet hquiet) hapart
  exact hsound.imp fun _ _ hs => hs.exclusive

/-- Threads that apply through one coordinator exclude each other, whatever is opened beside
it. -/
theorem one_thread_inside (c : ι → WriteCoordinator V) (hquiet : Quiet m)
    (moves : List (Move ι τ V)) {t u : τ} {i : ι} {stage other : Stage}
    (ht : (moves.foldl (move c) m).threads t = some (i, stage))
    (hu : (moves.foldl (move c) m).threads u = some (i, other)) : t = u := by
  have hlocked : Locked (moves.foldl (move c) m) :=
    List.foldlRecOn moves (move c) (locked_of_quiet hquiet) fun n h mv _ => h.moved (move_moved c n mv)
  exact Option.some.inj ((hlocked t i stage ht).symm.trans (hlocked u i other hu))

end Runs

section Pairs
variable {ι τ V : Type} {m : State ι τ V}

def handling (m : State ι τ V) (t : τ) : Option Operation :=
  (m.threads t).bind fun a => a.2.handled.map OpRow.operation

theorem has_of_handling {t : τ} {op : Operation} (h : handling m t = some op) :
    ∃ row, Has Stage.handled m t row ∧ row.operation = op := by
  obtain ⟨⟨i, stage⟩, hthread, hstage⟩ := Option.bind_eq_some_iff.mp h
  obtain ⟨row, hhandled, hop⟩ := Option.map_eq_some_iff.mp hstage
  exact ⟨row, ⟨i, stage, hthread, hhandled⟩, hop⟩

theorem not_exclusive {t u : τ} {op other : Operation} (hne : t ≠ u) (ht : handling m t = some op)
    (hu : handling m u = some other) (htarget : op.target = other.target) : ¬ Exclusive m := by
  obtain ⟨row, hrow, rfl⟩ := has_of_handling ht
  obtain ⟨row', hrow', rfl⟩ := has_of_handling hu
  exact fun h => h.targets hne hrow hrow' htarget

def taking (m : State ι τ V) (t : τ) : Option OpRow :=
  (m.threads t).bind fun a => match a.2 with
    | .timed now => selectEligible m.world.db.opLog now
    | _ => none

theorem taking_timed {t : τ} {i : ι} {now : Time} (h : m.threads t = some (i, .timed now)) :
    taking m t = selectEligible m.world.db.opLog now := by
  unfold taking
  rw [h]
  rfl

theorem apart_turn {t : τ} (h : taking m t = none) : Apart m (.turn t) := by
  intro i now row target hthread hselected
  rw [taking_timed hthread, hselected] at h
  cases h

def isSelected : Stage → Bool
  | .selected _ => true
  | _ => false

theorem apart_select {t : τ} (op : Operation) (h : (taking m t).map OpRow.operation = some op)
    (hwaiting : ∀ u, (m.threads u).any (fun a => isSelected a.2) = false)
    (hlog : ∀ other ∈ m.world.db.opLog.rows, other.progress.state = .inProgress →
      other.operation.target ≠ op.target) : Apart m (.turn t) := by
  intro i now row target hthread hselected htarget
  rw [taking_timed hthread, hselected] at h
  cases h
  refine ⟨fun u j other _ hother => ?_, fun other hrow hstate => htarget ▸ hlog other hrow hstate⟩
  have hnone := hwaiting u
  rw [hother] at hnone
  cases hnone

end Pairs

def newPair : State Bool Bool ℕ where
  world := newQueue
  opened _ := false
  writeLock _ := none
  threads _ := none

def afterMoves (moves : List (Move Bool Bool ℕ)) : State Bool Bool ℕ :=
  moves.foldl (move fun _ => downAtFirst) newPair

def goIn (b : Bool) : List (Move Bool Bool ℕ) := .lock b b :: List.replicate 4 (.turn b)

def archived : Operation := { upsertOf 2 8 with target := some "archive" }

def sideBySide : List (Move Bool Bool ℕ) :=
  [.construct false, .construct true, .enqueue false (upsertOf 1 7), .enqueue true archived] ++
    goIn false ++ goIn true

theorem apart_exclusive_sideBySide :
    handling (afterMoves sideBySide) false = some (upsertOf 1 7) ∧
      handling (afterMoves sideBySide) true = some archived ∧
      AfterEach (move fun _ => downAtFirst) Exclusive newPair sideBySide := by
  have hquiet : Quiet newPair := fun _ => rfl
  refine ⟨by decide, by decide, apart_exclusive (fun _ => downAtFirst) hquiet ?_⟩
  have hnone : ∀ t row, ¬ Has Stage.begun newPair t row := fun _ _ => not_has hquiet
  refine ⟨fun _ => hnone, fun _ => hnone, trivial, trivial, trivial, ?_⟩
  refine ⟨apart_turn (by decide), apart_select (upsertOf 1 7) (by decide) (by decide) (by decide),
    apart_turn (by decide), apart_turn (by decide), trivial, ?_⟩
  exact ⟨apart_turn (by decide), apart_select archived (by decide) (by decide) (by decide),
    apart_turn (by decide), apart_turn (by decide), trivial⟩

/-- Both coordinators select the row before one of them has marked it. -/
def raced : List (Move Bool Bool ℕ) :=
  [.construct false, .construct true, .enqueue false (upsertOf 1 7), .lock false false,
    .lock true true] ++ (List.replicate 4 [.turn false, .turn true]).flatten

/-- A coordinator is opened while the handler of the row runs. -/
def reopened : List (Move Bool Bool ℕ) :=
  [.construct false, .enqueue false (upsertOf 1 7)] ++ goIn false ++ .construct true :: goIn true

def unordered : List (Move Bool Bool ℕ) :=
  [.construct false, .construct true, .enqueue false (upsertOf 1 7), .enqueue true (upsertOf 2 8)] ++
    goIn false ++ goIn true

/-- Both coordinators are in the handler of one operation, after a race or after an opening,
or in the handlers of two operations on one index. -/
theorem coordinators_overlap :
    (∀ moves ∈ [raced, reopened], ∀ b, handling (afterMoves moves) b = some (upsertOf 1 7)) ∧
      handling (afterMoves unordered) false = some (upsertOf 1 7) ∧
      handling (afterMoves unordered) true = some (upsertOf 2 8) ∧
      ∀ moves ∈ [raced, reopened, unordered], ¬ Exclusive (afterMoves moves) := by
  have hsame : ∀ moves ∈ [raced, reopened], ∀ b,
      handling (afterMoves moves) b = some (upsertOf 1 7) := by decide
  have hfirst : handling (afterMoves unordered) false = some (upsertOf 1 7) := by decide
  have hsecond : handling (afterMoves unordered) true = some (upsertOf 2 8) := by decide
  refine ⟨hsame, hfirst, hsecond, fun moves hmoves => ?_⟩
  rcases List.mem_cons.mp hmoves with rfl | hmoves
  · exact not_exclusive Bool.false_ne_true (hsame _ (by simp) false) (hsame _ (by simp) true) rfl
  rcases List.mem_cons.mp hmoves with rfl | hmoves
  · exact not_exclusive Bool.false_ne_true (hsame _ (by simp) false) (hsame _ (by simp) true) rfl
  cases List.mem_singleton.mp hmoves
  exact not_exclusive Bool.false_ne_true hfirst hsecond rfl

end StrataMemory.WriterExclusion
