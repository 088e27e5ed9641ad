import Mathlib.Logic.Function.Basic
import Mathlib.Logic.Relation
import StrataMemory.Procedures

set_option autoImplicit false

/-!
# Interleavings

Several parties run procedures over one state. A schedule says who moves next: it reads
the state, or issues one command. Commands may take and free one lock, and a command that
takes it waits until it is free.

A party is judged against what the others promise: between two of its moves they issue
only commands that they may issue. A predicate that those keep can be carried along the
party's procedure, and what each party has established when it ends holds of the run.
-/
namespace StrataMemory.Interleavings
open Procedures

/-- Which commands take the lock, and which free it. -/
class Locks (κ : Type) where
  takes : κ → Bool
  frees : κ → Bool

variable {ι σ κ ε α β γ : Type}

/-- The state between two moves, who holds the lock, and who issued what, newest first. -/
structure Moment (ι σ κ : Type) where
  state : σ
  holder : Option ι
  history : List (ι × κ)

section Moves
variable [Commands σ κ] [Locks κ]

namespace Moment

def commit (m : Moment ι σ κ) (i : ι) (c : κ) : Moment ι σ κ where
  state := Commands.apply c m.state
  holder := if Locks.takes c then some i else if Locks.frees c then none else m.holder
  history := (i, c) :: m.history

def blocks (m : Moment ι σ κ) (c : κ) : Bool := Locks.takes c && m.holder.isSome

end Moment

structure Config (ι σ κ ε α : Type) where
  programs : ι → Proc σ κ ε α
  moment : Moment ι σ κ

variable [DecidableEq ι]

/-- One move of a party. One that waits or has ended does not move. -/
def turn (c : Config ι σ κ ε α) (i : ι) : Config ι σ κ ε α :=
  match c.programs i with
  | .done _ => c
  | .fail _ => c
  | .observe next => { c with programs := Function.update c.programs i (next c.moment.state) }
  | .step k next =>
    if c.moment.blocks k then c
    else ⟨Function.update c.programs i (next c.moment.state), c.moment.commit i k⟩

def play (c : Config ι σ κ ε α) (schedule : List ι) : Config ι σ κ ε α := schedule.foldl turn c

inductive Moved (i : ι) (m : Moment ι σ κ) : Proc σ κ ε α → Proc σ κ ε α → Moment ι σ κ → Prop where
  | done (a : α) : Moved i m (.done a) (.done a) m
  | fail (e : ε) : Moved i m (.fail e) (.fail e) m
  | observe (next : σ → Proc σ κ ε α) : Moved i m (.observe next) (next m.state) m
  | wait {c : κ} (next : σ → Proc σ κ ε α) (blocked : m.blocks c = true) :
      Moved i m (.step c next) (.step c next) m
  | issue {c : κ} (next : σ → Proc σ κ ε α) (free : m.blocks c = false) :
      Moved i m (.step c next) (next m.state) (m.commit i c)

theorem turn_moved (c : Config ι σ κ ε α) (i : ι) :
    ∃ q n, Moved i c.moment (c.programs i) q n ∧
      turn c i = ⟨Function.update c.programs i q, n⟩ := by
  have hsame : Function.update c.programs i (c.programs i) = c.programs :=
    Function.update_eq_self i c.programs
  unfold turn
  cases hp : c.programs i with
  | done a =>
    rw [hp] at hsame
    exact ⟨_, _, .done a, by rw [hsame]⟩
  | fail e =>
    rw [hp] at hsame
    exact ⟨_, _, .fail e, by rw [hsame]⟩
  | observe next => exact ⟨_, _, .observe next, rfl⟩
  | step k next =>
    rw [hp] at hsame
    dsimp only
    split
    · rename_i hblocked
      exact ⟨_, _, .wait next hblocked, by rw [hsame]⟩
    · rename_i hfree
      exact ⟨_, _, .issue next (Bool.eq_false_iff.mpr hfree), rfl⟩

end Moves

def result : Proc σ κ ε α → Option (Except ε α)
  | .done a => some (.ok a)
  | .fail e => some (.error e)
  | .observe _ => none
  | .step _ _ => none

def Ended (c : Config ι σ κ ε α) : Prop := ∀ i, (result (c.programs i)).isSome = true

section Contracts
variable [Commands σ κ] [Locks κ] (May : ι → Moment ι σ κ → κ → Prop)

inductive Other (i : ι) (m : Moment ι σ κ) : Moment ι σ κ → Prop where
  | commit {j : ι} {c : κ} (hj : j ≠ i) (free : m.blocks c = false) (hc : May j m c) :
      Other i m (m.commit j c)

/-- What may happen between two moves of a party. -/
abbrev Rely (i : ι) : Moment ι σ κ → Moment ι σ κ → Prop := Relation.ReflTransGen (Other May i)

/-- Whatever the others may do, the party issues only what it may issue, and when it ends
`Q` holds of what it returned or raised. -/
def Meets (i : ι) (Q : Except ε α → Moment ι σ κ → Prop) : Proc σ κ ε α → Moment ι σ κ → Prop
  | .done a, m => ∀ n, Rely May i m n → Q (.ok a) n
  | .fail e, m => ∀ n, Rely May i m n → Q (.error e) n
  | .observe next, m => ∀ n, Rely May i m n → (Meets i Q (next n.state)) n
  | .step c next, m => ∀ n, Rely May i m n → n.blocks c = false →
    May i n c ∧ (Meets i Q (next n.state)) (n.commit i c)

variable {May} {i : ι} {Q : Except ε α → Moment ι σ κ → Prop}

theorem Meets.rely {p : Proc σ κ ε α} {m n : Moment ι σ κ} (h : Meets May i Q p m)
    (hmn : Rely May i m n) : Meets May i Q p n := by
  cases p with
  | done a => exact fun t ht => h t (hmn.trans ht)
  | fail e => exact fun t ht => h t (hmn.trans ht)
  | observe next => exact fun t ht => h t (hmn.trans ht)
  | step c next => exact fun t ht => h t (hmn.trans ht)

theorem Meets.result {p : Proc σ κ ε α} {m : Moment ι σ κ} {r : Except ε α}
    (h : Meets May i Q p m) (hr : result p = some r) : Q r m := by
  cases p with
  | done a =>
    cases hr
    exact h m .refl
  | fail e =>
    cases hr
    exact h m .refl
  | observe next => cases hr
  | step c next => cases hr

theorem Meets.of_reads {p : Proc σ κ ε α} (hp : p.Uses fun _ => False) (m : Moment ι σ κ) :
    Meets May i (fun _ _ => True) p m := by
  induction p generalizing m with
  | done a => exact fun _ _ => trivial
  | fail e => exact fun _ _ => trivial
  | observe next ih => exact fun n _ => ih _ (hp _) n
  | step c next ih => exact hp.1.elim

theorem Meets.moved {p q : Proc σ κ ε α} {m n : Moment ι σ κ} (h : Meets May i Q p m)
    (hmoved : Moved i m p q n) : Meets May i Q q n ∧
      (n = m ∨ ∃ c, m.blocks c = false ∧ May i m c ∧ n = m.commit i c) := by
  cases hmoved with
  | done a | fail e | wait next blocked => exact ⟨h, .inl rfl⟩
  | observe next => exact ⟨h m .refl, .inl rfl⟩
  | issue next free =>
    obtain ⟨hmay, hnext⟩ := h m .refl free
    exact ⟨hnext, .inr ⟨_, free, hmay, rfl⟩⟩

theorem Meets.mono {R : Except ε α → Moment ι σ κ → Prop} (hQR : ∀ r m, Q r m → R r m)
    {p : Proc σ κ ε α} {m : Moment ι σ κ} (h : Meets May i Q p m) : Meets May i R p m := by
  induction p generalizing m with
  | done a => exact fun n hn => hQR _ n (h n hn)
  | fail e => exact fun n hn => hQR _ n (h n hn)
  | observe next ih => exact fun n hn => ih _ (h n hn)
  | step c next ih => exact fun n hn hfree => ⟨(h n hn hfree).1, ih _ (h n hn hfree).2⟩

section Runs
variable [DecidableEq ι] {Qs : ι → Except ε α → Moment ι σ κ → Prop}

theorem meets_turn {c : Config ι σ κ ε α}
    (h : ∀ j, Meets May j (Qs j) (c.programs j) c.moment) (i : ι) :
    ∀ j, Meets May j (Qs j) ((turn c i).programs j) (turn c i).moment := by
  intro j
  obtain ⟨q, n, hmoved, hturn⟩ := turn_moved c i
  obtain ⟨hq, hissued⟩ := (h i).moved hmoved
  rw [hturn]
  dsimp only
  by_cases hj : j = i
  · subst hj
    rw [Function.update_self]
    exact hq
  · rw [Function.update_of_ne hj]
    rcases hissued with rfl | ⟨k, hfree, hmay, rfl⟩
    · exact h j
    · exact (h j).rely (.single (.commit (Ne.symm hj) hfree hmay))

theorem meets_play {c : Config ι σ κ ε α}
    (h : ∀ j, Meets May j (Qs j) (c.programs j) c.moment) (schedule : List ι) :
    ∀ j, Meets May j (Qs j) ((play c schedule).programs j) (play c schedule).moment := by
  induction schedule generalizing c with
  | nil => exact h
  | cons i schedule ih => exact ih (meets_turn h i)

theorem ended_play {c : Config ι σ κ ε α}
    (h : ∀ j, Meets May j (Qs j) (c.programs j) c.moment) {schedule : List ι}
    (hended : Ended (play c schedule)) (j : ι) : ∃ r, Qs j r (play c schedule).moment := by
  obtain ⟨r, hr⟩ := Option.isSome_iff_exists.mp (hended j)
  exact ⟨r, (meets_play h schedule j).result hr⟩

end Runs

variable (May i)

def Stable (P : Moment ι σ κ → Prop) : Prop :=
  ∀ m j c, j ≠ i → m.blocks c = false → May j m c → P m → P (m.commit j c)

/-- From `P` the procedure meets its contract and returns with `Q`; it may raise where
`E` holds. -/
def Outline (E P : Moment ι σ κ → Prop) (p : Proc σ κ ε α) (Q : α → Moment ι σ κ → Prop) : Prop :=
  ∀ m, P m → Meets May i (fun r n => r.casesOn (fun _ => E n) fun a => Q a n) p m

variable {May i} {E P P' : Moment ι σ κ → Prop} {M : α → Moment ι σ κ → Prop}
  {R : β → Moment ι σ κ → Prop}

theorem Stable.rely (hP : Stable May i P) {m n : Moment ι σ κ} (h : Rely May i m n) (hm : P m) :
    P n := by
  induction h with
  | refl => exact hm
  | tail _ hstep ih =>
    cases hstep with
    | commit hj free hc => exact hP _ _ _ hj free hc ih

theorem Outline.weaken {p : Proc σ κ ε α} (h : Outline May i E P p M)
    (hP : ∀ m, P' m → P m) : Outline May i E P' p M :=
  fun m hm => h m (hP m hm)

theorem Outline.mono {p : Proc σ κ ε α} {N : α → Moment ι σ κ → Prop}
    (h : Outline May i E P p M) (hMN : ∀ a m, M a m → N a m) : Outline May i E P p N := by
  refine fun m hm => (h m hm).mono fun r n hr => ?_
  cases r with
  | error e => exact hr
  | ok a => exact hMN a n hr

theorem Outline.pure {a : α} (hM : Stable May i (M a)) (h : ∀ m, P m → M a m) :
    Outline May i E P (pure a : Proc σ κ ε α) M :=
  fun m hm _ hn => hM.rely hn (h m hm)

theorem Outline.fail {e : ε} (hE : Stable May i E) :
    Outline May i E E (.fail e : Proc σ κ ε α) M :=
  fun _ hm _ hn => hE.rely hn hm

theorem Outline.read {f : σ → α} (hP : Stable May i P) (h : ∀ m, P m → M (f m.state) m)
    (hM : ∀ a, Stable May i (M a)) : Outline May i E P (Proc.read f : Proc σ κ ε α) M :=
  fun _ hm n hn _ hn' => (hM _).rely hn' (h n (hP.rely hn hm))

theorem Outline.performing {c : κ} {reply : σ → α} (hP : Stable May i P)
    (h : ∀ m, P m → m.blocks c = false → May i m c ∧ M (reply m.state) (m.commit i c))
    (hM : ∀ a, Stable May i (M a)) :
    Outline May i E P (Proc.performing c reply : Proc σ κ ε α) M :=
  fun _ hm n hn hfree =>
    ⟨(h n (hP.rely hn hm) hfree).1, fun _ hn' => (hM _).rely hn' (h n (hP.rely hn hm) hfree).2⟩

theorem Outline.perform {c : κ} {N : Moment ι σ κ → Prop} (hP : Stable May i P)
    (h : ∀ m, P m → m.blocks c = false → May i m c ∧ N (m.commit i c)) (hN : Stable May i N) :
    Outline May i E P (Proc.perform c : Proc σ κ ε Unit) fun _ => N :=
  fun _ hm n hn hfree =>
    ⟨(h n (hP.rely hn hm) hfree).1, fun _ hn' => hN.rely hn' (h n (hP.rely hn hm) hfree).2⟩

theorem Meets.bind {p : Proc σ κ ε α} {f : α → Proc σ κ ε β} {m : Moment ι σ κ}
    (hp : Meets May i (fun r n => r.casesOn (fun _ => E n) fun a => M a n) p m)
    (hf : ∀ a, Outline May i E (M a) (f a) R) :
    Meets May i (fun r n => r.casesOn (fun _ => E n) fun b => R b n) (p >>= f) m := by
  induction p generalizing m with
  | done a => exact hf a m (hp m .refl)
  | fail e => exact hp
  | observe next ih => exact fun n hn => ih _ (hp n hn)
  | step c next ih => exact fun n hn hfree => ⟨(hp n hn hfree).1, ih _ (hp n hn hfree).2⟩

theorem Outline.bind {p : Proc σ κ ε α} {f : α → Proc σ κ ε β} (hp : Outline May i E P p M)
    (hf : ∀ a, Outline May i E (M a) (f a) R) : Outline May i E P (p >>= f) R :=
  fun m hm => (hp m hm).bind hf

theorem Outline.forM {f : γ → Proc σ κ ε PUnit} {I : List γ → Moment ι σ κ → Prop}
    (hstep : ∀ x xs, Outline May i E (I (x :: xs)) (f x) fun _ => I xs)
    (hI : Stable May i (I [])) (xs : List γ) :
    Outline May i E (I xs) (xs.forM f) fun _ => I [] := by
  induction xs with
  | nil => exact Outline.pure hI fun _ hm => hm
  | cons x xs ih => exact (hstep x xs).bind fun _ => ih

theorem Outline.of_yields {Q : α → Prop} {p : Proc σ κ ε α} (hmay : ∀ m c, May i m c)
    (hp : p.Yields Q) : Outline May i (fun _ => True) (fun _ => True) p fun a _ => Q a := by
  intro m _
  induction p generalizing m with
  | done a => exact fun _ _ => hp
  | fail e => exact fun _ _ => trivial
  | observe next ih => exact fun n _ => ih _ (hp n.state) n
  | step c next ih => exact fun n _ _ => ⟨hmay n c, ih _ (hp n.state) _⟩

end Contracts

section Within
variable {τ ℓ : Type} (part : τ → σ) (issue : κ → ℓ)

/-- The procedure reads a part of a larger state, and issues its commands there. -/
def within : Proc σ κ ε α → Proc τ ℓ ε α
  | .done a => .done a
  | .fail e => .fail e
  | .observe next => .observe fun t => within (next (part t))
  | .step c next => .step (issue c) fun t => within (next (part t))

theorem within_bind (p : Proc σ κ ε α) (f : α → Proc σ κ ε β) :
    within part issue (p >>= f) = within part issue p >>= fun a => within part issue (f a) := by
  induction p with
  | done a => rfl
  | fail e => rfl
  | observe next ih => exact congrArg Proc.observe (funext fun t => ih (part t))
  | step c next ih => exact congrArg (Proc.step (issue c)) (funext fun t => ih (part t))

theorem uses_within {P : ℓ → Prop} (hP : ∀ c, P (issue c)) (p : Proc σ κ ε α) :
    (within part issue p).Uses P := by
  induction p with
  | done a => trivial
  | fail e => trivial
  | observe next ih => exact fun t => ih (part t)
  | step c next ih => exact ⟨hP c, fun t => ih (part t)⟩

theorem yields_within {Q : α → Prop} {p : Proc σ κ ε α} (hp : p.Yields Q) :
    (within part issue p).Yields Q := by
  induction p with
  | done a => exact hp
  | fail e => trivial
  | observe next ih => exact fun t => ih _ (hp (part t))
  | step c next ih => exact fun t => ih _ (hp (part t))

end Within
end StrataMemory.Interleavings
