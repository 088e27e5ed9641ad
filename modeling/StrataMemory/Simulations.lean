import StrataMemory.Procedures

set_option autoImplicit false

/-!
# Simulations of procedures

Two machines with commands of their own, and a view that takes the states of one to states of
the other. A procedure simulates another when they move in step: each command of the one is,
under the view, the command of the other. Stopped anywhere, the two stand at states that the
view connects.
-/
namespace StrataMemory.Simulations
open Procedures

variable {σ τ κ ι ε α β γ δ : Type} [Commands σ κ] [Commands τ ι]

/-- The first procedure does in the states of the view what the second does, and returns related
values. Only states with `I` count, and every command keeps it. -/
inductive Simulates (view : σ → τ) (I : σ → Prop) (R : β → α → Prop) :
    Proc τ ι ε β → Proc σ κ ε α → Prop where
  | done {b : β} {a : α} (h : R b a) : Simulates view I R (.done b) (.done a)
  | fail (e : ε) : Simulates view I R (.fail e) (.fail e)
  | observe {next : σ → Proc σ κ ε α} {next' : τ → Proc τ ι ε β}
      (h : ∀ s, I s → Simulates view I R (next' (view s)) (next s)) :
      Simulates view I R (.observe next') (.observe next)
  | step {c : κ} {c' : ι} {next : σ → Proc σ κ ε α} {next' : τ → Proc τ ι ε β}
      (hkeep : ∀ s, I s → I (Commands.apply c s))
      (hview : ∀ s, I s → Commands.apply c' (view s) = view (Commands.apply c s))
      (h : ∀ s, I s → Simulates view I R (next' (view s)) (next s)) :
      Simulates view I R (.step c' next') (.step c next)

variable {view : σ → τ} {I : σ → Prop} {R : β → α → Prop}

theorem Simulates.bind {S : δ → γ → Prop} {p : Proc σ κ ε α} {p' : Proc τ ι ε β}
    {k : α → Proc σ κ ε γ} {k' : β → Proc τ ι ε δ} (h : Simulates view I R p' p)
    (hk : ∀ b a, R b a → Simulates view I S (k' b) (k a)) :
    Simulates view I S (p' >>= k') (p >>= k) := by
  induction h with
  | done h => exact hk _ _ h
  | fail e => exact .fail e
  | observe _ ih => exact .observe ih
  | step hkeep hview _ ih => exact .step hkeep hview ih

theorem Simulates.pure {b : β} {a : α} (h : R b a) :
    Simulates view I R (Pure.pure b : Proc τ ι ε β) (Pure.pure a : Proc σ κ ε α) := .done h

theorem Simulates.read {f : σ → α} {f' : τ → β} (h : ∀ s, I s → R (f' (view s)) (f s)) :
    Simulates view I R (Proc.read f' : Proc τ ι ε β) (Proc.read f : Proc σ κ ε α) :=
  .observe fun s hs => .done (h s hs)

theorem Simulates.performing {c : κ} {c' : ι} {reply : σ → α} {reply' : τ → β}
    (hkeep : ∀ s, I s → I (Commands.apply c s))
    (hview : ∀ s, I s → Commands.apply c' (view s) = view (Commands.apply c s))
    (h : ∀ s, I s → R (reply' (view s)) (reply s)) :
    Simulates view I R (Proc.performing c' reply' : Proc τ ι ε β)
      (Proc.performing c reply : Proc σ κ ε α) :=
  .step hkeep hview fun s hs => .done (h s hs)

theorem Simulates.perform {c : κ} {c' : ι} (hkeep : ∀ s, I s → I (Commands.apply c s))
    (hview : ∀ s, I s → Commands.apply c' (view s) = view (Commands.apply c s)) :
    Simulates view I Eq (Proc.perform c' : Proc τ ι ε Unit)
      (Proc.perform c : Proc σ κ ε Unit) :=
  .performing hkeep hview fun _ _ => rfl

theorem Simulates.forM {xs : List γ} {k : γ → Proc σ κ ε PUnit} {k' : γ → Proc τ ι ε PUnit}
    (h : ∀ x ∈ xs, Simulates view I Eq (k' x) (k x)) :
    Simulates view I Eq (xs.forM k') (xs.forM k) := by
  induction xs with
  | nil => exact .done rfl
  | cons x xs ih =>
    exact (h x List.mem_cons_self).bind fun _ _ _ =>
      ih fun y hy => h y (List.mem_cons_of_mem _ hy)

theorem Simulates.run {p : Proc σ κ ε α} {p' : Proc τ ι ε α} (h : Simulates view I Eq p' p)
    {s : σ} (hs : I s) :
    I (p.run s).2 ∧ p'.run (view s) = ((p.run s).1, view (p.run s).2) := by
  induction h generalizing s with
  | done h =>
    cases h
    exact ⟨hs, rfl⟩
  | fail e => exact ⟨hs, rfl⟩
  | observe _ ih => exact ih s hs hs
  | @step c c' next next' hkeep hview _ ih =>
    have hnext := ih s hs (hkeep s hs)
    rw [← hview s hs] at hnext
    exact hnext

theorem Simulates.stopped {p : Proc σ κ ε α} {p' : Proc τ ι ε β} (h : Simulates view I R p' p)
    {s : σ} (hs : I s) (n : ℕ) :
    I (p.stopped n s) ∧ p'.stopped n (view s) = view (p.stopped n s) := by
  induction h generalizing s n with
  | done h => cases n <;> exact ⟨hs, rfl⟩
  | fail e => cases n <;> exact ⟨hs, rfl⟩
  | observe _ ih =>
    cases n with
    | zero => exact ⟨hs, rfl⟩
    | succ n => exact ih s hs hs n
  | @step c c' next next' hkeep hview _ ih =>
    cases n with
    | zero => exact ⟨hs, rfl⟩
    | succ n =>
      have hnext := ih s hs (hkeep s hs) n
      rw [← hview s hs] at hnext
      exact hnext

end StrataMemory.Simulations
