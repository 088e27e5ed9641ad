import Mathlib.Logic.Function.Conjugate

set_option autoImplicit false

namespace StrataMemory.Reorderings

variable {α σ : Type} {act : α → σ → σ}

def replay (act : α → σ → σ) (xs : List α) (s : σ) : σ := xs.foldl (fun s a => act a s) s

@[simp] theorem replay_nil (s : σ) : replay act [] s = s := rfl

@[simp] theorem replay_cons (a : α) (xs : List α) (s : σ) :
    replay act (a :: xs) s = replay act xs (act a s) := rfl

@[simp] theorem replay_append (xs ys : List α) (s : σ) :
    replay act (xs ++ ys) s = replay act ys (replay act xs s) := List.foldl_append

def Idempotent (act : α → σ → σ) (a : α) : Prop := ∀ s, act a (act a s) = act a s

theorem replay_commute {xs : List α} {b : α} (h : ∀ a ∈ xs, Function.Commute (act a) (act b)) (s : σ) :
    replay act xs (act b s) = act b (replay act xs s) := by
  induction xs generalizing s with
  | nil => rfl
  | cons a xs ih =>
    rw [replay_cons, replay_cons, h a List.mem_cons_self s]
    exact ih (fun x hx => h x (List.mem_cons_of_mem _ hx)) _

theorem replay_view {τ : Type} {act' : α → τ → τ} {view : τ → σ}
    (h : ∀ a t, view (act' a t) = act a (view t)) (xs : List α) (t : τ) :
    view (replay act' xs t) = replay act xs (view t) := by
  induction xs generalizing t with
  | nil => rfl
  | cons a xs ih => rw [replay_cons, replay_cons, ih, h]

theorem replay_taken {before : List α} {b : α} (h : ∀ a ∈ before, Function.Commute (act a) (act b))
    (after : List α) (s : σ) :
    replay act (before ++ after) (act b s) = replay act (before ++ b :: after) s := by
  rw [replay_append, replay_append, replay_cons, replay_commute h]

theorem replay_redone {before : List α} {b : α} (h : ∀ a ∈ before, Function.Commute (act a) (act b))
    (hb : Idempotent act b) (after : List α) (s : σ) :
    replay act (before ++ b :: after) (act b s) = replay act (before ++ b :: after) s := by
  rw [replay_append, replay_append, replay_cons, replay_cons, replay_commute h, hb]

end StrataMemory.Reorderings
