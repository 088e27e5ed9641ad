import StrataMemory.Interleavings

set_option autoImplicit false

/-!
# Readers

A procedure that only reads, while others write. Each of its reads may see another
state, so what it returns is decided by the list of the states that its reads have seen.
-/
namespace StrataMemory.Readers
open Procedures Interleavings

variable {ι σ κ ε α β γ δ : Type}

/-- After its reads have seen the states, oldest first, the second procedure is left. -/
inductive Sees : Proc σ κ ε α → List σ → Proc σ κ ε α → Prop where
  | here (p : Proc σ κ ε α) : Sees p [] p
  | read {next : σ → Proc σ κ ε α} {s : σ} {states : List σ} {q : Proc σ κ ε α}
      (tail : Sees (next s) states q) : Sees (.observe next) (s :: states) q

/-- The procedure ends with the result once its reads have seen the states. -/
inductive Ends : Proc σ κ ε α → List σ → Except ε α → Prop where
  | done (a : α) : Ends (.done a) [] (.ok a)
  | fail (e : ε) : Ends (.fail e) [] (.error e)
  | read {next : σ → Proc σ κ ε α} {s : σ} {states : List σ} {r : Except ε α}
      (tail : Ends (next s) states r) : Ends (.observe next) (s :: states) r

theorem Sees.trans {p q t : Proc σ κ ε α} {states more : List σ} (h : Sees p states q)
    (h' : Sees q more t) : Sees p (states ++ more) t := by
  induction h with
  | here p => exact h'
  | read _ ih => exact .read (ih h')

theorem Sees.uses {P : κ → Prop} {p q : Proc σ κ ε α} {states : List σ} (h : Sees p states q)
    (hp : p.Uses P) : q.Uses P := by
  induction h with
  | here p => exact hp
  | read _ ih => exact ih (hp _)

theorem Sees.ends {p q : Proc σ κ ε α} {states : List σ} {r : Except ε α} (h : Sees p states q)
    (hr : result q = some r) : Ends p states r := by
  induction h with
  | here p =>
    cases p with
    | done a =>
      cases hr
      exact .done a
    | fail e =>
      cases hr
      exact .fail e
    | observe next => cases hr
    | step c next => cases hr
  | read _ ih => exact .read (ih hr)

theorem Ends.of_pure {a b : α} {states : List σ}
    (h : Ends (pure a : Proc σ κ ε α) states (.ok b)) : b = a := by
  cases h
  rfl

theorem Ends.of_read {f : σ → α} {states : List σ} {a : α}
    (h : Ends (Proc.read f : Proc σ κ ε α) states (.ok a)) : ∃ s ∈ states, a = f s := by
  cases h with
  | read tail =>
    cases tail
    exact ⟨_, List.mem_cons_self, rfl⟩

theorem Ends.of_bind {p : Proc σ κ ε α} {f : α → Proc σ κ ε β} {states : List σ} {b : β}
    (h : Ends (p >>= f) states (.ok b)) :
    ∃ a front back, states = front ++ back ∧ Ends p front (.ok a) ∧ Ends (f a) back (.ok b) := by
  induction p generalizing states with
  | done a => exact ⟨a, [], states, rfl, .done a, h⟩
  | fail e => cases h
  | observe next ih =>
    cases h with
    | read tail =>
      obtain ⟨a, front, back, rfl, hp, hf⟩ := ih _ tail
      exact ⟨a, _ :: front, back, rfl, .read hp, hf⟩
  | step c next ih => cases h

def gather (f : γ → Proc σ κ ε (List δ)) : List γ → Proc σ κ ε (List δ)
  | [] => return []
  | x :: xs => do
    let found ← f x
    let more ← gather f xs
    return found ++ more

/-- Whether an element passes; the loop ends with the first that does. -/
def anyOf (f : γ → Proc σ κ ε Bool) : List γ → Proc σ κ ε Bool
  | [] => return false
  | x :: xs => do
    if ← f x then return true
    else anyOf f xs

theorem uses_gather {P : κ → Prop} {f : γ → Proc σ κ ε (List δ)} (hf : ∀ x, (f x).Uses P)
    (xs : List γ) : (gather f xs).Uses P := by
  induction xs with
  | nil => trivial
  | cons x xs ih => exact (hf x).bind fun _ => ih.bind fun _ => Proc.uses_pure P _

theorem uses_anyOf {P : κ → Prop} {f : γ → Proc σ κ ε Bool} (hf : ∀ x, (f x).Uses P)
    (xs : List γ) : (anyOf f xs).Uses P := by
  induction xs with
  | nil => trivial
  | cons x xs ih =>
    refine (hf x).bind fun passes => ?_
    cases passes with
    | true => exact Proc.uses_pure P _
    | false => exact ih

theorem Ends.of_gather {f : γ → Proc σ κ ε (List δ)} {xs : List γ} {states : List σ}
    {items : List δ} (h : Ends (gather f xs) states (.ok items)) {item : δ} (hitem : item ∈ items) :
    ∃ x ∈ xs, ∃ part ⊆ states, ∃ found, Ends (f x) part (.ok found) ∧ item ∈ found := by
  induction xs generalizing states items with
  | nil =>
    cases Ends.of_pure h
    cases hitem
  | cons x xs ih =>
    obtain ⟨found, front, rest, rfl, hfound, htail⟩ := h.of_bind
    obtain ⟨more, middle, back, rfl, hmore, hdone⟩ := htail.of_bind
    cases hdone.of_pure
    rcases List.mem_append.mp hitem with hitem | hitem
    · exact ⟨x, List.mem_cons_self, front, List.subset_append_left _ _, found, hfound, hitem⟩
    · obtain ⟨y, hy, part, hpart, found', hfound', hitem'⟩ := ih hmore hitem
      refine ⟨y, List.mem_cons_of_mem _ hy, part, fun s hs => ?_, found', hfound', hitem'⟩
      exact List.mem_append_right _ (List.mem_append_left _ (hpart hs))

theorem Ends.gathers {f : γ → Proc σ κ ε (List δ)} {xs : List γ} {states : List σ}
    {items : List δ} (h : Ends (gather f xs) states (.ok items)) {x : γ} (hx : x ∈ xs) :
    ∃ part ⊆ states, ∃ found ⊆ items, Ends (f x) part (.ok found) := by
  induction xs generalizing states items with
  | nil => cases hx
  | cons y xs ih =>
    obtain ⟨found, front, rest, rfl, hfound, htail⟩ := h.of_bind
    obtain ⟨more, middle, back, rfl, hmore, hdone⟩ := htail.of_bind
    cases hdone.of_pure
    rcases List.mem_cons.mp hx with rfl | hx
    · exact ⟨front, List.subset_append_left _ _, found, List.subset_append_left _ _, hfound⟩
    · obtain ⟨part, hpart, found', hsub, hfound'⟩ := ih hmore hx
      refine ⟨part, fun s hs => ?_, found', fun i hi => List.mem_append_right _ (hsub hi), hfound'⟩
      exact List.mem_append_right _ (List.mem_append_left _ (hpart hs))

theorem Ends.of_anyOf {f : γ → Proc σ κ ε Bool} {xs : List γ} {states : List σ}
    (h : Ends (anyOf f xs) states (.ok false)) {x : γ} (hx : x ∈ xs) :
    ∃ part ⊆ states, Ends (f x) part (.ok false) := by
  induction xs generalizing states with
  | nil => cases hx
  | cons y xs ih =>
    obtain ⟨answer, front, back, rfl, hanswer, htail⟩ := h.of_bind
    cases answer with
    | true => exact absurd htail.of_pure (by decide)
    | false =>
      rcases List.mem_cons.mp hx with rfl | hx
      · exact ⟨front, List.subset_append_left _ _, hanswer⟩
      · obtain ⟨part, hpart, hpasses⟩ := ih htail hx
        exact ⟨part, fun s hs => List.mem_append_right _ (hpart hs), hpasses⟩

section Alone
variable [Commands σ κ]

theorem run_gather {f : γ → Proc σ κ ε (List δ)} {g : γ → List δ} {s : σ} {xs : List γ}
    (hf : ∀ x ∈ xs, (f x).run s = (.ok (g x), s)) :
    (gather f xs).run s = (.ok (xs.flatMap g), s) := by
  induction xs with
  | nil => rfl
  | cons x xs ih =>
    change (f x >>= fun found => gather f xs >>= fun more => pure (found ++ more)).run s = _
    rw [Proc.run_bind_ok (hf x List.mem_cons_self),
      Proc.run_bind_ok (ih fun y hy => hf y (List.mem_cons_of_mem _ hy))]
    rfl

theorem run_anyOf {f : γ → Proc σ κ ε Bool} {g : γ → Bool} {s : σ}
    (hf : ∀ x, (f x).run s = (.ok (g x), s)) (xs : List γ) :
    (anyOf f xs).run s = (.ok (xs.any g), s) := by
  induction xs with
  | nil => rfl
  | cons x xs ih =>
    change (f x >>= fun found => if found then pure true else anyOf f xs).run s = _
    rw [Proc.run_bind_ok (hf x), List.any_cons]
    cases g x with
    | true => rfl
    | false => exact ih

end Alone

section Among
variable [Commands σ κ] [Locks κ] [DecidableEq ι]

/-- The states before each move of a schedule, and after the last. -/
def visited (c : Config ι σ κ ε α) : List ι → List σ
  | [] => [c.moment.state]
  | i :: schedule => c.moment.state :: visited (turn c i) schedule

theorem visited_keeps {I : σ → Prop} (hI : ∀ (k : κ) s, I s → I (Commands.apply k s))
    (c : Config ι σ κ ε α) (hc : I c.moment.state) (schedule : List ι) :
    ∀ s ∈ visited c schedule, I s := by
  induction schedule generalizing c with
  | nil =>
    intro s hs
    cases List.mem_singleton.mp hs
    exact hc
  | cons i schedule ih =>
    have hturn : I (turn c i).moment.state := by
      obtain ⟨q, n, hmoved, hturn⟩ := turn_moved c i
      rw [hturn]
      generalize c.programs i = p at hmoved
      cases hmoved with
      | done a | fail e | wait next blocked | observe next => exact hc
      | issue next free => exact hI _ _ hc
    intro s hs
    rcases List.mem_cons.mp hs with rfl | hs
    · exact hc
    · exact ih (turn c i) hturn s hs

/-- A party that only reads sees, in their order, states that the schedule visits. -/
theorem sees_play (c : Config ι σ κ ε α) {i : ι} (hreads : (c.programs i).Uses fun _ => False)
    (schedule : List ι) : ∃ states, states.Sublist (visited c schedule) ∧
      Sees (c.programs i) states ((play c schedule).programs i) := by
  induction schedule generalizing c with
  | nil => exact ⟨[], List.nil_sublist _, .here _⟩
  | cons j schedule ih =>
    obtain ⟨q, n, hmoved, hturn⟩ := turn_moved c j
    -- The move of the reader is a read, and the others leave its procedure alone.
    have hfirst : ∃ first, first.Sublist [c.moment.state] ∧
        Sees (c.programs i) first ((turn c j).programs i) := by
      rw [hturn]
      dsimp only
      by_cases hi : i = j
      · subst hi
        rw [Function.update_self]
        generalize c.programs i = p at hmoved hreads
        cases hmoved with
        | done a | fail e | wait next blocked => exact ⟨[], List.nil_sublist _, .here _⟩
        | observe next => exact ⟨_, List.Sublist.refl _, .read (.here _)⟩
        | issue next free => exact hreads.1.elim
      · rw [Function.update_of_ne hi]
        exact ⟨[], List.nil_sublist _, .here _⟩
    obtain ⟨first, hsub, hsees⟩ := hfirst
    obtain ⟨states, hstates, hrest⟩ := ih (turn c j) (hsees.uses hreads)
    exact ⟨first ++ states, hsub.append hstates, hsees.trans hrest⟩

end Among
end StrataMemory.Readers
