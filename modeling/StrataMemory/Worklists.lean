import Mathlib.Data.List.Count
import Mathlib.Data.Nat.Notation
import Mathlib.Logic.Function.Iterate
import Mathlib.Logic.Relation

set_option autoImplicit false

/-!
# Work lists

An exploration takes items from a stack, skips those it has seen, and pushes the successors
of the others. Where each item pays for its own successors, the fuel of all of them is
enough to leave nothing unexplored.
-/
namespace StrataMemory.Worklists

variable {α : Type} {next : α → List α}

/-- One unit of `fuel` pays for one pop. -/
def explore [DecidableEq α] (next : α → List α) : ℕ → List α → List α → List α
  | 0, seen, _ => seen
  | _ + 1, seen, [] => seen
  | fuel + 1, seen, current :: pending =>
    if current ∈ seen then explore next fuel seen pending
    else explore next fuel (current :: seen)
      (((next current).filter (· ∉ current :: seen)).reverse ++ pending)

/-- One turn of the exploration: pop an item, and push its successors if it is new. -/
def turn [DecidableEq α] (next : α → List α) : List α × List α → List α × List α
  | (seen, []) => (seen, [])
  | (seen, current :: pending) =>
    if current ∈ seen then (seen, pending)
    else (current :: seen, ((next current).filter (· ∉ current :: seen)).reverse ++ pending)

theorem turn_cons [DecidableEq α] (seen pending : List α) (current : α) :
    turn next (seen, current :: pending) = if current ∈ seen then (seen, pending)
      else (current :: seen, ((next current).filter (· ∉ current :: seen)).reverse ++ pending) := rfl

/-- Fuel is the number of turns. -/
theorem explore_eq_turns [DecidableEq α] (fuel : ℕ) (seen pending : List α) :
    explore next fuel seen pending = ((turn next)^[fuel] (seen, pending)).1 := by
  induction fuel generalizing seen pending with
  | zero => rfl
  | succ fuel ih =>
    cases pending with
    | nil => exact (congrArg Prod.fst (Function.iterate_fixed (x := (seen, [])) rfl _)).symm
    | cons current pending =>
      rw [Function.iterate_succ_apply, turn_cons]
      unfold explore
      split
      · exact ih seen pending
      · exact ih (current :: seen) _

/-- Successors of what has been seen are seen, or wait. -/
def Waiting (next : α → List α) (seen pending : List α) : Prop :=
  ∀ a ∈ seen, ∀ b ∈ next a, b ∈ seen ∨ b ∈ pending

theorem Waiting.skip {seen pending : List α} {current : α}
    (h : Waiting next seen (current :: pending)) (hseen : current ∈ seen) :
    Waiting next seen pending := by
  intro a ha b hb
  rcases h a ha b hb with hb | hb
  · exact .inl hb
  · rcases List.mem_cons.mp hb with rfl | hb
    · exact .inl hseen
    · exact .inr hb

theorem Waiting.visit [DecidableEq α] {seen pending : List α} {current : α}
    (h : Waiting next seen (current :: pending)) :
    Waiting next (current :: seen)
      (((next current).filter (· ∉ current :: seen)).reverse ++ pending) := by
  intro a ha b hb
  by_cases hseen : b ∈ current :: seen
  · exact .inl hseen
  · refine .inr (List.mem_append.mpr ?_)
    rcases List.mem_cons.mp ha with rfl | ha
    · exact .inl (List.mem_reverse.mpr (List.mem_filter.mpr ⟨hb, decide_eq_true hseen⟩))
    · have hwaits := (h a ha b hb).resolve_left fun hmem => hseen (List.mem_cons_of_mem _ hmem)
      exact .inr ((List.mem_cons.mp hwaits).resolve_left fun heq => hseen (heq ▸ List.mem_cons_self))

theorem countP_visit [DecidableEq α] (ends : List α) {seen : List α} {current : α} (hseen : current ∉ seen) :
    ends.countP (· ∉ seen) = ends.count current + ends.countP (· ∉ current :: seen) := by
  induction ends with
  | nil => rfl
  | cons a ends ih =>
    rw [List.countP_cons, List.countP_cons, List.count_cons, ih]
    by_cases hsame : a = current
    · subst hsame
      simp [hseen]
      omega
    · simp [hsame]
      omega

structure Explored (next : α → List α) (seen pending found : List α) : Prop where
  seen : ∀ a ∈ seen, a ∈ found
  pending : ∀ a ∈ pending, a ∈ found
  closed : ∀ a ∈ found, ∀ b ∈ next a, b ∈ found

theorem explored_nil {seen : List α} (h : Waiting next seen []) : Explored next seen [] seen where
  seen _ ha := ha
  pending _ ha := absurd ha List.not_mem_nil
  closed a ha b hb := (h a ha b hb).resolve_right List.not_mem_nil

theorem explored [DecidableEq α] {ends : List α}
    (hends : ∀ a, (next a).length ≤ ends.count a) {fuel : ℕ} {seen pending : List α}
    (hfuel : pending.length + ends.countP (· ∉ seen) ≤ fuel) (h : Waiting next seen pending) :
    Explored next seen pending (explore next fuel seen pending) := by
  induction fuel generalizing seen pending with
  | zero =>
    have hempty : pending = [] := List.length_eq_zero_iff.mp (by omega)
    subst hempty
    exact explored_nil h
  | succ fuel ih =>
    cases pending with
    | nil => exact explored_nil h
    | cons current pending =>
      rw [List.length_cons] at hfuel
      unfold explore
      split
      · rename_i hseen
        have hrest := ih (by omega) (h.skip hseen)
        refine ⟨hrest.seen, fun a ha => ?_, hrest.closed⟩
        rcases List.mem_cons.mp ha with rfl | ha
        · exact hrest.seen _ hseen
        · exact hrest.pending a ha
      · rename_i hseen
        have hpushed : ((next current).filter (· ∉ current :: seen)).length ≤ ends.count current :=
          Nat.le_trans (List.length_filter_le _ _) (hends current)
        have hspent := countP_visit ends hseen
        have hrest := ih (by rw [List.length_append, List.length_reverse]; omega) h.visit
        refine ⟨fun a ha => hrest.seen a (List.mem_cons_of_mem _ ha), fun a ha => ?_, hrest.closed⟩
        rcases List.mem_cons.mp ha with rfl | ha
        · exact hrest.seen _ List.mem_cons_self
        · exact hrest.pending a (List.mem_append_right _ ha)

/-- With enough fuel the stack is empty in the end. -/
theorem turns_end [DecidableEq α] {ends : List α}
    (hends : ∀ a, (next a).length ≤ ends.count a) {fuel : ℕ} {seen pending : List α}
    (hfuel : pending.length + ends.countP (· ∉ seen) ≤ fuel) :
    ((turn next)^[fuel] (seen, pending)).2 = [] := by
  induction fuel generalizing seen pending with
  | zero =>
    have hempty : pending = [] := List.length_eq_zero_iff.mp (by omega)
    exact hempty
  | succ fuel ih =>
    cases pending with
    | nil => exact congrArg Prod.snd (Function.iterate_fixed (x := (seen, [])) rfl _)
    | cons current pending =>
      rw [List.length_cons] at hfuel
      rw [Function.iterate_succ_apply, turn_cons]
      split
      · exact ih (by omega)
      · rename_i hseen
        have hpushed : ((next current).filter (· ∉ current :: seen)).length ≤ ends.count current :=
          Nat.le_trans (List.length_filter_le _ _) (hends current)
        have hspent := countP_visit ends hseen
        exact ih (by rw [List.length_append, List.length_reverse]; omega)

def Reach (next : α → List α) : α → α → Prop := Relation.ReflTransGen fun a b => b ∈ next a

theorem reach_of_mem_explore [DecidableEq α] {fuel : ℕ} {seen pending : List α} {b : α}
    (hb : b ∈ explore next fuel seen pending) : b ∈ seen ∨ ∃ a ∈ pending, Reach next a b := by
  induction fuel generalizing seen pending with
  | zero => exact .inl hb
  | succ fuel ih =>
    cases pending with
    | nil => exact .inl hb
    | cons current pending =>
      unfold explore at hb
      split at hb
      · refine (ih hb).imp_right ?_
        rintro ⟨a, ha, hreach⟩
        exact ⟨a, List.mem_cons_of_mem _ ha, hreach⟩
      · rcases ih hb with hseen | ⟨a, ha, hreach⟩
        · rcases List.mem_cons.mp hseen with rfl | hseen
          · exact .inr ⟨b, List.mem_cons_self, .refl⟩
          · exact .inl hseen
        · rcases List.mem_append.mp ha with ha | ha
          · have hnext : a ∈ next current := (List.mem_filter.mp (List.mem_reverse.mp ha)).1
            exact .inr ⟨current, List.mem_cons_self, .head hnext hreach⟩
          · exact .inr ⟨a, List.mem_cons_of_mem _ ha, hreach⟩

theorem Explored.reach {seen pending found : List α} (h : Explored next seen pending found) {a b : α}
    (ha : a ∈ found) (hreach : Reach next a b) : b ∈ found := by
  induction hreach with
  | refl => exact ha
  | tail _ hnext ih => exact h.closed _ ih _ hnext

theorem mem_explore_iff [DecidableEq α] {ends : List α}
    (hends : ∀ a, (next a).length ≤ ends.count a) {fuel : ℕ} {a b : α}
    (hfuel : ends.length + 1 ≤ fuel) : b ∈ explore next fuel [] [a] ↔ Reach next a b := by
  have hpaid : [a].length + ends.countP (· ∉ ([] : List α)) ≤ fuel := by
    have hall : ends.countP (· ∉ ([] : List α)) ≤ ends.length := List.countP_le_length
    rw [List.length_singleton]
    omega
  constructor
  · intro hb
    obtain ⟨c, hc, hreach⟩ := (reach_of_mem_explore hb).resolve_left List.not_mem_nil
    cases List.mem_singleton.mp hc
    exact hreach
  · have hfound := explored hends hpaid fun _ h => absurd h List.not_mem_nil
    exact hfound.reach (hfound.pending a (List.mem_singleton_self a))

end StrataMemory.Worklists
