import Mathlib.Data.List.Basic

set_option autoImplicit false

/-!
# Histories of events

Events of type `γ` are taken one after another. A requirement on each step of a run is
one on the state before it; an event has been in force since it happened unless another
has undone it.
-/
namespace StrataMemory.Histories

variable {σ γ : Type}

section Along
variable {step : σ → γ → σ}

/-- Every event of the run meets `P` in the state in which it is taken. -/
def Along (step : σ → γ → σ) (P : σ → γ → Prop) : σ → List γ → Prop
  | _, [] => True
  | s, c :: cs => P s c ∧ Along step P (step s c) cs

/-- Every state that the run comes to satisfies `I`. -/
def AfterEach (step : σ → γ → σ) (I : σ → Prop) : σ → List γ → Prop :=
  Along step fun s c => I (step s c)

/-- Requirements that agree at each step from states that satisfy `J` agree on the run,
when steps that meet them keep `J`. -/
theorem along_iff {J : σ → Prop} {P Q : σ → γ → Prop} {s : σ} {cs : List γ}
    (hiff : ∀ s, ∀ c ∈ cs, J s → (P s c ↔ Q s c))
    (hkeep : ∀ s, ∀ c ∈ cs, J s → Q s c → J (step s c)) (hs : J s) :
    Along step P s cs ↔ Along step Q s cs := by
  induction cs generalizing s with
  | nil => exact Iff.rfl
  | cons c cs ih =>
    have hhead := hiff s c List.mem_cons_self hs
    have htail : Q s c → (Along step P (step s c) cs ↔ Along step Q (step s c) cs) := fun hq =>
      ih (fun t d hd => hiff t d (List.mem_cons_of_mem _ hd))
        (fun t d hd => hkeep t d (List.mem_cons_of_mem _ hd))
        (hkeep s c List.mem_cons_self hs hq)
    constructor
    · rintro ⟨hp, hrest⟩
      exact ⟨hhead.mp hp, (htail (hhead.mp hp)).mp hrest⟩
    · rintro ⟨hq, hrest⟩
      exact ⟨hhead.mpr hq, (htail hq).mpr hrest⟩

theorem Along.imp {P Q : σ → γ → Prop} {s : σ} {cs : List γ} (h : Along step P s cs)
    (hPQ : ∀ s c, P s c → Q s c) : Along step Q s cs := by
  induction cs generalizing s with
  | nil => trivial
  | cons c cs ih => exact ⟨hPQ s c h.1, ih h.2⟩

theorem afterEach_of_along {J : σ → Prop} {P : σ → γ → Prop} {s : σ} {cs : List γ}
    (hkeep : ∀ s, ∀ c ∈ cs, J s → P s c → J (step s c)) (hs : J s) (h : Along step P s cs) :
    AfterEach step J s cs := by
  induction cs generalizing s with
  | nil => trivial
  | cons c cs ih =>
    have hc := hkeep s c List.mem_cons_self hs h.1
    exact ⟨hc, ih (fun t d hd => hkeep t d (List.mem_cons_of_mem _ hd)) hc h.2⟩

theorem along_append {P : σ → γ → Prop} {s : σ} {cs ds : List γ} :
    Along step P s (cs ++ ds) ↔ Along step P s cs ∧ Along step P (cs.foldl step s) ds := by
  induction cs generalizing s with
  | nil => exact (iff_of_eq (true_and _)).symm
  | cons c cs ih =>
    change P s c ∧ Along step P (step s c) (cs ++ ds) ↔ _
    rw [ih, ← and_assoc]
    exact Iff.rfl

theorem AfterEach.last {I : σ → Prop} {s : σ} {cs : List γ} (hs : I s)
    (h : AfterEach step I s cs) : I (cs.foldl step s) := by
  induction cs generalizing s with
  | nil => exact hs
  | cons c cs ih => exact ih h.1 h.2

end Along

/-- An event has happened that met `p` after the events before it, and since then none has
met `q`. -/
def SinceAt (p q : List γ → γ → Prop) (h : List γ) : Prop :=
  ∃ before e after, h = before ++ e :: after ∧ p before e ∧
    ∀ c x d, after = c ++ x :: d → ¬ q (before ++ e :: c) x

/-- An event that satisfies `p` has happened, and none that satisfies `q` after it. -/
def Since (p q : γ → Prop) : List γ → Prop := SinceAt (fun _ => p) fun _ => q

@[simp] theorem not_sinceAt_nil (p q : List γ → γ → Prop) : ¬ SinceAt p q [] := by
  rintro ⟨before, e, after, h, _⟩
  exact absurd h.symm (List.append_ne_nil_of_right_ne_nil _ (List.cons_ne_nil _ _))

theorem sinceAt_concat (p q : List γ → γ → Prop) (h : List γ) (e : γ) :
    SinceAt p q (h ++ [e]) ↔ p h e ∨ SinceAt p q h ∧ ¬ q h e := by
  constructor
  · rintro ⟨before, x, after, heq, hx, hafter⟩
    rcases after.eq_nil_or_concat' with rfl | ⟨after, y, rfl⟩
    · obtain ⟨rfl, hlast⟩ := List.append_inj' heq rfl
      cases hlast
      exact .inl hx
    · rw [← List.cons_append, ← List.append_assoc] at heq
      obtain ⟨rfl, hlast⟩ := List.append_inj' heq rfl
      cases hlast
      refine .inr ⟨⟨before, x, after, rfl, hx, fun c y d hc => ?_⟩, hafter after e [] rfl⟩
      exact hafter c y (d ++ [e]) (by rw [hc, List.append_assoc, List.cons_append])
  · rintro (he | ⟨⟨before, x, after, rfl, hx, hafter⟩, hq⟩)
    · exact ⟨h, e, [], rfl, he, fun c x d hc => absurd hc.symm (by simp)⟩
    · refine ⟨before, x, after ++ [e], by simp, hx, fun c y d hc => ?_⟩
      rcases d.eq_nil_or_concat' with rfl | ⟨d, z, rfl⟩
      · obtain ⟨rfl, hlast⟩ := List.append_inj' hc rfl
        cases hlast
        exact hq
      · rw [← List.cons_append, ← List.append_assoc] at hc
        exact hafter c y d (List.append_inj' hc rfl).1

theorem since_concat (p q : γ → Prop) (h : List γ) (e : γ) :
    Since p q (h ++ [e]) ↔ p e ∨ Since p q h ∧ ¬ q e :=
  sinceAt_concat _ _ h e

theorem since_concat_of_not {p q : γ → Prop} (h : List γ) {e : γ} (hp : ¬ p e) (hq : ¬ q e) :
    Since p q (h ++ [e]) ↔ Since p q h := by
  rw [since_concat]
  exact ⟨fun hor => hor.elim (fun he => absurd he hp) And.left, fun hs => .inr ⟨hs, hq⟩⟩

end StrataMemory.Histories
