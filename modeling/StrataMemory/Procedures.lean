import Mathlib.Data.Nat.Notation

set_option autoImplicit false

/-!
# Procedures over a shared state

A procedure is a tree of commands: it reads the state, issues a command, and
chooses what to do next from what it read. The meaning of a command is one
function on states, so whatever is proved of that function holds of every
procedure, at every point where it may be interrupted.
-/
namespace StrataMemory.Procedures

/-- Commands `κ` act on states `σ`. -/
class Commands (σ : outParam Type) (κ : Type) where
  apply : κ → σ → σ

/-- A command is one atomic step; its continuation sees the state before it. -/
inductive Proc (σ κ ε α : Type) : Type where
  | done (a : α)
  | fail (e : ε)
  | observe (next : σ → Proc σ κ ε α)
  | step (c : κ) (next : σ → Proc σ κ ε α)

namespace Proc
variable {σ κ ε α β γ ι : Type}

def bind : Proc σ κ ε α → (α → Proc σ κ ε β) → Proc σ κ ε β
  | .done a, f => f a
  | .fail e, _ => .fail e
  | .observe next, f => .observe fun s => (next s).bind f
  | .step c next, f => .step c fun s => (next s).bind f

instance : Monad (Proc σ κ ε) where
  pure := .done
  bind := bind

theorem bind_assoc (p : Proc σ κ ε α) (f : α → Proc σ κ ε β) (g : β → Proc σ κ ε γ) :
    (p.bind f).bind g = p.bind fun a => (f a).bind g := by
  induction p with
  | done a => rfl
  | fail e => rfl
  | observe next ih => exact congrArg Proc.observe (funext ih)
  | step c next ih => exact congrArg (Proc.step c) (funext ih)

theorem bind_done (p : Proc σ κ ε α) : p.bind .done = p := by
  induction p with
  | done a => rfl
  | fail e => rfl
  | observe next ih => exact congrArg Proc.observe (funext ih)
  | step c next ih => exact congrArg (Proc.step c) (funext ih)

instance : LawfulMonad (Proc σ κ ε) :=
  LawfulMonad.mk' (Proc σ κ ε) bind_done (fun _ _ => rfl) bind_assoc

def read (f : σ → α) : Proc σ κ ε α := .observe fun s => .done (f s)

def perform (c : κ) : Proc σ κ ε Unit := .step c fun _ => .done ()

/-- Issue one command whose reply is a function of the state it acts on. -/
def performing (c : κ) (reply : σ → α) : Proc σ κ ε α := .step c fun s => .done (reply s)

section Execution
variable [Commands σ κ]

def run : Proc σ κ ε α → σ → Except ε α × σ
  | .done a, s => (.ok a, s)
  | .fail e, s => (.error e, s)
  | .observe next, s => (next s).run s
  | .step c next, s => (next s).run (Commands.apply c s)

def trace : Proc σ κ ε α → σ → List κ
  | .done _, _ => []
  | .fail _, _ => []
  | .observe next, s => (next s).trace s
  | .step c next, s => c :: (next s).trace (Commands.apply c s)

abbrev final (p : Proc σ κ ε α) (s : σ) : σ := (p.run s).2

@[simp] theorem run_pure (a : α) (s : σ) : (pure a : Proc σ κ ε α).run s = (.ok a, s) := rfl
@[simp] theorem run_read (f : σ → α) (s : σ) :
    (read f : Proc σ κ ε α).run s = (.ok (f s), s) := rfl
theorem run_bind (p : Proc σ κ ε α) (f : α → Proc σ κ ε β) (s : σ) :
    (p >>= f).run s = match p.run s with
      | (.ok a, t) => (f a).run t
      | (.error e, t) => (.error e, t) := by
  induction p generalizing s with
  | done a => rfl
  | fail e => rfl
  | observe next ih => exact ih s s
  | step c next ih => exact ih s _

theorem run_bind_ok {p : Proc σ κ ε α} {f : α → Proc σ κ ε β} {s t : σ} {a : α}
    (h : p.run s = (.ok a, t)) : (p >>= f).run s = (f a).run t := by
  rw [run_bind, h]

/-- Small steps: `p` in state `s` can be stopped with `q` left to do in state `t`,
having issued the commands `cs`. -/
inductive Reaches : Proc σ κ ε α → σ → List κ → Proc σ κ ε α → σ → Prop where
  | here (p : Proc σ κ ε α) (s : σ) : Reaches p s [] p s
  | observe {next : σ → Proc σ κ ε α} {s t : σ} {cs : List κ} {q : Proc σ κ ε α}
      (tail : Reaches (next s) s cs q t) : Reaches (.observe next) s cs q t
  | step {c : κ} {next : σ → Proc σ κ ε α} {s t : σ} {cs : List κ} {q : Proc σ κ ε α}
      (tail : Reaches (next s) (Commands.apply c s) cs q t) :
      Reaches (.step c next) s (c :: cs) q t

theorem Reaches.trans {p q r : Proc σ κ ε α} {s t u : σ} {cs ds : List κ}
    (h : Reaches p s cs q t) (h' : Reaches q t ds r u) : Reaches p s (cs ++ ds) r u := by
  induction h with
  | here p s => exact h'
  | observe _ ih => exact .observe (ih h')
  | step _ ih => exact .step (ih h')

theorem Reaches.first (f : α → Proc σ κ ε β) {p q : Proc σ κ ε α} {s t : σ} {cs : List κ}
    (h : Reaches p s cs q t) : Reaches (p >>= f) s cs (q >>= f) t := by
  induction h with
  | here p s => exact .here _ _
  | observe _ ih => exact .observe ih
  | step _ ih => exact .step ih

/-- The state in which a run stands after at most `n` moves. -/
def stopped : ℕ → Proc σ κ ε α → σ → σ
  | 0, _, s => s
  | _ + 1, .done _, s => s
  | _ + 1, .fail _, s => s
  | n + 1, .observe next, s => (next s).stopped n s
  | n + 1, .step c next, s => (next s).stopped n (Commands.apply c s)

theorem Reaches.stopped (n : ℕ) (p : Proc σ κ ε α) (s : σ) :
    ∃ cs q, Reaches p s cs q (p.stopped n s) := by
  induction n generalizing p s with
  | zero => exact ⟨[], p, .here p s⟩
  | succ n ih =>
    cases p with
    | done a => exact ⟨[], _, .here _ s⟩
    | fail e => exact ⟨[], _, .here _ s⟩
    | observe next =>
      obtain ⟨cs, q, h⟩ := ih (next s) s
      exact ⟨cs, q, .observe h⟩
    | step c next =>
      obtain ⟨cs, q, h⟩ := ih (next s) (Commands.apply c s)
      exact ⟨c :: cs, q, .step h⟩

theorem Reaches.second {p : Proc σ κ ε α} (f : α → Proc σ κ ε β) {s t : σ} {a : α}
    (h : p.run s = (.ok a, t)) : Reaches (p >>= f) s (p.trace s) (f a) t := by
  induction p generalizing s with
  | done b =>
    cases h
    exact .here _ _
  | fail e => cases h
  | observe next ih => exact .observe (ih s h)
  | step c next ih => exact .step (ih s h)

theorem Reaches.of_performing {c : κ} {reply : σ → α} {s t : σ} {cs : List κ}
    {q : Proc σ κ ε α} (h : Reaches (performing c reply) s cs q t) :
    t = s ∨ t = Commands.apply c s := by
  cases h with
  | here => exact .inl rfl
  | step tail =>
    cases tail
    exact .inr rfl

theorem Reaches.of_read {f : σ → α} {s t : σ} {cs : List κ} {q : Proc σ κ ε α}
    (h : Reaches (read f) s cs q t) : t = s := by
  cases h with
  | here => rfl
  | observe tail =>
    cases tail
    rfl

theorem Reaches.of_pure {a : α} {s t : σ} {cs : List κ} {q : Proc σ κ ε α}
    (h : Reaches (pure a) s cs q t) : t = s := by
  cases h
  rfl

theorem Reaches.of_bind {p : Proc σ κ ε α} {f : α → Proc σ κ ε β} {s t : σ} {cs : List κ}
    {q : Proc σ κ ε β} (h : Reaches (p >>= f) s cs q t) :
    (∃ r, Reaches p s cs r t ∧ q = r >>= f) ∨
      ∃ a u ds es, p.run s = (.ok a, u) ∧ p.trace s = ds ∧ cs = ds ++ es ∧
        Reaches (f a) u es q t := by
  induction p generalizing s cs with
  | done a => exact .inr ⟨a, s, [], cs, rfl, rfl, rfl, h⟩
  | fail e =>
    cases h
    exact .inl ⟨.fail e, .here _ _, rfl⟩
  | observe next ih =>
    cases h with
    | here => exact .inl ⟨.observe next, .here _ _, rfl⟩
    | observe tail =>
      rcases ih s tail with ⟨r, hr, rfl⟩ | ⟨a, u, ds, es, hrun, htrace, hcs, htail⟩
      · exact .inl ⟨r, .observe hr, rfl⟩
      · exact .inr ⟨a, u, ds, es, hrun, htrace, hcs, htail⟩
  | step c next ih =>
    cases h with
    | here => exact .inl ⟨.step c next, .here _ _, rfl⟩
    | step tail =>
      rcases ih s tail with ⟨r, hr, rfl⟩ | ⟨a, u, ds, es, hrun, htrace, hcs, htail⟩
      · exact .inl ⟨r, .step hr, rfl⟩
      · refine .inr ⟨a, u, c :: ds, es, hrun, ?_, ?_, htail⟩
        · exact congrArg (c :: ·) htrace
        · rw [hcs]
          rfl

end Execution

/-- Every command of the procedure, whatever it reads, satisfies `P`. -/
def Uses (P : κ → Prop) : Proc σ κ ε α → Prop
  | .done _ => True
  | .fail _ => True
  | .observe next => ∀ s, (next s).Uses P
  | .step c next => P c ∧ ∀ s, (next s).Uses P

theorem Uses.bind {P : κ → Prop} {p : Proc σ κ ε α} {f : α → Proc σ κ ε β}
    (hp : p.Uses P) (hf : ∀ a, (f a).Uses P) : (p >>= f).Uses P := by
  induction p with
  | done a => exact hf a
  | fail e => trivial
  | observe next ih => exact fun s => ih s (hp s)
  | step c next ih => exact ⟨hp.1, fun s => ih s (hp.2 s)⟩

theorem Uses.mono {P Q : κ → Prop} {p : Proc σ κ ε α} (hPQ : ∀ c, P c → Q c) (hp : p.Uses P) :
    p.Uses Q := by
  induction p with
  | done a => trivial
  | fail e => trivial
  | observe next ih => exact fun s => ih s (hp s)
  | step c next ih => exact ⟨hPQ c hp.1, fun s => ih s (hp.2 s)⟩

theorem Uses.of_forall {P : κ → Prop} (hP : ∀ c, P c) (p : Proc σ κ ε α) : p.Uses P := by
  induction p with
  | done a => trivial
  | fail e => trivial
  | observe next ih => exact ih
  | step c next ih => exact ⟨hP c, ih⟩

@[simp] theorem uses_pure (P : κ → Prop) (a : α) : (pure a : Proc σ κ ε α).Uses P := trivial
@[simp] theorem uses_done (P : κ → Prop) (a : α) : (.done a : Proc σ κ ε α).Uses P := trivial
@[simp] theorem uses_fail (P : κ → Prop) (e : ε) : (.fail e : Proc σ κ ε α).Uses P := trivial
@[simp] theorem uses_read (P : κ → Prop) (f : σ → α) : (read f : Proc σ κ ε α).Uses P :=
  fun _ => trivial
@[simp] theorem uses_perform (P : κ → Prop) (c : κ) :
    (perform c : Proc σ κ ε Unit).Uses P ↔ P c := ⟨And.left, fun h => ⟨h, fun _ => trivial⟩⟩
@[simp] theorem uses_performing (P : κ → Prop) (c : κ) (reply : σ → α) :
    (performing c reply : Proc σ κ ε α).Uses P ↔ P c := ⟨And.left, fun h => ⟨h, fun _ => trivial⟩⟩

theorem Uses.forM {P : κ → Prop} (f : ι → Proc σ κ ε PUnit) (xs : List ι)
    (hf : ∀ x ∈ xs, (f x).Uses P) : (xs.forM f).Uses P := by
  induction xs with
  | nil => trivial
  | cons x xs ih =>
    exact (hf x List.mem_cons_self).bind fun _ => ih fun y hy => hf y (List.mem_cons_of_mem _ hy)

/-- Every value that the procedure returns satisfies `Q`. -/
def Yields (Q : α → Prop) : Proc σ κ ε α → Prop
  | .done a => Q a
  | .fail _ => True
  | .observe next => ∀ s, (next s).Yields Q
  | .step _ next => ∀ s, (next s).Yields Q

theorem Yields.of_forall {Q : α → Prop} (hQ : ∀ a, Q a) (p : Proc σ κ ε α) : p.Yields Q := by
  induction p with
  | done a => exact hQ a
  | fail e => trivial
  | observe next ih => exact ih
  | step c next ih => exact ih

theorem Yields.bind {Q : α → Prop} {R : β → Prop} {p : Proc σ κ ε α} {f : α → Proc σ κ ε β}
    (hp : p.Yields Q) (hf : ∀ a, Q a → (f a).Yields R) : (p >>= f).Yields R := by
  induction p with
  | done a => exact hf a hp
  | fail e => trivial
  | observe next ih => exact fun s => ih s (hp s)
  | step c next ih => exact fun s => ih s (hp s)

theorem Yields.second {R : β → Prop} (p : Proc σ κ ε α) {f : α → Proc σ κ ε β}
    (hf : ∀ a, (f a).Yields R) : (p >>= f).Yields R :=
  (Yields.of_forall (Q := fun _ => True) (fun _ => trivial) p).bind fun a _ => hf a

/-- No path of the procedure issues more than `n` commands that satisfy `P`. -/
def AtMost (P : κ → Bool) (n : ℕ) : Proc σ κ ε α → Prop
  | .done _ => True
  | .fail _ => True
  | .observe next => ∀ s, (next s).AtMost P n
  | .step c next => ∃ m, (if P c then 1 else 0) + m = n ∧ ∀ s, (next s).AtMost P m

theorem AtMost.mono {P : κ → Bool} {p : Proc σ κ ε α} {m n : ℕ} (hmn : m ≤ n)
    (hp : p.AtMost P m) : p.AtMost P n := by
  induction p generalizing m n with
  | done a => trivial
  | fail e => trivial
  | observe next ih => exact fun s => ih s hmn (hp s)
  | step c next ih =>
    obtain ⟨k, hk, hnext⟩ := hp
    exact ⟨k + (n - m), by omega, fun s => ih s (Nat.le_add_right _ _) (hnext s)⟩

theorem AtMost.bind {P : κ → Bool} {p : Proc σ κ ε α} {f : α → Proc σ κ ε β} {m n : ℕ}
    (hp : p.AtMost P m) (hf : ∀ a, (f a).AtMost P n) : (p >>= f).AtMost P (m + n) := by
  induction p generalizing m with
  | done a => exact (hf a).mono (Nat.le_add_left _ _)
  | fail e => trivial
  | observe next ih => exact fun s => ih s (hp s)
  | step c next ih =>
    obtain ⟨k, hk, hnext⟩ := hp
    exact ⟨k + n, by omega, fun s => ih s (hnext s)⟩

theorem AtMost.of_uses {P : κ → Bool} {p : Proc σ κ ε α} (hp : p.Uses fun c => P c = false) :
    p.AtMost P 0 := by
  induction p with
  | done a => trivial
  | fail e => trivial
  | observe next ih => exact fun s => ih s (hp s)
  | step c next ih => exact ⟨0, by simp [hp.1], fun s => ih s (hp.2 s)⟩

theorem AtMost.forM_perform (P : κ → Bool) (f : ι → κ) (xs : List ι) :
    (xs.forM fun x => (perform (f x) : Proc σ κ ε Unit)).AtMost P (xs.countP fun x => P (f x)) := by
  induction xs with
  | nil => trivial
  | cons x xs ih =>
    exact ⟨_, by rw [List.countP_cons]; exact Nat.add_comm _ _, fun _ => ih⟩

section Rules
variable [Commands σ κ]

theorem Yields.run {Q : α → Prop} {p : Proc σ κ ε α} (hp : p.Yields Q) {s t : σ} {a : α}
    (h : p.run s = (.ok a, t)) : Q a := by
  induction p generalizing s with
  | done b =>
    cases h
    exact hp
  | fail e => cases h
  | observe next ih => exact ih s (hp s) h
  | step c next ih => exact ih s (hp s) h

def Returns (p : Proc σ κ ε α) : Prop := ∀ s, ∃ a, (p.run s).1 = .ok a

theorem Returns.run {p : Proc σ κ ε α} (hp : p.Returns) (s : σ) :
    ∃ a, p.run s = (.ok a, p.final s) := by
  obtain ⟨a, ha⟩ := hp s
  exact ⟨a, Prod.ext ha rfl⟩

theorem Returns.pure (a : α) : (pure a : Proc σ κ ε α).Returns := fun _ => ⟨a, rfl⟩

theorem Returns.read (f : σ → α) : (read f : Proc σ κ ε α).Returns := fun s => ⟨f s, rfl⟩

theorem Returns.perform (c : κ) : (perform c : Proc σ κ ε Unit).Returns := fun _ => ⟨(), rfl⟩

theorem Returns.performing (c : κ) (reply : σ → α) :
    (performing c reply : Proc σ κ ε α).Returns := fun s => ⟨reply s, rfl⟩

theorem Returns.bind {p : Proc σ κ ε α} {f : α → Proc σ κ ε β}
    (hp : p.Returns) (hf : ∀ a, (f a).Returns) : (p >>= f).Returns := by
  intro s
  obtain ⟨a, ha⟩ := hp.run s
  rw [run_bind_ok ha]
  exact hf a _

theorem Returns.forM (f : ι → Proc σ κ ε PUnit) (xs : List ι) (hf : ∀ x ∈ xs, (f x).Returns) :
    (xs.forM f).Returns := by
  induction xs with
  | nil => exact Returns.pure _
  | cons x xs ih =>
    exact (hf x List.mem_cons_self).bind fun _ => ih fun y hy => hf y (List.mem_cons_of_mem _ hy)

theorem AtMost.trace {P : κ → Bool} {n : ℕ} {p : Proc σ κ ε α} (hp : p.AtMost P n) (s : σ) :
    (p.trace s).countP P ≤ n := by
  induction p generalizing s n with
  | done a => exact Nat.zero_le _
  | fail e => exact Nat.zero_le _
  | observe next ih => exact ih s (hp s) s
  | step c next ih =>
    obtain ⟨m, hm, hnext⟩ := hp
    have htail := ih s (hnext s) (Commands.apply c s)
    change (c :: (next s).trace _).countP P ≤ n
    rw [List.countP_cons]
    omega

/-- A reflexive and transitive relation that every allowed command respects is
respected by the run, and by every point at which the run may be stopped. -/
theorem Uses.reaches {P : κ → Prop} {R : σ → σ → Prop} (hrefl : ∀ s, R s s)
    (htrans : ∀ s t u, R s t → R t u → R s u) (hstep : ∀ c s, P c → R s (Commands.apply c s))
    {p q : Proc σ κ ε α} {s t : σ} {cs : List κ} (hp : p.Uses P) (h : Reaches p s cs q t) :
    R s t ∧ q.Uses P := by
  induction h with
  | here p s => exact ⟨hrefl s, hp⟩
  | observe _ ih => exact ih (hp _)
  | step _ ih =>
    obtain ⟨hr, hq⟩ := ih (hp.2 _)
    exact ⟨htrans _ _ _ (hstep _ _ hp.1) hr, hq⟩

theorem Uses.run {P : κ → Prop} {R : σ → σ → Prop} (hrefl : ∀ s, R s s)
    (htrans : ∀ s t u, R s t → R t u → R s u) (hstep : ∀ c s, P c → R s (Commands.apply c s))
    {p : Proc σ κ ε α} (hp : p.Uses P) (s : σ) : R s (p.final s) := by
  induction p generalizing s with
  | done a => exact hrefl s
  | fail e => exact hrefl s
  | observe next ih => exact ih s (hp s) s
  | step c next ih => exact htrans _ _ _ (hstep c s hp.1) (ih s (hp.2 s) _)

theorem Uses.reaches_commands {P : κ → Prop} {p q : Proc σ κ ε α} {s t : σ} {cs : List κ}
    (hp : p.Uses P) (h : Reaches p s cs q t) : ∀ c ∈ cs, P c := by
  induction h with
  | here p s => intro c hc; cases hc
  | observe _ ih => exact ih (hp _)
  | step _ ih =>
    intro d hd
    rcases List.mem_cons.mp hd with rfl | hd
    · exact hp.1
    · exact ih (hp.2 _) d hd

def Preserves (I : σ → Prop) (p : Proc σ κ ε α) : Prop := ∀ s, I s → I (p.final s)

theorem Uses.preserves {P : κ → Prop} {I : σ → Prop}
    (hstep : ∀ c s, P c → I s → I (Commands.apply c s)) {p : Proc σ κ ε α} (hp : p.Uses P) :
    p.Preserves I :=
  hp.run (R := fun s t => I s → I t) (fun _ => id) (fun _ _ _ h h' => h' ∘ h) hstep

theorem final_bind_pure (p : Proc σ κ ε α) (f : α → β) (s : σ) :
    (p >>= fun a => pure (f a)).final s = p.final s := by
  unfold final
  rw [run_bind]
  rcases p.run s with ⟨_ | _, t⟩ <;> rfl

@[simp] theorem final_discard (p : Proc σ κ ε α) (s : σ) : (discard p).final s = p.final s :=
  final_bind_pure p (fun _ => PUnit.unit) s

theorem final_bind_ok {p : Proc σ κ ε α} {f : α → Proc σ κ ε β} {s t : σ} {a : α}
    (h : p.run s = (.ok a, t)) : (p >>= f).final s = (f a).final t :=
  congrArg Prod.snd (run_bind_ok h)

theorem of_bind_ok {p : Proc σ κ ε α} {f : α → Proc σ κ ε β} {s u : σ} {b : β}
    (h : (p >>= f).run s = (.ok b, u)) : ∃ a t, p.run s = (.ok a, t) ∧ (f a).run t = (.ok b, u) := by
  rw [run_bind] at h
  rcases hp : p.run s with ⟨_ | a, t⟩ <;> rw [hp] at h
  · cases h
  · exact ⟨a, t, rfl, h⟩

theorem of_discard_ok {p : Proc σ κ ε α} {s t : σ} {b : PUnit}
    (h : (discard p).run s = (.ok b, t)) : ∃ a, p.run s = (.ok a, t) := by
  have hbind : (p >>= fun _ => pure PUnit.unit).run s = (.ok b, t) := h
  obtain ⟨a, u, hp, hrest⟩ := of_bind_ok hbind
  cases hrest
  exact ⟨a, hp⟩

theorem ok_of_isOk {p : Proc σ κ ε α} {s : σ} (h : (p.run s).1.isOk = true) :
    ∃ a, p.run s = (.ok a, p.final s) := by
  cases hrun : (p.run s).1 with
  | error e =>
    rw [hrun] at h
    cases h
  | ok a => exact ⟨a, Prod.ext hrun rfl⟩

theorem final_of_run {p : Proc σ κ ε α} {s t : σ} {r : Except ε α} (h : p.run s = (r, t)) :
    p.final s = t :=
  congrArg Prod.snd h

theorem Preserves.run {I : σ → Prop} {p : Proc σ κ ε α} (hp : p.Preserves I) {s t : σ}
    {r : Except ε α} (h : p.run s = (r, t)) (hs : I s) : I t :=
  final_of_run h ▸ hp s hs

theorem Preserves.pure {I : σ → Prop} (a : α) : (pure a : Proc σ κ ε α).Preserves I :=
  fun _ hs => hs

theorem Preserves.read {I : σ → Prop} (f : σ → α) : (read f : Proc σ κ ε α).Preserves I :=
  fun _ hs => hs

theorem Preserves.perform {I : σ → Prop} {c : κ} (h : ∀ s, I s → I (Commands.apply c s)) :
    (perform c : Proc σ κ ε Unit).Preserves I := h

theorem Preserves.performing {I : σ → Prop} {c : κ} (reply : σ → α)
    (h : ∀ s, I s → I (Commands.apply c s)) :
    (performing c reply : Proc σ κ ε α).Preserves I := h

/-- A sequence whose second part relies on what the first part returns. -/
theorem Preserves.bind_yields {I : σ → Prop} {Q : α → Prop} {p : Proc σ κ ε α}
    {f : α → Proc σ κ ε β} (hp : p.Preserves I) (hQ : p.Yields Q)
    (hf : ∀ a, Q a → (f a).Preserves I) : (p >>= f).Preserves I := by
  intro s hs
  have h := hp s hs
  unfold final at h ⊢
  rw [run_bind]
  rcases hr : p.run s with ⟨_ | a, t⟩ <;> rw [hr] at h
  · exact h
  · exact hf a (hQ.run hr) t h

theorem Preserves.bind {I : σ → Prop} {p : Proc σ κ ε α} {f : α → Proc σ κ ε β}
    (hp : p.Preserves I) (hf : ∀ a, (f a).Preserves I) : (p >>= f).Preserves I :=
  hp.bind_yields (Yields.of_forall (Q := fun _ => True) (fun _ => trivial) p) fun a _ => hf a

theorem Preserves.discard {I : σ → Prop} {p : Proc σ κ ε α} (hp : p.Preserves I) :
    (discard p).Preserves I :=
  fun s hs => (final_discard p s).symm ▸ hp s hs

theorem Preserves.forM {I : σ → Prop} (f : ι → Proc σ κ ε PUnit) (xs : List ι)
    (hf : ∀ x ∈ xs, (f x).Preserves I) : (xs.forM f).Preserves I := by
  induction xs with
  | nil => exact fun _ hs => hs
  | cons x xs ih =>
    exact (hf x List.mem_cons_self).bind fun _ => ih fun y hy => hf y (List.mem_cons_of_mem _ hy)

/-- Every command of the run meets `P` in the state in which it is issued. -/
def Heeds (P : κ → σ → Prop) : Proc σ κ ε α → σ → Prop
  | .done _, _ => True
  | .fail _, _ => True
  | .observe next, s => (next s).Heeds P s
  | .step c next, s => P c s ∧ (next s).Heeds P (Commands.apply c s)

/-- The state in which a run stands when it has issued its first `k` commands. -/
def cut (k : ℕ) (p : Proc σ κ ε α) (s : σ) : σ :=
  ((p.trace s).take k).foldl (fun t c => Commands.apply c t) s

theorem final_eq_foldl (p : Proc σ κ ε α) (s : σ) :
    p.final s = (p.trace s).foldl (fun t c => Commands.apply c t) s := by
  induction p generalizing s with
  | done a => rfl
  | fail e => rfl
  | observe next ih => exact ih s s
  | step c next ih => exact ih s _

theorem cut_of_length_le {k : ℕ} {p : Proc σ κ ε α} {s : σ} (h : (p.trace s).length ≤ k) :
    p.cut k s = p.final s := by
  rw [final_eq_foldl, cut, List.take_of_length_le h]

theorem trace_bind_ok {p : Proc σ κ ε α} {f : α → Proc σ κ ε β} {s t : σ} {a : α}
    (h : p.run s = (.ok a, t)) : (p >>= f).trace s = p.trace s ++ (f a).trace t := by
  induction p generalizing s with
  | done b =>
    cases h
    rfl
  | fail e => cases h
  | observe next ih => exact ih s h
  | step c next ih => exact congrArg (c :: ·) (ih s h)

theorem trace_bind_error {p : Proc σ κ ε α} {f : α → Proc σ κ ε β} {s t : σ} {e : ε}
    (h : p.run s = (.error e, t)) : (p >>= f).trace s = p.trace s := by
  induction p generalizing s with
  | done a => cases h
  | fail e => rfl
  | observe next ih => exact ih s h
  | step c next ih => exact congrArg (c :: ·) (ih s h)

theorem Uses.trace {P : κ → Prop} {p : Proc σ κ ε α} (hp : p.Uses P) (s : σ) :
    ∀ c ∈ p.trace s, P c := by
  induction p generalizing s with
  | done a => exact List.forall_mem_nil _
  | fail e => exact List.forall_mem_nil _
  | observe next ih => exact ih s (hp s) s
  | step c next ih => exact List.forall_mem_cons.mpr ⟨hp.1, ih s (hp.2 s) _⟩

theorem Uses.heeds {Q : κ → Prop} {P : κ → σ → Prop} {p : Proc σ κ ε α} (hp : p.Uses Q)
    (hQ : ∀ c s, Q c → P c s) (s : σ) : p.Heeds P s := by
  induction p generalizing s with
  | done a => trivial
  | fail e => trivial
  | observe next ih => exact ih s (hp s) s
  | step c next ih => exact ⟨hQ c s hp.1, ih s (hp.2 s) _⟩

theorem Heeds.trace {P : κ → σ → Prop} {p : Proc σ κ ε α} {s : σ} (hp : p.Heeds P s) :
    ∀ c ∈ p.trace s, ∃ t, P c t := by
  induction p generalizing s with
  | done a => exact fun _ hc => nomatch hc
  | fail e => exact fun _ hc => nomatch hc
  | observe next ih => exact ih s hp
  | step c next ih =>
    intro d hd
    rcases List.mem_cons.mp hd with rfl | hd
    · exact ⟨s, hp.1⟩
    · exact ih s hp.2 d hd

theorem heeds_bind {P : κ → σ → Prop} {p : Proc σ κ ε α} {f : α → Proc σ κ ε β} {s : σ} :
    (p >>= f).Heeds P s ↔ p.Heeds P s ∧ ∀ a t, p.run s = (.ok a, t) → (f a).Heeds P t := by
  induction p generalizing s with
  | done a =>
    refine ⟨fun h => ⟨trivial, fun b t hrun => ?_⟩, fun h => h.2 a s rfl⟩
    cases hrun
    exact h
  | fail e => exact ⟨fun _ => ⟨trivial, fun _ _ hrun => by cases hrun⟩, fun _ => trivial⟩
  | observe next ih => exact ih s
  | step c next ih => exact (and_congr_right fun _ => ih s).trans and_assoc.symm

theorem Heeds.bind {I : σ → Prop} {P : κ → σ → Prop}
    (hkeep : ∀ c s, I s → P c s → I (Commands.apply c s)) {p : Proc σ κ ε α}
    {f : α → Proc σ κ ε β} {s : σ} (hs : I s) (hp : p.Heeds P s)
    (hf : ∀ a t, I t → (f a).Heeds P t) : (p >>= f).Heeds P s := by
  induction p generalizing s with
  | done a => exact hf a s hs
  | fail e => trivial
  | observe next ih => exact ih s hs hp
  | step c next ih => exact ⟨hp.1, ih s (hkeep c s hs hp.1) hp.2⟩

theorem Heeds.cut {I : σ → Prop} {P : κ → σ → Prop}
    (hkeep : ∀ c s, I s → P c s → I (Commands.apply c s)) {p : Proc σ κ ε α} {s : σ} (hs : I s)
    (hp : p.Heeds P s) (k : ℕ) : I (p.cut k s) := by
  induction p generalizing k s with
  | done a => simpa [Proc.cut, Proc.trace] using hs
  | fail e => simpa [Proc.cut, Proc.trace] using hs
  | observe next ih => exact ih s hs hp k
  | step c next ih =>
    cases k with
    | zero => exact hs
    | succ k => exact ih s (hkeep c s hs hp.1) hp.2 k

theorem Heeds.final {I : σ → Prop} {P : κ → σ → Prop}
    (hkeep : ∀ c s, I s → P c s → I (Commands.apply c s)) {p : Proc σ κ ε α} {s : σ} (hs : I s)
    (hp : p.Heeds P s) : I (p.final s) := by
  rw [← cut_of_length_le (Nat.le_refl (p.trace s).length)]
  exact hp.cut hkeep hs _

theorem Heeds.stopped {I : σ → Prop} {P : κ → σ → Prop}
    (hkeep : ∀ c s, I s → P c s → I (Commands.apply c s)) {p : Proc σ κ ε α} {s : σ} (hs : I s)
    (hp : p.Heeds P s) (n : ℕ) : I (p.stopped n s) := by
  induction n generalizing p s with
  | zero => exact hs
  | succ n ih =>
    cases p with
    | done a | fail e => exact hs
    | observe next => exact ih (p := next s) hs hp
    | step c next => exact ih (hkeep c s hs hp.1) hp.2

theorem Heeds.view {τ : Type} {P : κ → σ → Prop} {view : σ → τ} {act : τ → κ → τ}
    (hview : ∀ c s, P c s → view (Commands.apply c s) = act (view s) c) {p : Proc σ κ ε α} {s : σ}
    (hp : p.Heeds P s) (k : ℕ) : view (p.cut k s) = ((p.trace s).take k).foldl act (view s) := by
  induction p generalizing k s with
  | done a => simp [Proc.cut, Proc.trace]
  | fail e => simp [Proc.cut, Proc.trace]
  | observe next ih => exact ih s hp k
  | step c next ih =>
    cases k with
    | zero => rfl
    | succ k =>
      have hrest := ih s hp.2 k
      rw [hview c s hp.1] at hrest
      exact hrest

end Rules
end Proc
end StrataMemory.Procedures
