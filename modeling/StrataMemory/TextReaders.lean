import Mathlib.Data.List.Basic
import Mathlib.Data.Int.Notation

set_option autoImplicit false

/-!
# Readers of texts

A reader takes a value from the front of a text and leaves the rest. What a printer writes
is read back before every rest that the text cannot run into.
-/
namespace StrataMemory.TextReaders

variable {α : Type}

abbrev Reader (α : Type) := List Char → Option (α × List Char)

/-- The reader takes the value from the text, before any rest that may follow. -/
def Reads (read : Reader α) (text : List Char) (a : α) (Follow : List Char → Prop) : Prop :=
  ∀ rest, Follow rest → read (text ++ rest) = some (a, rest)

def strip : List Char → List Char → Option (List Char)
  | [], input => some input
  | _ :: _, [] => none
  | c :: text, d :: input => if c = d then strip text input else none

@[simp] theorem strip_append (text rest : List Char) : strip text (text ++ rest) = some rest := by
  induction text with
  | nil => rfl
  | cons c text ih => exact (if_pos rfl).trans ih

theorem strip_cons_of_ne {c d : Char} (h : c ≠ d) (text rest : List Char) :
    strip (c :: text) (d :: rest) = none := if_neg h

def sepBy (sep : List Char) (item : Reader α) : ℕ → Reader (List α)
  | 0, _ => none
  | fuel + 1, input =>
    match item input with
    | none => none
    | some (a, rest) =>
      match strip sep rest with
      | none => some ([a], rest)
      | some rest => (sepBy sep item fuel rest).map fun found => (a :: found.1, found.2)

theorem reads_padded {sep pad : List Char} {item : Reader α} {print : α → List Char} {as : List α}
    {Follow : List Char → Prop} (hpadded : ∀ a ∈ as, Reads item (pad ++ print a) a Follow)
    (hsep : ∀ rest, Follow (sep ++ rest)) (hne : as ≠ []) {fuel : ℕ} (hfuel : as.length ≤ fuel)
    {lead : List Char} (hlead : ∀ a ∈ as, Reads item (lead ++ print a) a Follow) :
    Reads (sepBy sep item fuel) (lead ++ (sep ++ pad).intercalate (as.map print)) as
      fun rest => Follow rest ∧ strip sep rest = none := by
  rintro rest ⟨hfollow, hstop⟩
  induction as generalizing fuel lead with
  | nil => exact absurd rfl hne
  | cons a as ih =>
    obtain ⟨fuel, rfl⟩ : ∃ k, fuel = k + 1 := Nat.exists_eq_add_of_le' (Nat.one_le_of_lt hfuel)
    have hread := hlead a List.mem_cons_self
    unfold sepBy
    cases as with
    | nil =>
      rw [List.map_singleton, List.intercalate_singleton, hread rest hfollow]
      dsimp only
      rw [hstop]
    | cons b as =>
      have hlater : ∀ c ∈ b :: as, Reads item (pad ++ print c) c Follow :=
        fun c hc => hpadded c (List.mem_cons_of_mem _ hc)
      have hrest := ih hlater (List.cons_ne_nil _ _) (Nat.le_of_succ_le_succ hfuel) hlater
      rw [List.map_cons, List.map_cons, List.intercalate_cons_cons]
      have htext : lead ++ (print a ++ (sep ++ pad) ++
          (sep ++ pad).intercalate (print b :: as.map print)) ++ rest =
          lead ++ print a ++ (sep ++ (pad ++
            (sep ++ pad).intercalate (print b :: as.map print) ++ rest)) := by
        simp only [List.append_assoc]
      rw [htext, hread _ (hsep _)]
      dsimp only
      rw [strip_append]
      dsimp only
      rw [← List.map_cons, hrest]
      rfl

theorem reads_sepBy {sep : List Char} {item : Reader α} {print : α → List Char} {as : List α}
    {Follow : List Char → Prop} (hitem : ∀ a ∈ as, Reads item (print a) a Follow)
    (hsep : ∀ rest, Follow (sep ++ rest)) (hne : as ≠ []) {fuel : ℕ} (hfuel : as.length ≤ fuel) :
    Reads (sepBy sep item fuel) (sep.intercalate (as.map print)) as
      fun rest => Follow rest ∧ strip sep rest = none := by
  have hread : Reads (sepBy sep item fuel) ([] ++ (sep ++ []).intercalate (as.map print)) as
      fun rest => Follow rest ∧ strip sep rest = none :=
    reads_padded hitem hsep hne hfuel hitem
  rw [List.append_nil] at hread
  exact hread

theorem length_intercalate {sep : List Char} {print : α → List Char} {as : List α}
    (hne : ∀ a ∈ as, print a ≠ []) : as.length ≤ (sep.intercalate (as.map print)).length := by
  induction as with
  | nil => exact Nat.zero_le _
  | cons a as ih =>
    have hpos := List.length_pos_iff.mpr (hne a List.mem_cons_self)
    have hrest := ih fun b hb => hne b (List.mem_cons_of_mem _ hb)
    cases as with
    | nil =>
      rw [List.map_singleton, List.intercalate_singleton]
      exact hpos
    | cons b as =>
      rw [List.map_cons] at hrest ⊢
      rw [List.map_cons, List.intercalate_cons_cons, List.length_append, List.length_append,
        List.length_cons]
      omega

theorem length_le_intercalate (sep : List Char) (print : α → List Char) {a : α} {as : List α}
    (h : a ∈ as) : (print a).length ≤ (sep.intercalate (as.map print)).length := by
  induction as with
  | nil => cases h
  | cons b as ih =>
    cases as with
    | nil =>
      cases List.mem_singleton.mp h
      exact Nat.le_of_eq (congrArg List.length List.intercalate_singleton.symm)
    | cons c as =>
      rw [List.map_cons] at ih ⊢
      rw [List.map_cons, List.intercalate_cons_cons, List.length_append, List.length_append]
      rcases List.mem_cons.mp h with rfl | h
      · omega
      · have hrest := ih h
        omega

def readNat : Reader ℕ := fun input =>
  let digits := input.takeWhile Char.isDigit
  if digits.isEmpty then none else some (Nat.ofDigitChars 10 digits 0, input.dropWhile Char.isDigit)

def NoDigit (rest : List Char) : Prop := ∀ c ∈ rest.head?, c.isDigit = false

theorem takeWhile_append_stop {p : Char → Bool} {text rest : List Char} (htext : ∀ c ∈ text, p c = true)
    (hrest : ∀ c ∈ rest.head?, p c = false) :
    (text ++ rest).takeWhile p = text ∧ (text ++ rest).dropWhile p = rest := by
  rw [List.takeWhile_append_of_pos htext, List.dropWhile_append_of_pos htext]
  cases rest with
  | nil => exact ⟨List.append_nil _, rfl⟩
  | cons c rest =>
    have hc : ¬ p c = true := Bool.eq_false_iff.mp (hrest c rfl)
    rw [List.takeWhile_cons_of_neg hc, List.dropWhile_cons_of_neg hc, List.append_nil]
    exact ⟨rfl, rfl⟩

theorem takeWhile_whole {p : Char → Bool} {text : List Char} (htext : ∀ c ∈ text, p c = true) :
    text.takeWhile p = text ∧ text.dropWhile p = [] := by
  have hstop : ∀ c ∈ ([] : List Char).head?, p c = false := fun _ hc => by cases hc
  obtain ⟨htake, hdrop⟩ := takeWhile_append_stop htext hstop
  rw [List.append_nil] at htake hdrop
  exact ⟨htake, hdrop⟩

theorem isDigit_toDigits {n : ℕ} : ∀ c ∈ Nat.toDigits 10 n, c.isDigit = true :=
  fun _ hc => Nat.isDigit_of_mem_toDigits (by decide) (by decide) hc

theorem reads_nat (n : ℕ) : Reads readNat (Nat.toDigits 10 n) n NoDigit := by
  intro rest hrest
  obtain ⟨htake, hdrop⟩ := takeWhile_append_stop isDigit_toDigits hrest
  unfold readNat
  dsimp only
  rw [htake, hdrop, Nat.ofDigitChars_ten_toDigits,
    if_neg fun h => Nat.toDigits_ne_nil (List.isEmpty_iff.mp h)]

def intText (n : ℤ) : List Char := (toString n).toList

def readInt : Reader ℤ
  | '-' :: input => (readNat input).map fun found => (-(found.1 : ℤ), found.2)
  | input => (readNat input).map fun found => ((found.1 : ℤ), found.2)

theorem intText_cases (n : ℤ) :
    (∃ m : ℕ, n = m ∧ intText n = Nat.toDigits 10 m) ∨
      ∃ m : ℕ, n = -(m : ℤ) ∧ intText n = '-' :: Nat.toDigits 10 m := by
  unfold intText
  rw [Int.toString_eq_repr, Int.repr_eq_if]
  by_cases hn : 0 ≤ n
  · refine .inl ⟨n.toNat, (Int.toNat_of_nonneg hn).symm, ?_⟩
    rw [if_pos hn, Nat.toList_repr]
  · refine .inr ⟨(-n).toNat, ?_, ?_⟩
    · rw [Int.toNat_of_nonneg (by omega), Int.neg_neg]
    · rw [if_neg hn, String.toList_append, Nat.toList_repr]
      rfl

theorem readInt_of_digit {c : Char} {input : List Char} (hc : c.isDigit = true) :
    readInt (c :: input) = (readNat (c :: input)).map fun found => ((found.1 : ℤ), found.2) := by
  have hne : c ≠ '-' := fun h => by
    subst h
    exact absurd hc (by decide)
  unfold readInt
  split
  · next heq => exact absurd (List.cons.inj heq).1 hne
  · rfl

theorem reads_int (n : ℤ) : Reads readInt (intText n) n NoDigit := by
  intro rest hrest
  rcases intText_cases n with ⟨m, rfl, htext⟩ | ⟨m, rfl, htext⟩
  · have hread := reads_nat m rest hrest
    rw [htext]
    cases hdigits : Nat.toDigits 10 m with
    | nil => exact absurd hdigits Nat.toDigits_ne_nil
    | cons c digits =>
      rw [hdigits] at hread
      have hc : c.isDigit = true := isDigit_toDigits c (hdigits ▸ List.mem_cons_self)
      rw [List.cons_append, readInt_of_digit hc, ← List.cons_append, hread]
      rfl
  · rw [htext]
    exact congrArg (Option.map fun found : ℕ × List Char => (-(found.1 : ℤ), found.2))
      (reads_nat m rest hrest)

theorem head_intText (n : ℤ) : ∃ c digits, intText n = c :: digits ∧ (c = '-' ∨ c.isDigit = true) := by
  rcases intText_cases n with ⟨m, -, htext⟩ | ⟨m, -, htext⟩
  · cases hdigits : Nat.toDigits 10 m with
    | nil => exact absurd hdigits Nat.toDigits_ne_nil
    | cons c digits =>
      exact ⟨c, digits, htext.trans hdigits, .inr (isDigit_toDigits c (hdigits ▸ List.mem_cons_self))⟩
  · exact ⟨'-', _, htext, .inl rfl⟩

def doubled (quote : Char) (text : List Char) : List Char :=
  text.flatMap fun c => if c = quote then [quote, quote] else [c]

@[simp] theorem doubled_cons (quote c : Char) (text : List Char) : doubled quote (c :: text) =
    (if c = quote then [quote, quote] else [c]) ++ doubled quote text :=
  List.flatMap_cons

def quoted (quote : Char) (text : List Char) : List Char := quote :: (doubled quote text ++ [quote])

def readDoubled (quote : Char) : Reader (List Char)
  | [] => none
  | [c] => if c = quote then some ([], []) else none
  | c :: d :: input =>
    if c ≠ quote then (readDoubled quote (d :: input)).map fun found => (c :: found.1, found.2)
    else if d ≠ quote then some ([], d :: input)
    else (readDoubled quote input).map fun found => (quote :: found.1, found.2)

def readQuoted (quote : Char) : Reader (List Char)
  | [] => none
  | c :: input => if c = quote then readDoubled quote input else none

theorem readDoubled_other {quote c : Char} (hc : c ≠ quote) (input : List Char) :
    readDoubled quote (c :: input) =
      (readDoubled quote input).map fun found => (c :: found.1, found.2) := by
  cases input with
  | nil => exact if_neg hc
  | cons d input => exact if_pos hc

theorem readDoubled_pair (quote : Char) (input : List Char) :
    readDoubled quote (quote :: quote :: input) =
      (readDoubled quote input).map fun found => (quote :: found.1, found.2) := by
  conv_lhs => unfold readDoubled
  rw [if_neg (not_not.mpr rfl), if_neg (not_not.mpr rfl)]

theorem readDoubled_close {quote : Char} {rest : List Char} (h : ∀ c ∈ rest.head?, c ≠ quote) :
    readDoubled quote (quote :: rest) = some ([], rest) := by
  cases rest with
  | nil => exact if_pos rfl
  | cons d rest =>
    conv_lhs => unfold readDoubled
    rw [if_neg (not_not.mpr rfl), if_pos (h d rfl)]

theorem reads_quoted (quote : Char) (text : List Char) :
    Reads (readQuoted quote) (quoted quote text) text fun rest => ∀ c ∈ rest.head?, c ≠ quote := by
  intro rest hrest
  have hinside : readDoubled quote (doubled quote text ++ quote :: rest) = some (text, rest) := by
    induction text with
    | nil => exact readDoubled_close hrest
    | cons c text ih =>
      rw [doubled_cons]
      by_cases hc : c = quote
      · subst hc
        rw [if_pos rfl, List.append_assoc, List.cons_append, List.cons_append, List.nil_append,
          readDoubled_pair, ih]
        rfl
      · rw [if_neg hc, List.append_assoc, List.cons_append, List.nil_append, readDoubled_other hc, ih]
        rfl
  unfold quoted
  rw [List.cons_append, List.append_assoc, List.singleton_append]
  exact (if_pos rfl).trans hinside

theorem doubled_of_not_mem {quote : Char} {text : List Char} (h : quote ∉ text) :
    doubled quote text = text := by
  induction text with
  | nil => rfl
  | cons c text ih =>
    rw [List.mem_cons, not_or] at h
    rw [doubled_cons, if_neg (Ne.symm h.1), ih h.2]
    rfl

end StrataMemory.TextReaders
