import StrataMemory.TextReaders

set_option autoImplicit false

/-!
# JSON texts

The writer keeps to ASCII, so that a character beyond it is one escape or two. The reader is
the one of the language: blanks between tokens, escapes of every kind, the last of two values
for a key. What the writer writes is read back as the same value.
-/
namespace StrataMemory.JsonTexts
open TextReaders

def quotationMark : Char := Char.ofNat 34

def backslash : Char := Char.ofNat 92

/-- The escapes with a letter of their own. -/
def letterEscapes : List (Char × Char) :=
  [(backslash, backslash), (quotationMark, quotationMark), (Char.ofNat 8, 'b'),
    (Char.ofNat 12, 'f'), ('\n', 'n'), ('\r', 'r'), ('\t', 't')]

/-- The letters of a reader, which knows one more. -/
def escapeLetters : List (Char × Char) := ('/', '/') :: letterEscapes.map Prod.swap

def hex4 (n : ℕ) : List Char :=
  [Nat.digitChar (n / 4096), Nat.digitChar (n / 256 % 16), Nat.digitChar (n / 16 % 16),
    Nat.digitChar (n % 16)]

def unicodeUnit (n : ℕ) : List Char := backslash :: 'u' :: hex4 n

/-- One unit, or the two of a surrogate pair. -/
def unicodeEscape (n : ℕ) : List Char :=
  if n < 0x10000 then unicodeUnit n
  else unicodeUnit (0xd800 + (n - 0x10000) / 0x400) ++ unicodeUnit (0xdc00 + (n - 0x10000) % 0x400)

def escaped (c : Char) : List Char :=
  match letterEscapes.lookup c with
  | some letter => [backslash, letter]
  | none => if ' ' ≤ c ∧ c ≤ '~' then [c] else unicodeEscape c.toNat

def hexValue (c : Char) : Option ℕ :=
  if c.isDigit then some (c.toNat - '0'.toNat)
  else if 'a' ≤ c ∧ c ≤ 'f' then some (c.toNat - 'a'.toNat + 10)
  else if 'A' ≤ c ∧ c ≤ 'F' then some (c.toNat - 'A'.toNat + 10)
  else none

def readHex4 : Reader ℕ
  | a :: b :: c :: d :: rest =>
    match hexValue a, hexValue b, hexValue c, hexValue d with
    | some a, some b, some c, some d => some (a * 4096 + b * 256 + c * 16 + d, rest)
    | _, _, _, _ => none
  | _ => none

def charOf (n : ℕ) : Option Char := if n.isValidChar then some (Char.ofNat n) else none

/-- After a backslash and a `u`. A surrogate on its own is no character. -/
def readUnicode : Reader Char := fun input =>
  match readHex4 input with
  | none => none
  | some (n, rest) =>
    if 0xd800 ≤ n ∧ n ≤ 0xdbff then
      match (strip [backslash, 'u'] rest).bind readHex4 with
      | none => none
      | some (m, rest) =>
        if 0xdc00 ≤ m ∧ m ≤ 0xdfff then
          (charOf (0x10000 + (n - 0xd800) * 0x400 + (m - 0xdc00))).map fun c => (c, rest)
        else none
    else (charOf n).map fun c => (c, rest)

/-- A character, or an escape. A control character is neither. -/
def readChar : Reader Char
  | [] => none
  | c :: input =>
    if c = backslash then
      match input with
      | [] => none
      | letter :: rest =>
        if letter = 'u' then readUnicode rest
        else (escapeLetters.lookup letter).map fun c => (c, rest)
    else if c < ' ' then none
    else some (c, input)

theorem hexValue_digitChar {d : ℕ} (h : d < 16) : hexValue (Nat.digitChar d) = some d := by
  have hall : ∀ d : Fin 16, hexValue (Nat.digitChar d) = some d.val := by decide
  exact hall ⟨d, h⟩

theorem reads_hex4 {n : ℕ} (h : n < 0x10000) : Reads readHex4 (hex4 n) n fun _ => True := by
  intro rest _
  have hvalue : n / 4096 * 4096 + n / 256 % 16 * 256 + n / 16 % 16 * 16 + n % 16 = n := by omega
  unfold hex4 readHex4
  simp only [List.cons_append, List.nil_append]
  rw [hexValue_digitChar (by omega), hexValue_digitChar (by omega), hexValue_digitChar (by omega),
    hexValue_digitChar (by omega)]
  dsimp only
  rw [hvalue]

theorem charOf_toNat (c : Char) : charOf c.toNat = some c := by
  have hvalid : c.toNat.isValidChar := c.valid
  unfold charOf
  rw [if_pos hvalid, Char.ofNat_toNat]

theorem readChar_letter (letter : Char) (rest : List Char) :
    readChar (backslash :: letter :: rest) = if letter = 'u' then readUnicode rest
      else (escapeLetters.lookup letter).map fun c => (c, rest) := by
  simp only [readChar, if_true]

theorem readChar_unit {n : ℕ} (rest : List Char) :
    readChar (unicodeUnit n ++ rest) = readUnicode (hex4 n ++ rest) := by
  unfold unicodeUnit
  rw [List.cons_append, List.cons_append, readChar_letter, if_pos rfl]

theorem toNat_valid (c : Char) : c.toNat < 0xd800 ∨ 0xdfff < c.toNat ∧ c.toNat < 0x110000 := by
  have hvalid := c.valid
  simp only [UInt32.isValidChar, Nat.isValidChar] at hvalid
  exact hvalid

theorem readUnicode_pair {high low : ℕ} (hhigh : high < 0x400) (hlow : low < 0x400)
    (rest : List Char) :
    readUnicode (hex4 (0xd800 + high) ++ (unicodeUnit (0xdc00 + low) ++ rest)) =
      (charOf (0x10000 + high * 0x400 + low)).map fun c => (c, rest) := by
  have hsecond : (strip [backslash, 'u'] (unicodeUnit (0xdc00 + low) ++ rest)).bind readHex4 =
      some (0xdc00 + low, rest) := by
    have hunit : unicodeUnit (0xdc00 + low) ++ rest =
        [backslash, 'u'] ++ (hex4 (0xdc00 + low) ++ rest) := by
      unfold unicodeUnit
      rw [List.cons_append, List.cons_append, List.cons_append, List.singleton_append]
    rw [hunit, strip_append, Option.bind_some]
    exact reads_hex4 (n := 0xdc00 + low) (by omega) rest trivial
  unfold readUnicode
  rw [reads_hex4 (n := 0xd800 + high) (by omega) _ trivial]
  dsimp only
  rw [if_pos (by omega), hsecond]
  dsimp only
  rw [if_pos (by omega), Nat.add_sub_cancel_left, Nat.add_sub_cancel_left]

theorem reads_unicodeEscape (c : Char) :
    Reads readChar (unicodeEscape c.toNat) c fun _ => True := by
  intro rest _
  have hvalid := toNat_valid c
  unfold unicodeEscape
  split
  · next hunit =>
    rw [readChar_unit]
    unfold readUnicode
    rw [reads_hex4 hunit rest trivial]
    dsimp only
    rw [if_neg (by omega), charOf_toNat]
    rfl
  · next hpair =>
    have hvalue : 0x10000 + (c.toNat - 0x10000) / 0x400 * 0x400 + (c.toNat - 0x10000) % 0x400 =
        c.toNat := by omega
    rw [List.append_assoc, readChar_unit, readUnicode_pair (by omega) (by omega), hvalue,
      charOf_toNat]
    rfl

theorem reads_escaped (c : Char) :
    Reads readChar (escaped c) c (fun _ => True) ∧ ∃ d more, escaped c = d :: more ∧
      d ≠ quotationMark := by
  unfold escaped
  split
  · next letter hletter =>
    have hmem : (c, letter) ∈ letterEscapes := by
      obtain ⟨before, after, heq, -⟩ := List.lookup_eq_some_iff.mp hletter
      rw [heq]
      exact List.mem_append_right _ List.mem_cons_self
    have hread : (letterEscapes.all fun p =>
        p.2 ≠ 'u' && escapeLetters.lookup p.2 = some p.1) = true := by decide
    have hpair := List.all_eq_true.mp hread _ hmem
    simp only [Bool.and_eq_true, decide_eq_true_eq] at hpair
    obtain ⟨hu, hback⟩ := hpair
    refine ⟨fun rest _ => ?_, _, _, rfl, by decide⟩
    rw [List.cons_append, List.singleton_append, readChar_letter, if_neg hu, hback]
    rfl
  · next hletter =>
    have hne : c ≠ backslash ∧ c ≠ quotationMark := by
      constructor <;> rintro rfl <;> exact absurd hletter (by decide)
    split
    · next hprint =>
      refine ⟨fun rest _ => ?_, _, _, rfl, hne.2⟩
      rw [List.singleton_append]
      simp only [readChar, if_neg hne.1, if_neg (Char.not_lt.mpr hprint.1)]
    · have hhead : ∃ more, unicodeEscape c.toNat = backslash :: more := by
        unfold unicodeEscape
        split <;> exact ⟨_, rfl⟩
      obtain ⟨more, hmore⟩ := hhead
      exact ⟨reads_unicodeEscape c, backslash, more, hmore, by decide⟩

def stringText (s : String) : List Char :=
  quotationMark :: (s.toList.flatMap escaped ++ [quotationMark])

def readChars : ℕ → Reader (List Char)
  | 0, _ => none
  | _ + 1, [] => none
  | fuel + 1, c :: input =>
    if c = quotationMark then some ([], input)
    else
      match readChar (c :: input) with
      | none => none
      | some (d, rest) => (readChars fuel rest).map fun found => (d :: found.1, found.2)

def readString : Reader String
  | [] => none
  | c :: input =>
    if c = quotationMark then
      (readChars input.length input).map fun found => (String.ofList found.1, found.2)
    else none

theorem readChars_escaped (cs : List Char) (rest : List Char) {fuel : ℕ}
    (hfuel : cs.length < fuel) :
    readChars fuel (cs.flatMap escaped ++ quotationMark :: rest) = some (cs, rest) := by
  induction cs generalizing fuel with
  | nil =>
    obtain ⟨fuel, rfl⟩ : ∃ k, fuel = k + 1 := Nat.exists_eq_add_of_le' hfuel
    exact if_pos rfl
  | cons c cs ih =>
    obtain ⟨fuel, rfl⟩ : ∃ k, fuel = k + 1 := Nat.exists_eq_add_of_le' (Nat.one_le_of_lt hfuel)
    obtain ⟨hread, d, more, hhead, hd⟩ := reads_escaped c
    have hchar := hread (cs.flatMap escaped ++ quotationMark :: rest) trivial
    rw [hhead, List.cons_append] at hchar
    rw [List.flatMap_cons, List.append_assoc, hhead, List.cons_append]
    unfold readChars
    rw [if_neg hd, hchar]
    dsimp only
    rw [ih (Nat.lt_of_succ_lt_succ hfuel)]
    rfl

theorem length_flatMap_escaped (cs : List Char) : cs.length ≤ (cs.flatMap escaped).length := by
  induction cs with
  | nil => exact Nat.le_refl _
  | cons c cs ih =>
    obtain ⟨-, d, more, hhead, -⟩ := reads_escaped c
    rw [List.flatMap_cons, hhead, List.length_append, List.length_cons, List.length_cons]
    omega

theorem reads_string (s : String) : Reads readString (stringText s) s fun _ => True := by
  intro rest _
  have hlength := length_flatMap_escaped s.toList
  have hinside : readChars (s.toList.flatMap escaped ++ quotationMark :: rest).length
      (s.toList.flatMap escaped ++ quotationMark :: rest) = some (s.toList, rest) := by
    refine readChars_escaped s.toList rest ?_
    rw [List.length_append, List.length_cons]
    omega
  have htext : stringText s ++ rest =
      quotationMark :: (s.toList.flatMap escaped ++ quotationMark :: rest) := by
    unfold stringText
    rw [List.cons_append, List.append_assoc, List.singleton_append]
  rw [htext]
  simp only [readString, if_true]
  rw [hinside, Option.map_some, String.ofList_toList]

/-- Digits without a leading zero. -/
def isNatText : List Char → Bool
  | [] => false
  | [c] => c.isDigit
  | c :: digits => c ≠ '0' && (c :: digits).all Char.isDigit

def isIntText : List Char → Bool
  | '-' :: text => isNatText text
  | text => isNatText text

def isNumberChar (c : Char) : Bool :=
  c.isDigit || c = '-' || c = '+' || c = '.' || c = 'e' || c = 'E'

/-- How a language writes and reads the numbers that are not whole. -/
structure FloatText (φ : Type) where
  IsFloat : φ → Prop
  repr : φ → List Char
  parse : List Char → Option φ
  parse_repr : ∀ x, IsFloat x → parse (repr x) = some x
  number_repr : ∀ x, IsFloat x → repr x ≠ [] ∧ ∀ c ∈ repr x, isNumberChar c = true
  not_int_repr : ∀ x, IsFloat x → isIntText (repr x) = false

theorem head_toDigits {n : ℕ} (hn : 0 < n) : ∃ c digits, Nat.toDigits 10 n = c :: digits ∧ c ≠ '0' := by
  induction n using Nat.strongRecOn with
  | ind n ih =>
    have hdigit : ∀ d : Fin 10, 0 < d.val → Nat.digitChar d.val ≠ '0' := by decide
    by_cases hsmall : n < 10
    · rw [Nat.toDigits_of_lt_base hsmall]
      exact ⟨_, [], rfl, hdigit ⟨n, hsmall⟩ hn⟩
    · obtain ⟨c, digits, heq, hc⟩ := ih (n / 10) (by omega) (by omega)
      rw [Nat.toDigits_of_base_le (by decide) (by omega), heq]
      exact ⟨c, _, rfl, hc⟩

theorem isNatText_toDigits (n : ℕ) : isNatText (Nat.toDigits 10 n) = true := by
  have hall : (Nat.toDigits 10 n).all Char.isDigit = true :=
    List.all_eq_true.mpr fun c hc => isDigit_toDigits c hc
  rcases Nat.eq_zero_or_pos n with rfl | hn
  · rfl
  · obtain ⟨c, digits, heq, hc⟩ := head_toDigits hn
    rw [heq] at hall ⊢
    cases digits with
    | nil => exact (Bool.and_eq_true_iff.mp hall).1
    | cons d digits => exact Bool.and_eq_true_iff.mpr ⟨decide_eq_true hc, hall⟩

theorem isIntText_intText (n : ℤ) : isIntText (intText n) = true ∧
    ∀ c ∈ intText n, isNumberChar c = true := by
  have hdigits : ∀ m : ℕ, ∀ c ∈ Nat.toDigits 10 m, isNumberChar c = true := by
    intro m c hc
    unfold isNumberChar
    rw [isDigit_toDigits c hc]
    rfl
  rcases intText_cases n with ⟨m, -, htext⟩ | ⟨m, -, htext⟩
  · rw [htext]
    refine ⟨?_, hdigits m⟩
    cases hm : Nat.toDigits 10 m with
    | nil => exact absurd hm Nat.toDigits_ne_nil
    | cons c digits =>
      have hc : c.isDigit = true := isDigit_toDigits c (hm ▸ List.mem_cons_self)
      have hne : c ≠ '-' := fun h => by
        subst h
        exact absurd hc (by decide)
      unfold isIntText
      split
      · next heq => exact absurd (List.cons.inj heq).1 hne
      · exact hm ▸ isNatText_toDigits m
  · rw [htext]
    refine ⟨isNatText_toDigits m, fun c hc => ?_⟩
    rcases List.mem_cons.mp hc with rfl | hc
    · decide
    · exact hdigits m c hc

inductive Json (φ : Type) where
  | null
  | bool (b : Bool)
  | int (n : ℤ)
  | float (x : φ)
  | str (s : String)
  | arr (items : List (Json φ))
  | obj (fields : List (String × Json φ))

def isBlank (c : Char) : Bool := c = ' ' || c = '\t' || c = '\n' || c = '\r'

structure Format where
  pad : List Char
  blanks : ∀ c ∈ pad, isBlank c = true

def Format.compact : Format := ⟨[], fun _ h => by cases h⟩

def Format.spaced : Format := ⟨[' '], fun _ h => by
  cases List.mem_singleton.mp h
  rfl⟩

variable {φ α : Type}

mutual

def dumps (f : FloatText φ) (fmt : Format) : Json φ → List Char
  | .null => ['n', 'u', 'l', 'l']
  | .bool true => ['t', 'r', 'u', 'e']
  | .bool false => ['f', 'a', 'l', 's', 'e']
  | .int n => intText n
  | .float x => f.repr x
  | .str s => stringText s
  | .arr items => '[' :: ((',' :: fmt.pad).intercalate (dumpsItems f fmt items) ++ [']'])
  | .obj fields => '{' :: ((',' :: fmt.pad).intercalate (dumpsFields f fmt fields) ++ ['}'])

def dumpsItems (f : FloatText φ) (fmt : Format) : List (Json φ) → List (List Char)
  | [] => []
  | v :: items => dumps f fmt v :: dumpsItems f fmt items

def dumpsFields (f : FloatText φ) (fmt : Format) : List (String × Json φ) → List (List Char)
  | [] => []
  | (k, v) :: fields =>
    (stringText k ++ ':' :: (fmt.pad ++ dumps f fmt v)) :: dumpsFields f fmt fields

end

def fieldText (f : FloatText φ) (fmt : Format) (field : String × Json φ) : List Char :=
  stringText field.1 ++ ':' :: (fmt.pad ++ dumps f fmt field.2)

theorem dumps_arr (f : FloatText φ) (fmt : Format) (items : List (Json φ)) :
    dumps f fmt (.arr items) =
      '[' :: ((',' :: fmt.pad).intercalate (items.map (dumps f fmt)) ++ [']']) := by
  have hitems : dumpsItems f fmt items = items.map (dumps f fmt) := by
    induction items with
    | nil => rfl
    | cons v items ih =>
      rw [dumpsItems, ih]
      rfl
  rw [dumps, hitems]

theorem dumps_obj (f : FloatText φ) (fmt : Format) (fields : List (String × Json φ)) :
    dumps f fmt (.obj fields) =
      '{' :: ((',' :: fmt.pad).intercalate (fields.map (fieldText f fmt)) ++ ['}']) := by
  have hfields : dumpsFields f fmt fields = fields.map (fieldText f fmt) := by
    induction fields with
    | nil => rfl
    | cons field fields ih =>
      obtain ⟨k, v⟩ := field
      rw [dumpsFields, ih]
      rfl
  rw [dumps, hfields]

def skipBlanks (input : List Char) : List Char := input.dropWhile isBlank

def padded (item : Reader α) : Reader α := fun input =>
  (item (skipBlanks input)).map fun found => (found.1, skipBlanks found.2)

def readList (close : Char) (item : Reader α) : Reader (List α) := fun input =>
  match skipBlanks input with
  | [] => none
  | c :: rest =>
    if c = close then some ([], rest)
    else
      match sepBy [','] (padded item) (rest.length + 1) (c :: rest) with
      | some (items, d :: rest) => if d = close then some (items, rest) else none
      | _ => none

def readField (value : Reader (Json φ)) : Reader (String × Json φ) := fun input =>
  match readString input with
  | none => none
  | some (k, rest) =>
    match strip [':'] (skipBlanks rest) with
    | none => none
    | some rest => (value (skipBlanks rest)).map fun found => ((k, found.1), found.2)

/-- A key that comes again changes its value. -/
def setField (fields : List (String × Json φ)) (field : String × Json φ) :
    List (String × Json φ) :=
  if field.1 ∈ fields.map Prod.fst then
    fields.map fun other => if other.1 = field.1 then field else other
  else fields ++ [field]

def dictOf (fields : List (String × Json φ)) : List (String × Json φ) := fields.foldl setField []

def readNumber (f : FloatText φ) : Reader (Json φ) := fun input =>
  let text := input.takeWhile isNumberChar
  let rest := input.dropWhile isNumberChar
  if isIntText text then (readInt text).map fun found => (.int found.1, rest)
  else (f.parse text).map fun x => (.float x, rest)

def readConstant : Reader (Json φ) := fun input =>
  [(['n', 'u', 'l', 'l'], Json.null), (['t', 'r', 'u', 'e'], .bool true),
    (['f', 'a', 'l', 's', 'e'], .bool false)].findSome?
      fun constant => (strip constant.1 input).map fun rest => (constant.2, rest)

def readValue (f : FloatText φ) : ℕ → Reader (Json φ)
  | 0, _ => none
  | _ + 1, [] => none
  | fuel + 1, c :: input =>
    if c = quotationMark then
      (readString (c :: input)).map fun found => (.str found.1, found.2)
    else if c = '[' then
      (readList ']' (readValue f fuel) input).map fun found => (.arr found.1, found.2)
    else if c = '{' then
      (readList '}' (readField (readValue f fuel)) input).map fun found =>
        (.obj (dictOf found.1), found.2)
    else (readConstant (c :: input)).or (readNumber f (c :: input))

def loads (f : FloatText φ) (text : List Char) : Option (Json φ) :=
  match padded (readValue f text.length) text with
  | some (v, []) => some v
  | _ => none

def Follow (rest : List Char) : Prop :=
  ∀ c ∈ rest.head?, isNumberChar c = false ∧ isBlank c = false

def Opens (text : List Char) : Prop :=
  ∃ c more, text = c :: more ∧ isBlank c = false ∧ c ≠ ']' ∧ c ≠ '}'

/-- The numbers are ones that the language has, and no object has a key twice. -/
inductive Proper (f : FloatText φ) : Json φ → Prop where
  | null : Proper f .null
  | bool (b : Bool) : Proper f (.bool b)
  | int (n : ℤ) : Proper f (.int n)
  | float {x : φ} (h : f.IsFloat x) : Proper f (.float x)
  | str (s : String) : Proper f (.str s)
  | arr {items : List (Json φ)} (h : ∀ v ∈ items, Proper f v) : Proper f (.arr items)
  | obj {fields : List (String × Json φ)} (hkeys : (fields.map Prod.fst).Nodup)
      (h : ∀ field ∈ fields, Proper f field.2) : Proper f (.obj fields)

theorem skipBlanks_append {blanks text : List Char} (hblanks : ∀ c ∈ blanks, isBlank c = true)
    (htext : ∀ c ∈ text.head?, isBlank c = false) : skipBlanks (blanks ++ text) = text :=
  (takeWhile_append_stop hblanks htext).2

theorem skipBlanks_of_head {text : List Char} (htext : ∀ c ∈ text.head?, isBlank c = false) :
    skipBlanks text = text :=
  (takeWhile_append_stop (List.forall_mem_nil _) htext).2

theorem Opens.head {text : List Char} (h : Opens text) (rest : List Char) :
    ∀ c ∈ (text ++ rest).head?, isBlank c = false := by
  obtain ⟨d, more, rfl, hd, -⟩ := h
  intro c hc
  cases hc
  exact hd

theorem reads_padded_item {item : Reader α} {pad text : List Char} {a : α}
    (hpad : ∀ c ∈ pad, isBlank c = true) (hitem : Reads item text a Follow) (hopens : Opens text) :
    Reads (padded item) (pad ++ text) a Follow := by
  intro rest hrest
  unfold padded
  rw [List.append_assoc, skipBlanks_append hpad (hopens.head rest), hitem rest hrest, Option.map_some,
    skipBlanks_of_head fun c hc => (hrest c hc).2]

theorem reads_list {item : Reader α} {print : α → List Char} {as : List α} {close : Char}
    (hclose : close = ']' ∨ close = '}') (fmt : Format)
    (hitem : ∀ a ∈ as, Reads item (print a) a Follow ∧ Opens (print a)) :
    Reads (readList close item) ((',' :: fmt.pad).intercalate (as.map print) ++ [close]) as
      fun _ => True := by
  intro rest _
  have hfollow : Follow (close :: rest) := by
    intro c hc
    cases hc
    rcases hclose with rfl | rfl <;> decide
  cases as with
  | nil =>
    unfold readList
    rw [List.map_nil, List.intercalate_nil, List.nil_append, List.singleton_append,
      skipBlanks_of_head fun c hc => (hfollow c hc).2]
    exact if_pos rfl
  | cons a as =>
    let text := (',' :: fmt.pad).intercalate ((a :: as).map print)
    obtain ⟨c, more, hprint, hblank, hbracket, hbrace⟩ := (hitem a List.mem_cons_self).2
    have hhead : ∃ more, text = c :: more := by
      change ∃ more, (',' :: fmt.pad).intercalate (print a :: as.map print) = c :: more
      cases as.map print with
      | nil => exact ⟨more, List.intercalate_singleton.trans hprint⟩
      | cons b texts =>
        rw [List.intercalate_cons_cons, hprint]
        exact ⟨_, rfl⟩
    obtain ⟨tail, htext⟩ := hhead
    have hne : c ≠ close := by rcases hclose with rfl | rfl <;> assumption
    have hlength : (a :: as).length ≤ (tail ++ close :: rest).length + 1 := by
      have hle : (a :: as).length ≤ text.length := length_intercalate fun b hb => by
        obtain ⟨d, more, hd, -⟩ := (hitem b hb).2
        exact hd ▸ List.cons_ne_nil _ _
      rw [htext, List.length_cons] at hle
      rw [List.length_append]
      exact Nat.le_trans hle (Nat.succ_le_succ (Nat.le_add_right _ _))
    have hread : Reads (sepBy [','] (padded item) ((tail ++ close :: rest).length + 1))
        ([] ++ ([','] ++ fmt.pad).intercalate ((a :: as).map print)) (a :: as)
        fun rest => Follow rest ∧ strip [','] rest = none :=
      reads_padded (fun b hb => reads_padded_item fmt.blanks (hitem b hb).1 (hitem b hb).2)
        (fun _ d hd => by
          cases hd
          decide) (List.cons_ne_nil _ _) hlength
        fun b hb => reads_padded_item (fun _ h => by cases h) (hitem b hb).1 (hitem b hb).2
    have hstop : strip [','] (close :: rest) = none :=
      strip_cons_of_ne (by rcases hclose with rfl | rfl <;> decide) _ _
    have hall := hread (close :: rest) ⟨hfollow, hstop⟩
    have hinput : ([] ++ ([','] ++ fmt.pad).intercalate ((a :: as).map print)) ++ close :: rest =
        c :: (tail ++ close :: rest) := congrArg (· ++ close :: rest) htext
    rw [hinput] at hall
    have hskip : skipBlanks (c :: (tail ++ close :: rest)) = c :: (tail ++ close :: rest) :=
      skipBlanks_of_head fun d hd => by
        cases hd
        exact hblank
    have hgoal : text ++ [close] ++ rest = c :: (tail ++ close :: rest) := by
      rw [htext, List.append_assoc]
      rfl
    unfold readList
    rw [hgoal, hskip]
    dsimp only
    rw [if_neg hne, hall]
    exact if_pos rfl

theorem reads_field {f : FloatText φ} {fmt : Format} {value : Reader (Json φ)}
    {field : String × Json φ} (hvalue : Reads value (dumps f fmt field.2) field.2 Follow)
    (hopens : Opens (dumps f fmt field.2)) :
    Reads (readField value) (fieldText f fmt field) field Follow := by
  intro rest hrest
  have hcolon : ∀ c ∈ (':' :: (fmt.pad ++ dumps f fmt field.2 ++ rest)).head?, isBlank c = false :=
    fun c hc => by
      cases hc
      decide
  have htext : fieldText f fmt field ++ rest =
      stringText field.1 ++ ':' :: (fmt.pad ++ dumps f fmt field.2 ++ rest) := by
    unfold fieldText
    rw [List.append_assoc, List.cons_append]
  unfold readField
  rw [htext, reads_string field.1 _ trivial]
  dsimp only
  rw [skipBlanks_of_head hcolon]
  have hstrip : strip [':'] (':' :: (fmt.pad ++ dumps f fmt field.2 ++ rest)) =
      some (fmt.pad ++ dumps f fmt field.2 ++ rest) := strip_append [':'] _
  rw [hstrip]
  dsimp only
  rw [List.append_assoc, skipBlanks_append fmt.blanks (hopens.head rest), hvalue rest hrest]
  rfl

theorem opens_fieldText (f : FloatText φ) (fmt : Format) (field : String × Json φ) :
    Opens (fieldText f fmt field) :=
  ⟨quotationMark, _, rfl, by decide, by decide, by decide⟩

theorem setField_new {fields : List (String × Json φ)} {field : String × Json φ}
    (h : field.1 ∉ fields.map Prod.fst) : setField fields field = fields ++ [field] := if_neg h

theorem dictOf_of_nodup {fields : List (String × Json φ)} (h : (fields.map Prod.fst).Nodup) :
    dictOf fields = fields := by
  have hfold : ∀ done : List (String × Json φ), ((done ++ fields).map Prod.fst).Nodup →
      fields.foldl setField done = done ++ fields := by
    induction fields with
    | nil => exact fun done _ => (List.append_nil done).symm
    | cons field fields ih =>
      intro done hdone
      have hnew : field.1 ∉ done.map Prod.fst := fun hmem => by
        rw [List.map_append, List.nodup_append] at hdone
        exact hdone.2.2 _ hmem _ List.mem_cons_self rfl
      have happend : done ++ field :: fields = done ++ [field] ++ fields := by
        rw [List.append_assoc, List.singleton_append]
      rw [happend] at hdone ⊢
      rw [List.foldl_cons, setField_new hnew]
      exact ih (List.nodup_cons.mp h).2 _ hdone
  exact hfold [] h

theorem nodup_setField {fields : List (String × Json φ)} (h : (fields.map Prod.fst).Nodup)
    (field : String × Json φ) : ((setField fields field).map Prod.fst).Nodup := by
  unfold setField
  split
  · have hsame : (fields.map fun other => if other.1 = field.1 then field else other).map Prod.fst =
        fields.map Prod.fst := by
      rw [List.map_map]
      refine List.map_congr_left fun other _ => ?_
      change (if other.1 = field.1 then field else other).1 = other.1
      split
      · rename_i hkey
        exact hkey.symm
      · rfl
    rw [hsame]
    exact h
  · rename_i hnew
    rw [List.map_append]
    refine List.nodup_append.mpr ⟨h, List.pairwise_singleton _ _, fun key hkey other hother => ?_⟩
    rw [List.mem_singleton.mp hother]
    exact fun hsame => hnew (hsame ▸ hkey)

theorem nodup_dictOf (fields : List (String × Json φ)) : ((dictOf fields).map Prod.fst).Nodup := by
  have hfold : ∀ done : List (String × Json φ), (done.map Prod.fst).Nodup →
      ((fields.foldl setField done).map Prod.fst).Nodup := by
    induction fields with
    | nil => exact fun _ hdone => hdone
    | cons field fields ih => exact fun _ hdone => ih _ (nodup_setField hdone field)
  exact hfold [] List.nodup_nil

theorem readScalar_ne_obj {f : FloatText φ} (input : List Char)
    (found : List (String × Json φ) × List Char) :
    (readConstant input).or (readNumber f input) ≠ some (.obj found.1, found.2) := by
  intro h
  rcases Option.or_eq_some_iff.mp h with hconstant | ⟨_, hnumber⟩
  · unfold readConstant at hconstant
    obtain ⟨constant, hmem, hstrip⟩ := List.exists_of_findSome?_eq_some hconstant
    obtain ⟨_, _, heq⟩ := Option.map_eq_some_iff.mp hstrip
    have hvalue : constant.2 = .obj found.1 := congrArg Prod.fst heq
    simp only [List.mem_cons, List.not_mem_nil, or_false] at hmem
    rcases hmem with rfl | rfl | rfl <;> cases hvalue
  · unfold readNumber at hnumber
    dsimp only at hnumber
    split at hnumber
    · obtain ⟨_, _, heq⟩ := Option.map_eq_some_iff.mp hnumber
      cases heq
    · obtain ⟨_, _, heq⟩ := Option.map_eq_some_iff.mp hnumber
      cases heq

/-- An object that is read has no key twice. -/
theorem nodup_loads {f : FloatText φ} {text : List Char} {fields : List (String × Json φ)}
    (h : loads f text = some (.obj fields)) : (fields.map Prod.fst).Nodup := by
  have hvalue : ∀ {fuel : ℕ} {input rest : List Char},
      readValue f fuel input = some (.obj fields, rest) → (fields.map Prod.fst).Nodup := by
    intro fuel input rest h
    cases fuel with
    | zero => cases h
    | succ fuel =>
      cases input with
      | nil => cases h
      | cons c input =>
        unfold readValue at h
        split at h
        · obtain ⟨_, _, heq⟩ := Option.map_eq_some_iff.mp h
          cases heq
        · split at h
          · obtain ⟨_, _, heq⟩ := Option.map_eq_some_iff.mp h
            cases heq
          · split at h
            · obtain ⟨found, _, heq⟩ := Option.map_eq_some_iff.mp h
              cases heq
              exact nodup_dictOf found.1
            · exact absurd h (readScalar_ne_obj _ (fields, rest))
  unfold loads at h
  split at h
  · next v hread =>
    cases h
    obtain ⟨⟨value, rest⟩, hfound, heq⟩ := Option.map_eq_some_iff.mp hread
    obtain ⟨rfl, _⟩ := Prod.mk.inj heq
    exact hvalue hfound
  · cases h

theorem ne_of_isNumberChar {c d : Char} (hc : isNumberChar c = true) (hd : isNumberChar d = false) :
    c ≠ d := fun h => by
  rw [h, hd] at hc
  cases hc

theorem readConstant_number {c : Char} (hc : isNumberChar c = true) (input : List Char) :
    (readConstant (c :: input) : Option (Json φ × List Char)) = none := by
  have hstrip : ∀ d text, isNumberChar d = false → strip (d :: text) (c :: input) = none :=
    fun d text hd => strip_cons_of_ne (ne_of_isNumberChar hc hd).symm text input
  unfold readConstant
  simp only [List.findSome?_cons, List.findSome?_nil, hstrip _ _ (by decide : isNumberChar 'n' = false),
    hstrip _ _ (by decide : isNumberChar 't' = false),
    hstrip _ _ (by decide : isNumberChar 'f' = false), Option.map_none]

theorem readValue_number {f : FloatText φ} {fuel : ℕ} {c : Char} (hc : isNumberChar c = true)
    (input : List Char) : readValue f (fuel + 1) (c :: input) = readNumber f (c :: input) := by
  unfold readValue
  rw [if_neg (ne_of_isNumberChar hc (by decide)), if_neg (ne_of_isNumberChar hc (by decide)),
    if_neg (ne_of_isNumberChar hc (by decide)), readConstant_number hc, Option.none_or]

theorem reads_number {f : FloatText φ} {fuel : ℕ} {text : List Char} {v : Json φ}
    (hne : text ≠ []) (hchars : ∀ c ∈ text, isNumberChar c = true)
    (hread : readNumber f text = some (v, [])) : Reads (readValue f (fuel + 1)) text v Follow := by
  intro rest hrest
  obtain ⟨htake, hdrop⟩ := takeWhile_append_stop hchars fun c hc => (hrest c hc).1
  have hself := takeWhile_whole hchars
  have hnumber : readNumber f (text ++ rest) = some (v, rest) := by
    unfold readNumber at hread ⊢
    dsimp only at hread ⊢
    rw [hself.1, hself.2] at hread
    rw [htake, hdrop]
    split at hread
    · next hint =>
      rw [if_pos hint]
      obtain ⟨found, hfound, heq⟩ := Option.map_eq_some_iff.mp hread
      cases heq
      rw [hfound, Option.map_some]
    · next hfloat =>
      rw [if_neg hfloat]
      obtain ⟨x, hx, heq⟩ := Option.map_eq_some_iff.mp hread
      cases heq
      rw [hx, Option.map_some]
  cases text with
  | nil => exact absurd rfl hne
  | cons c text =>
    rw [List.cons_append, readValue_number (hchars c List.mem_cons_self), ← List.cons_append, hnumber]

theorem readNumber_int (f : FloatText φ) (n : ℤ) :
    readNumber f (intText n) = some (.int n, []) := by
  obtain ⟨hint, hchars⟩ := isIntText_intText n
  obtain ⟨htake, hdrop⟩ := takeWhile_whole hchars
  have hread := reads_int n [] fun c hc => by cases hc
  rw [List.append_nil] at hread
  unfold readNumber
  dsimp only
  rw [htake, hdrop, if_pos hint, hread, Option.map_some]

theorem readNumber_float {f : FloatText φ} {x : φ} (hx : f.IsFloat x) :
    readNumber f (f.repr x) = some (.float x, []) := by
  obtain ⟨htake, hdrop⟩ := takeWhile_whole (f.number_repr x hx).2
  unfold readNumber
  dsimp only
  rw [htake, hdrop, if_neg (by rw [f.not_int_repr x hx]; decide), f.parse_repr x hx, Option.map_some]

theorem opens_number {text : List Char} (hne : text ≠ [])
    (hchars : ∀ c ∈ text, isNumberChar c = true) : Opens text := by
  cases text with
  | nil => exact absurd rfl hne
  | cons c text =>
    have hc := hchars c List.mem_cons_self
    refine ⟨c, text, rfl, ?_, ne_of_isNumberChar hc (by decide), ne_of_isNumberChar hc (by decide)⟩
    have hblank : c ≠ ' ' ∧ c ≠ '\t' ∧ c ≠ '\n' ∧ c ≠ '\r' :=
      ⟨ne_of_isNumberChar hc (by decide), ne_of_isNumberChar hc (by decide),
        ne_of_isNumberChar hc (by decide), ne_of_isNumberChar hc (by decide)⟩
    simp [isBlank, hblank]

theorem intText_ne_nil (n : ℤ) : intText n ≠ [] := by
  obtain ⟨c, digits, heq, -⟩ := head_intText n
  exact heq ▸ List.cons_ne_nil _ _

theorem opens_dumps {f : FloatText φ} (fmt : Format) {v : Json φ} (hv : Proper f v) :
    Opens (dumps f fmt v) := by
  cases hv with
  | null => exact ⟨'n', _, rfl, by decide, by decide, by decide⟩
  | bool b => cases b <;> exact ⟨_, _, rfl, by decide, by decide, by decide⟩
  | int n => exact opens_number (intText_ne_nil n) (isIntText_intText n).2
  | float hx => exact opens_number (f.number_repr _ hx).1 (f.number_repr _ hx).2
  | str s => exact ⟨quotationMark, _, rfl, by decide, by decide, by decide⟩
  | arr h => exact ⟨'[', _, rfl, by decide, by decide, by decide⟩
  | obj hkeys h => exact ⟨'{', _, rfl, by decide, by decide, by decide⟩

theorem length_item (f : FloatText φ) (fmt : Format) {items : List (Json φ)} {v : Json φ}
    (h : v ∈ items) : (dumps f fmt v).length < (dumps f fmt (.arr items)).length := by
  have hle := length_le_intercalate (',' :: fmt.pad) (dumps f fmt) h
  rw [dumps_arr, List.length_cons, List.length_append]
  omega

theorem length_field (f : FloatText φ) (fmt : Format) {fields : List (String × Json φ)}
    {field : String × Json φ} (h : field ∈ fields) :
    (dumps f fmt field.2).length < (dumps f fmt (.obj fields)).length := by
  have hle := length_le_intercalate (',' :: fmt.pad) (fieldText f fmt) h
  have hfield : (dumps f fmt field.2).length ≤ (fieldText f fmt field).length := by
    unfold fieldText
    rw [List.length_append, List.length_cons, List.length_append]
    omega
  rw [dumps_obj, List.length_cons, List.length_append]
  omega

/-- What is written of a value is read back, whatever comes behind it. The induction is on the
fuel, which pays for the depth. -/
theorem reads_value {f : FloatText φ} (fmt : Format) {fuel : ℕ} {v : Json φ} (hv : Proper f v)
    (hfuel : (dumps f fmt v).length ≤ fuel) :
    Reads (readValue f fuel) (dumps f fmt v) v Follow := by
  induction fuel generalizing v with
  | zero =>
    obtain ⟨c, more, heq, -⟩ := opens_dumps fmt hv
    rw [heq] at hfuel
    exact absurd hfuel (Nat.not_succ_le_zero _)
  | succ fuel ih =>
    cases hv with
    | null => exact fun _ _ => rfl
    | bool b => cases b <;> exact fun _ _ => rfl
    | int n => exact reads_number (intText_ne_nil n) (isIntText_intText n).2 (readNumber_int f n)
    | float hx =>
      exact reads_number (f.number_repr _ hx).1 (f.number_repr _ hx).2 (readNumber_float hx)
    | str s =>
      intro rest _
      have hread := reads_string s rest trivial
      simp only [dumps, stringText, List.cons_append, readValue, if_true] at hread ⊢
      rw [hread, Option.map_some]
    | @arr items h =>
      intro rest _
      have hitem : ∀ v ∈ items, Reads (readValue f fuel) (dumps f fmt v) v Follow ∧
          Opens (dumps f fmt v) := fun v hmem => by
        have hlt := Nat.lt_of_lt_of_le (length_item f fmt hmem) hfuel
        exact ⟨ih (h v hmem) (Nat.le_of_lt_succ hlt), opens_dumps fmt (h v hmem)⟩
      rw [dumps_arr, List.cons_append]
      unfold readValue
      rw [if_neg (by decide), if_pos rfl, reads_list (.inl rfl) fmt hitem rest trivial,
        Option.map_some]
    | @obj fields hkeys h =>
      intro rest _
      have hitem : ∀ field ∈ fields, Reads (readField (readValue f fuel)) (fieldText f fmt field)
          field Follow ∧ Opens (fieldText f fmt field) := fun field hmem => by
        have hlt := Nat.lt_of_lt_of_le (length_field f fmt hmem) hfuel
        have hvalue := ih (h field hmem) (Nat.le_of_lt_succ hlt)
        exact ⟨reads_field hvalue (opens_dumps fmt (h field hmem)), opens_fieldText f fmt field⟩
      rw [dumps_obj, List.cons_append]
      unfold readValue
      rw [if_neg (by decide), if_neg (by decide), if_pos rfl,
        reads_list (.inr rfl) fmt hitem rest trivial, Option.map_some, dictOf_of_nodup hkeys]

theorem loads_dumps {f : FloatText φ} (fmt : Format) {v : Json φ} (hv : Proper f v) :
    loads f (dumps f fmt v) = some v := by
  have hread := reads_padded_item (List.forall_mem_nil _)
    (reads_value fmt hv (Nat.le_refl _)) (opens_dumps fmt hv) [] fun c hc => by cases hc
  rw [List.nil_append, List.append_nil] at hread
  unfold loads
  rw [hread]

def asInt : Json φ → Option ℤ
  | .int n => some n
  | _ => none

def asString : Json φ → Option String
  | .str s => some s
  | _ => none

def asList (item : Json φ → Option α) : Json φ → Option (List α)
  | .arr items => items.mapM item
  | _ => none

def requiredField (read : Json φ → Option α) (fields : List (String × Json φ)) (key : String) :
    Option α :=
  (fields.lookup key).bind read

def optionalField (read : Json φ → Option α) (fields : List (String × Json φ)) (key : String) :
    Option (Option α) :=
  match fields.lookup key with
  | none => some none
  | some v => (read v).map some

theorem mapM_map_some {β : Type} (write : α → β) {read : β → Option α}
    (h : ∀ a, read (write a) = some a) (as : List α) : (as.map write).mapM read = some as := by
  rw [List.mapM_map]
  have hread : (fun a => read (write a)) = fun a => some (id a) := funext h
  exact (congrArg (List.mapM · as) hread).trans (List.mapM_pure.trans (by rw [List.map_id]; rfl))

theorem asList_map (write : α → Json φ) {read : Json φ → Option α}
    (h : ∀ a, read (write a) = some a) (as : List α) :
    asList read (.arr (as.map write)) = some as :=
  mapM_map_some write h as

theorem requiredField_cons_self (read : Json φ → Option α) (key : String) (v : Json φ)
    (fields : List (String × Json φ)) : requiredField read ((key, v) :: fields) key = read v := by
  unfold requiredField
  rw [List.lookup_cons_self, Option.bind_some]

def ProperFields (f : FloatText φ) (fields : List (String × Json φ)) : Prop :=
  ∀ field ∈ fields, Proper f field.2

theorem ProperFields.nil {f : FloatText φ} : ProperFields f [] := List.forall_mem_nil _

theorem ProperFields.cons {f : FloatText φ} {k : String} {v : Json φ}
    {fields : List (String × Json φ)} (hv : Proper f v) (h : ProperFields f fields) :
    ProperFields f ((k, v) :: fields) :=
  List.forall_mem_cons.mpr ⟨hv, h⟩

theorem proper_obj {f : FloatText φ} {fields : List (String × Json φ)}
    (hkeys : (fields.map Prod.fst).Nodup) (h : ProperFields f fields) : Proper f (.obj fields) :=
  .obj hkeys h

theorem Proper.filter {f : FloatText φ} {fields : List (String × Json φ)}
    (h : Proper f (.obj fields)) (p : String × Json φ → Bool) : Proper f (.obj (fields.filter p)) := by
  cases h with
  | obj hkeys h =>
    exact .obj (hkeys.sublist (List.filter_sublist.map Prod.fst))
      fun field hfield => h field (List.mem_of_mem_filter hfield)

theorem proper_map {f : FloatText φ} {write : α → Json φ} {as : List α}
    (h : ∀ a ∈ as, Proper f (write a)) : Proper f (.arr (as.map write)) :=
  .arr fun v hv => by
    obtain ⟨a, ha, rfl⟩ := List.mem_map.mp hv
    exact h a ha

def Ascii (text : List Char) : Prop := ∀ c ∈ text, c.toNat < 128

theorem Ascii.append {text more : List Char} (h : Ascii text) (h' : Ascii more) :
    Ascii (text ++ more) :=
  fun c hc => (List.mem_append.mp hc).elim (h c) (h' c)

theorem Ascii.cons {c : Char} {text : List Char} (hc : c.toNat < 128) (h : Ascii text) :
    Ascii (c :: text) := List.forall_mem_cons.mpr ⟨hc, h⟩

theorem ascii_nil : Ascii [] := List.forall_mem_nil _

theorem ascii_of_all {text : List Char} (h : (text.all fun c => c.toNat < 128) = true) :
    Ascii text :=
  fun c hc => of_decide_eq_true (List.all_eq_true.mp h c hc)

theorem ascii_intercalate {sep : List Char} {print : α → List Char} {as : List α}
    (hsep : Ascii sep) (h : ∀ a ∈ as, Ascii (print a)) : Ascii (sep.intercalate (as.map print)) := by
  induction as with
  | nil => exact ascii_nil
  | cons a as ih =>
    have ha := h a List.mem_cons_self
    have hrest := ih fun b hb => h b (List.mem_cons_of_mem _ hb)
    cases as with
    | nil => exact (List.intercalate_singleton : sep.intercalate [print a] = _) ▸ ha
    | cons b as =>
      rw [List.map_cons, List.map_cons, List.intercalate_cons_cons]
      exact (ha.append hsep).append hrest

theorem ascii_hex4 (n : ℕ) (h : n < 0x10000) : Ascii (hex4 n) := by
  have hdigit : ∀ d : Fin 16, (Nat.digitChar d.val).toNat < 128 := by decide
  have hall : ∀ d < 16, (Nat.digitChar d).toNat < 128 := fun d hd => hdigit ⟨d, hd⟩
  exact .cons (hall _ (by omega)) (.cons (hall _ (by omega)) (.cons (hall _ (by omega))
    (.cons (hall _ (by omega)) ascii_nil)))

theorem ascii_unicodeEscape (c : Char) : Ascii (unicodeEscape c.toNat) := by
  have hunit : ∀ n < 0x10000, Ascii (unicodeUnit n) := fun n hn =>
    .cons (by decide) (.cons (by decide) (ascii_hex4 n hn))
  have hvalid := toNat_valid c
  unfold unicodeEscape
  split
  · next h => exact hunit _ h
  · exact (hunit _ (by omega)).append (hunit _ (by omega))

theorem ascii_escaped (c : Char) : Ascii (escaped c) := by
  unfold escaped
  split
  · next letter hletter =>
    have hletters : (letterEscapes.all fun p => p.2.toNat < 128) = true := by decide
    obtain ⟨before, after, heq, -⟩ := List.lookup_eq_some_iff.mp hletter
    have hmem : (c, letter) ∈ letterEscapes := heq ▸ List.mem_append_right _ List.mem_cons_self
    exact .cons (by decide) (.cons (of_decide_eq_true (List.all_eq_true.mp hletters _ hmem)) ascii_nil)
  · split
    · next hprint =>
      have hle : c.toNat ≤ 126 := hprint.2
      exact .cons (by omega) ascii_nil
    · exact ascii_unicodeEscape c

theorem ascii_stringText (s : String) : Ascii (stringText s) := by
  refine .cons (by decide) (.append (fun c hc => ?_) (.cons (by decide) ascii_nil))
  obtain ⟨d, -, hd⟩ := List.mem_flatMap.mp hc
  exact ascii_escaped d c hd

theorem ascii_number {text : List Char} (h : ∀ c ∈ text, isNumberChar c = true) : Ascii text := by
  intro c hc
  have hchar := h c hc
  unfold isNumberChar Char.isDigit at hchar
  simp only [Bool.or_eq_true, Bool.and_eq_true, decide_eq_true_eq] at hchar
  rcases hchar with ((((hdigit | rfl) | rfl) | rfl) | rfl) | rfl
  · have hle : c.toNat ≤ 57 := hdigit.2
    omega
  all_goals decide

theorem ascii_pad (fmt : Format) : Ascii fmt.pad := by
  intro c hc
  have hblank := fmt.blanks c hc
  unfold isBlank at hblank
  simp only [Bool.or_eq_true, decide_eq_true_eq] at hblank
  rcases hblank with ((rfl | rfl) | rfl) | rfl <;> decide

theorem ascii_dumps {f : FloatText φ} (fmt : Format) {v : Json φ} (hv : Proper f v) :
    Ascii (dumps f fmt v) := by
  have hsep : Ascii (',' :: fmt.pad) := .cons (by decide) (ascii_pad fmt)
  induction hv with
  | null => exact ascii_of_all rfl
  | bool b => cases b <;> exact ascii_of_all rfl
  | int n => exact ascii_number (isIntText_intText n).2
  | float hx => exact ascii_number (f.number_repr _ hx).2
  | str s => exact ascii_stringText s
  | arr _ ih =>
    rw [dumps_arr]
    exact .cons (by decide) ((ascii_intercalate hsep ih).append (.cons (by decide) ascii_nil))
  | obj _ _ ih =>
    rw [dumps_obj]
    refine .cons (by decide) ((ascii_intercalate hsep fun field hfield => ?_).append
      (.cons (by decide) ascii_nil))
    exact (ascii_stringText _).append (.cons (by decide) ((ascii_pad fmt).append (ih field hfield)))

theorem utf8ByteSize_of_ascii {text : List Char} (h : Ascii text) :
    (String.ofList text).utf8ByteSize = text.length := by
  induction text with
  | nil => rfl
  | cons c text ih =>
    obtain ⟨hc, htext⟩ := List.forall_mem_cons.mp h
    have hsize : c.utf8Size = 1 := Char.utf8Size_eq_one_iff.mpr (Nat.le_of_lt_succ hc)
    rw [← List.singleton_append, String.ofList_append, String.utf8ByteSize_append,
      ← String.singleton_eq_ofList, String.utf8ByteSize_singleton, hsize, ih htext,
      List.singleton_append, List.length_cons, Nat.add_comm]

end StrataMemory.JsonTexts
