import Mathlib.Data.Nat.Notation

set_option autoImplicit false

/-!
# The quoted form of a text

`repr` of a text: the quote that the text does not hold where there is one, and escapes for what
cannot be printed.
-/
namespace StrataMemory.ReprTexts

def apostrophe : Char := Char.ofNat 39

def quotationMark : Char := Char.ofNat 34

def backslash : Char := Char.ofNat 92

def hexDigits : ℕ → ℕ → List Char
  | 0, _ => []
  | width + 1, n => hexDigits width (n / 16) ++ [Nat.digitChar (n % 16)]

/-- Beyond ASCII the language asks its table of characters what can be printed. -/
def escaped (printable : Char → Bool) (quote c : Char) : List Char :=
  if c = quote ∨ c = backslash then [backslash, c]
  else if c = '\t' then [backslash, 't']
  else if c = '\n' then [backslash, 'n']
  else if c = '\r' then [backslash, 'r']
  else if ' ' ≤ c ∧ c ≤ '~' then [c]
  else if 127 < c.toNat ∧ printable c then [c]
  else if c.toNat < 0x100 then backslash :: 'x' :: hexDigits 2 c.toNat
  else if c.toNat < 0x10000 then backslash :: 'u' :: hexDigits 4 c.toNat
  else backslash :: 'U' :: hexDigits 8 c.toNat

def quoteOf (text : List Char) : Char :=
  if apostrophe ∈ text ∧ quotationMark ∉ text then quotationMark else apostrophe

def quoted (printable : Char → Bool) (text : String) : String :=
  let quote := quoteOf text.toList
  String.ofList (quote :: (text.toList.flatMap (escaped printable quote) ++ [quote]))

example : quoted (fun _ => true) "no target 'x'" =
    String.ofList (quotationMark :: ("no target 'x'".toList ++ [quotationMark])) := by decide

end StrataMemory.ReprTexts
