import StrataMemory.CanonicalStore
import StrataMemory.ZvecAdapter

set_option autoImplicit false

namespace StrataMemory.QueryTexts
open Records CanonicalStore TextReaders JsonTexts ZvecAdapter

def readAll {α : Type} (read : Reader α) (text : String) : Option α :=
  match read text.toList with
  | some (a, []) => some a
  | _ => none

theorem readAll_of_reads {α : Type} {read : Reader α} {text : String} {a : α}
    {Follow : List Char → Prop} (h : Reads read text.toList a Follow) (hend : Follow []) :
    readAll read text = some a := by
  have hread := h [] hend
  rw [List.append_nil] at hread
  unfold readAll
  rw [hread]

def Blank (rest : List Char) : Prop := ∀ c ∈ rest.head?, c = ' '

theorem blank_nil : Blank [] := fun _ hc => by cases hc

def quotationMark : Char := Char.ofNat 34

/-- Strings in quotation marks, with blanks between them: their conjunction. -/
def readMatch (text : String) : Option (List String) :=
  (readAll (sepBy [' '] (readQuoted quotationMark) text.length) text).map fun found =>
    found.map String.ofList

theorem toList_quote (t : String) (h : quotationMark ∉ t.toList) :
    ("\"" ++ t ++ "\"").toList = quoted quotationMark t.toList := by
  unfold quoted
  rw [String.toList_append, String.toList_append, doubled_of_not_mem h]
  rfl

theorem toList_safeMatch {p : Platform} {text : String} (hne : p.words text ≠ [])
    (hwords : ∀ t ∈ p.words text, quotationMark ∉ t.toList) : (safeMatch p text).toList =
      List.intercalate [' '] (((p.words text).map String.toList).map (quoted quotationMark)) := by
  have hquoted : (p.words text).map (fun t => ("\"" ++ t ++ "\"").toList) =
      ((p.words text).map String.toList).map (quoted quotationMark) := by
    rw [List.map_map]
    exact List.map_congr_left fun t ht => toList_quote t (hwords t ht)
  unfold safeMatch
  split
  · next hempty => exact absurd hempty hne
  · rw [String.toList_intercalate, List.map_map]
    exact congrArg _ hquoted

/-- Of any text of a host, as the language of MATCH reads it, the word tokens are asked for and
nothing else: no quotation mark ends a string and no word is an operator. -/
theorem match_reads_back (p : Platform) (text : String)
    (hwords : ∀ t ∈ p.words text, quotationMark ∉ t.toList) :
    readMatch (safeMatch p text) = some (if p.words text = [] then [""] else p.words text) := by
  by_cases hempty : p.words text = []
  · have hmatch : safeMatch p text = "\"\"" := by
      unfold safeMatch
      rw [hempty]
    rw [hmatch, if_pos hempty]
    decide
  · let tokens := (p.words text).map String.toList
    have hlength : tokens.length ≤ (safeMatch p text).length := by
      rw [← String.length_toList, toList_safeMatch hempty hwords]
      exact length_intercalate fun t _ => List.cons_ne_nil _ _
    have htoken : ∀ t ∈ tokens, Reads (readQuoted quotationMark) (quoted quotationMark t) t Blank :=
      fun t _ rest hrest => reads_quoted quotationMark t rest fun c hc => by
        rw [hrest c hc]
        decide
    have hblank : ∀ rest, Blank ([' '] ++ rest) := fun _ _ hc => (Option.some.inj hc).symm
    have hread := reads_sepBy htoken hblank (fun h => hempty (List.map_eq_nil_iff.mp h)) hlength
    rw [← toList_safeMatch hempty hwords] at hread
    unfold readMatch
    rw [readAll_of_reads hread ⟨blank_nil, rfl⟩, if_neg hempty, Option.map_some,
      List.map_map]
    exact congrArg some (List.map_id'' (fun t => String.ofList_toList) _)

/-- Words of letters and digits; an underscore is a letter. -/
def asciiPlatform : Platform where
  contentHash text := text
  lower text := text
  words text :=
    ((text.toList.splitOnP fun c => !(c.isAlphanum || c = '_')).filter fun word => !word.isEmpty).map
      String.ofList
  cosine _ _ := 0
  bm25 _ _ _ := none

theorem match_reads_back_operators :
    let text := "tea\" OR content : milk* NEAR("
    (∀ t ∈ asciiPlatform.words text, quotationMark ∉ t.toList) ∧
      readMatch (safeMatch asciiPlatform text) = some ["tea", "OR", "content", "milk", "NEAR"] := by
  intro text
  have hwords : ∀ t ∈ asciiPlatform.words text, quotationMark ∉ t.toList := by decide +kernel
  exact ⟨hwords, (match_reads_back asciiPlatform text hwords).trans (by decide +kernel)⟩

/-- A string in apostrophes; or, up to a blank, a truth value or a number. -/
def readLiteral : Reader Literal := fun input =>
  match readQuoted apostrophe input with
  | some (text, rest) => some (.str (String.ofList text), rest)
  | none =>
    let word := input.takeWhile (· ≠ ' ')
    let rest := input.dropWhile (· ≠ ' ')
    if word = "true".toList then some (.bool true, rest)
    else if word = "false".toList then some (.bool false, rest)
    else if isIntText word then (readInt word).map fun found => (.int found.1, rest)
    else if hfloat : isFloatText word = true then some (.float ⟨word, hfloat⟩, rest)
    else none

def readClause : Reader (String × Literal) := fun input =>
  match strip " = ".toList (input.dropWhile (· ≠ ' ')) with
  | none => none
  | some rest =>
    (readLiteral rest).map fun found => ((String.ofList (input.takeWhile (· ≠ ' ')), found.1), found.2)

def readFilter (text : String) : Option (List (String × Literal)) :=
  readAll (sepBy " AND ".toList readClause text.length) text

theorem readQuoted_other {quote c : Char} (hc : c ≠ quote) (input : List Char) :
    readQuoted quote (c :: input) = none := if_neg hc

theorem number_ne {text : List Char} (htext : ∀ c ∈ text, isNumberChar c = true) {other : List Char}
    {c : Char} (hc : c ∈ other) (hother : isNumberChar c = false) : text ≠ other := fun h => by
  rw [htext c (h ▸ hc)] at hother
  cases hother

theorem word_of_all {text : List Char}
    (h : (text.all fun c => c ≠ ' ' && c ≠ apostrophe) = true) :
    ∀ c ∈ text, c ≠ ' ' ∧ c ≠ apostrophe := fun c hc => by
  simpa using List.all_eq_true.mp h c hc

theorem float_word {text : List Char} (h : isFloatText text = true) :
    isIntText text = false ∧ (∀ c ∈ text, c ≠ ' ' ∧ c ≠ apostrophe) ∧
      text ≠ "true".toList ∧ text ≠ "false".toList := by
  unfold isFloatText at h
  simp only [Bool.or_eq_true, Bool.and_eq_true, decide_eq_true_eq, Bool.not_eq_true'] at h
  rcases h with ((rfl | rfl) | rfl) | ⟨⟨-, hchars⟩, hint⟩
  · exact ⟨by decide, word_of_all (by decide), by decide, by decide⟩
  · exact ⟨by decide, word_of_all (by decide), by decide, by decide⟩
  · exact ⟨by decide, word_of_all (by decide), by decide, by decide⟩
  · have hall : ∀ c ∈ text, isNumberChar c = true := List.all_eq_true.mp hchars
    refine ⟨hint, fun c hc => ⟨ne_of_isNumberChar (hall c hc) (by decide),
      ne_of_isNumberChar (hall c hc) (by decide)⟩, ?_, ?_⟩
    · exact number_ne hall (c := 't') (by decide) (by decide)
    · exact number_ne hall (c := 'f') (by decide) (by decide)

theorem readLiteral_word {word rest : List Char} (hword : ∀ c ∈ word, c ≠ ' ' ∧ c ≠ apostrophe)
    (hrest : Blank rest) : readQuoted apostrophe (word ++ rest) = none ∧
      (word ++ rest).takeWhile (· ≠ ' ') = word ∧ (word ++ rest).dropWhile (· ≠ ' ') = rest := by
  obtain ⟨htake, hdrop⟩ : (word ++ rest).takeWhile (· ≠ ' ') = word ∧
      (word ++ rest).dropWhile (· ≠ ' ') = rest :=
    takeWhile_append_stop (fun c hc => decide_eq_true (hword c hc).1) fun c hc =>
      decide_eq_false (not_not.mpr (hrest c hc))
  refine ⟨?_, htake, hdrop⟩
  cases word with
  | nil =>
    cases rest with
    | nil => rfl
    | cons c rest =>
      refine readQuoted_other ?_ rest
      rw [hrest c rfl]
      decide
  | cons c word => exact readQuoted_other (hword c List.mem_cons_self).2 _

theorem reads_literal (v : Literal) : Reads readLiteral (lit v).toList v Blank := by
  intro rest hrest
  cases v with
  | bool b =>
    have hword : ∀ c ∈ (lit (.bool b)).toList, c ≠ ' ' ∧ c ≠ apostrophe :=
      word_of_all (by cases b <;> decide)
    obtain ⟨hquoted, htake, hdrop⟩ := readLiteral_word hword hrest
    unfold readLiteral
    rw [hquoted]
    dsimp only
    rw [htake, hdrop]
    cases b <;> rfl
  | str s =>
    have htext : (lit (.str s)).toList = quoted apostrophe s.toList := by
      unfold lit quoted
      rw [String.toList_append, String.toList_append, String.toList_ofList, String.toList_ofList]
      rfl
    unfold readLiteral
    rw [htext, reads_quoted apostrophe s.toList rest fun c hc => by
      rw [hrest c hc]
      decide]
    dsimp only
    rw [String.ofList_toList]
  | int n =>
    obtain ⟨hint, hchars⟩ := isIntText_intText n
    have hread := reads_int n [] fun c hc => by cases hc
    rw [List.append_nil] at hread
    have hword : ∀ c ∈ intText n, c ≠ ' ' ∧ c ≠ apostrophe := fun c hc =>
      ⟨ne_of_isNumberChar (hchars c hc) (by decide), ne_of_isNumberChar (hchars c hc) (by decide)⟩
    obtain ⟨hquoted, htake, hdrop⟩ := readLiteral_word hword hrest
    change readLiteral (intText n ++ rest) = _
    unfold readLiteral
    rw [hquoted]
    dsimp only
    have htrue : intText n ≠ "true".toList := number_ne hchars (c := 't') (by decide) (by decide)
    have hfalse : intText n ≠ "false".toList := number_ne hchars (c := 'f') (by decide) (by decide)
    rw [htake, hdrop, if_neg htrue, if_neg hfalse, if_pos hint, hread]
    rfl
  | float x =>
    obtain ⟨hint, hword, htrue, hfalse⟩ := float_word x.isFloat
    obtain ⟨hquoted, htake, hdrop⟩ := readLiteral_word hword hrest
    have htext : (lit (.float x)).toList = x.text := String.toList_ofList
    rw [htext]
    unfold readLiteral
    rw [hquoted]
    dsimp only
    rw [htake, hdrop, if_neg htrue, if_neg hfalse, if_neg (by rw [hint]; decide), dif_pos x.isFloat]

def asked (generation : Option ℤ) (filters : List (String × Literal)) : List (String × Literal) :=
  (generation.map fun g => ("generation", Literal.int g)).toList ++ filters

def clauseText (clause : String × Literal) : List Char :=
  (clause.1 ++ " = " ++ lit clause.2).toList

theorem reads_clause {clause : String × Literal} (hfield : ' ' ∉ clause.1.toList) :
    Reads readClause (clauseText clause) clause Blank := by
  intro rest hrest
  have htext : clauseText clause ++ rest =
      clause.1.toList ++ (" = ".toList ++ ((lit clause.2).toList ++ rest)) := by
    unfold clauseText
    rw [String.toList_append, String.toList_append, List.append_assoc, List.append_assoc]
  have hname : ∀ c ∈ clause.1.toList, decide (c ≠ ' ') = true := fun c hc =>
    decide_eq_true fun h => hfield (h ▸ hc)
  have hstop : ∀ c ∈ (" = ".toList ++ ((lit clause.2).toList ++ rest)).head?,
      decide (c ≠ ' ') = false := fun c hc => by
    cases hc
    rfl
  obtain ⟨htake, hdrop⟩ := takeWhile_append_stop hname hstop
  unfold readClause
  rw [htext, htake, hdrop, strip_append]
  dsimp only
  rw [reads_literal clause.2 rest hrest, String.ofList_toList]
  rfl

theorem filterExpr_asked (generation : Option ℤ) (filters : List (String × Literal)) :
    filterExpr generation filters = if asked generation filters = [] then none else
      some (" AND ".intercalate ((asked generation filters).map fun f => f.1 ++ " = " ++ lit f.2)) := by
  cases generation with
  | none => cases filters <;> rfl
  | some g => rfl

/-- A filter expression is read as the clauses that were asked for: no value of a filter adds,
ends or changes one. -/
theorem filter_reads_back (generation : Option ℤ) (filters : List (String × Literal))
    (hfields : ∀ f ∈ filters, ' ' ∉ f.1.toList) :
    (filterExpr generation filters).elim (some []) readFilter = some (asked generation filters) := by
  let clauses := asked generation filters
  rw [filterExpr_asked]
  by_cases hempty : clauses = []
  · rw [if_pos hempty]
    exact congrArg some hempty.symm
  · have hnames : ∀ f ∈ clauses, ' ' ∉ f.1.toList := by
      intro f hf
      rcases List.mem_append.mp hf with hf | hf
      · obtain ⟨g, _, rfl⟩ := Option.map_eq_some_iff.mp (Option.mem_toList.mp hf)
        exact show ' ' ∉ "generation".toList by decide
      · exact hfields f hf
    let text := " AND ".intercalate (clauses.map fun f => f.1 ++ " = " ++ lit f.2)
    have htext : text.toList = " AND ".toList.intercalate (clauses.map clauseText) := by
      rw [String.toList_intercalate, List.map_map]
      rfl
    have hlength : clauses.length ≤ text.length := by
      rw [← String.length_toList, htext]
      refine length_intercalate fun f _ => ?_
      unfold clauseText
      rw [String.toList_append, String.toList_append]
      exact List.append_ne_nil_of_left_ne_nil (List.append_ne_nil_of_right_ne_nil _ (by decide)) _
    have hblank : ∀ rest, Blank (" AND ".toList ++ rest) := fun _ _ hc => (Option.some.inj hc).symm
    have hread := reads_sepBy (fun f hf => reads_clause (hnames f hf)) hblank hempty hlength
    rw [← htext] at hread
    rw [if_neg hempty]
    exact readAll_of_reads hread ⟨blank_nil, rfl⟩

theorem filter_reads_back_injected :
    let half : Literal := .float ⟨['0', '.', '5'], by decide⟩
    let filters := [("status", Literal.str "' AND tier = 'L0"), ("tier", .str "L1"), ("rank", half)]
    (∀ f ∈ filters, ' ' ∉ f.1.toList) ∧
      (filterExpr (some (-1)) filters).elim (some []) readFilter = some [("generation", .int (-1)),
        ("status", .str "' AND tier = 'L0"), ("tier", .str "L1"), ("rank", half)] := by
  intro half filters
  have hfields : ∀ f ∈ filters, ' ' ∉ f.1.toList := by decide +kernel
  exact ⟨hfields, filter_reads_back (some (-1)) filters hfields⟩

end StrataMemory.QueryTexts
