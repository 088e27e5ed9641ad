import StrataMemory.StoreHistories
import StrataMemory.JsonTexts

set_option autoImplicit false

/-!
# The zvec hot adapter

One native collection, whose documents are keyed by the id alone, with a filter language
for their fields. The native package is a parameter.
-/
namespace StrataMemory.ZvecAdapter
open KeyedTables Records Tables VectorStore TextReaders
open JsonTexts (isIntText isNumberChar)

variable {κ φ : Type}

/-- What `str` writes of a float: a number that is not a whole one's text, or no number. -/
def isFloatText (text : List Char) : Bool :=
  text = ['n', 'a', 'n'] || text = ['i', 'n', 'f'] || text = ['-', 'i', 'n', 'f'] ||
    (!text.isEmpty && text.all isNumberChar && !isIntText text)

structure FloatLiteral where
  text : List Char
  isFloat : isFloatText text = true
  deriving DecidableEq

/-- A value of a filter; what is neither a truth value nor a number stands as its `str`. -/
inductive Literal where
  | bool (b : Bool)
  | int (n : ℤ)
  | float (x : FloatLiteral)
  | str (s : String)
  deriving DecidableEq

def apostrophe : Char := Char.ofNat 39

/-- `_lit`. -/
def lit : Literal → String
  | .bool b => if b then "true" else "false"
  | .int n => toString n
  | .float x => String.ofList x.text
  | .str s => "'" ++ String.ofList (doubled apostrophe s.toList) ++ "'"

/-- The `filter_expr` of a search. -/
def filterExpr (generation : Option ℤ) (filters : List (String × Literal)) : Option String :=
  let clauses := (generation.map fun g => "generation = " ++ toString g).toList ++
    filters.map fun f => f.1 ++ " = " ++ lit f.2
  if clauses.isEmpty then none else some (" AND ".intercalate clauses)

structure Doc where
  id : String
  vector : List ℚ
  contentHash : String
  generation : ℤ
  status : String
  tier : String
  sensitivity : String
  deriving DecidableEq

def Doc.field (d : Doc) : String → Option Literal
  | "content_hash" => some (.str d.contentHash)
  | "generation" => some (.int d.generation)
  | "status" => some (.str d.status)
  | "tier" => some (.str d.tier)
  | "sensitivity" => some (.str d.sensitivity)
  | _ => none

/-- What a query returns of a document: its distance, and the output fields that it has. -/
structure Found where
  id : String
  score : ℚ
  contentHash : Option String
  generation : Option ℤ

/-- What the adapter calls: `zvec` and its collections, of type `κ` and in directories of
type `φ`. -/
structure Native (κ φ : Type) where
  createAndOpen : ℕ → κ
  openDirectory : φ → κ
  upsert : κ → List Doc → κ
  delete : κ → List String → κ
  fetch : κ → List String → List String
  query : κ → List ℚ → ℕ → Option String → List Found
  optimize : κ → κ
  flush : κ → φ

/-- `directory` is what lies under the adapter's path, if it is not empty. -/
structure ZvecHotAdapter (κ φ : Type) where
  dim : ℕ
  col : κ
  directory : Option φ

namespace ZvecHotAdapter

def create (n : Native κ φ) (dim : ℕ) (directory : Option φ) : ZvecHotAdapter κ φ where
  dim := dim
  col := match directory with
    | some files => n.openDirectory files
    | none => n.createAndOpen dim
  directory := directory

def flush (n : Native κ φ) (a : ZvecHotAdapter κ φ) : ZvecHotAdapter κ φ :=
  { a with directory := some (n.flush a.col) }

def docOf (r : VectorRecord) : Doc where
  id := toString r.id
  vector := r.vector
  contentHash := r.contentHash
  generation := r.embeddingGeneration
  status := (r.metadata.lookup "status").getD ""
  tier := (r.metadata.lookup "tier").getD ""
  sensitivity := (r.metadata.lookup "sensitivity").getD ""

/-- A vector of another dimension raises before anything is written. -/
def upsert (n : Native κ φ) (a : ZvecHotAdapter κ φ) (records : List VectorRecord) :
    Except String Acks × ZvecHotAdapter κ φ :=
  match records.find? fun r => r.vector.length ≠ a.dim with
  | some r =>
    (.error ("vector dim " ++ toString r.vector.length ++ " != collection dim " ++ toString a.dim ++
      " (a different embedding dimension needs a separate shadow collection)"), a)
  | none =>
    (.ok (records.map fun r => (r.id, true)),
      if records.isEmpty then a
      else flush n { a with col := n.upsert a.col (records.map docOf) })

def contains (n : Native κ φ) (a : ZvecHotAdapter κ φ) (id : RecordId) : Bool :=
  toString id ∈ n.fetch a.col [toString id]

def remove (n : Native κ φ) (a : ZvecHotAdapter κ φ) (ids : List RecordId) :
    Acks × ZvecHotAdapter κ φ :=
  let a' := if ids.isEmpty then a
    else flush n { a with col := n.delete a.col (ids.map fun id => toString id) }
  (ids.map fun id => (id, !a'.contains n id), a')

/-- `int(doc.id)`. -/
def idOf (key : String) : RecordId :=
  match readInt key.toList with
  | some (id, _) => id
  | none => 0

def search (n : Native κ φ) (a : ZvecHotAdapter κ φ) (vector : List ℚ) (topK : ℕ)
    (generation : Option ℤ) (filters : List (String × Literal)) : List VectorHit :=
  if vector.length ≠ a.dim then []
  else (n.query a.col vector topK (filterExpr generation filters)).map fun doc =>
    ⟨idOf doc.id, 1 - doc.score, doc.contentHash.getD "", doc.generation.getD (generation.getD 0)⟩

def compact (n : Native κ φ) (a : ZvecHotAdapter κ φ) : ZvecHotAdapter κ φ :=
  flush n { a with col := n.optimize a.col }

def persist (n : Native κ φ) (a : ZvecHotAdapter κ φ) : ZvecHotAdapter κ φ := flush n a

end ZvecHotAdapter

theorem idOf_toString (id : RecordId) : ZvecHotAdapter.idOf (toString id) = id := by
  have hread := reads_int id [] fun c hc => by cases hc
  rw [List.append_nil] at hread
  unfold ZvecHotAdapter.idOf
  change (match readInt (intText id) with
    | some (id, _) => id
    | none => 0) = id
  rw [hread]

theorem toString_injective {id other : RecordId} (h : toString id = toString other) : id = other := by
  rw [← idOf_toString id, h, idOf_toString]

end StrataMemory.ZvecAdapter
