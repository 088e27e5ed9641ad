import StrataMemory.ListOrders
import Mathlib.Data.Rat.Defs

set_option autoImplicit false

namespace StrataMemory.Records
open ListOrders

abbrev RecordId := ℤ
abbrev OpId := ℕ
/-- Epoch milliseconds. -/
abbrev Time := ℤ

inductive RecordType where
  | fact | episode | profile | guardrail | reflection | aggregation | skill | routine | system
  deriving DecidableEq

inductive Tier where
  | l0 | l1 | l1_5 | l2 | l3 | l4
  deriving DecidableEq

def Tier.value : Tier → String
  | .l0 => "L0"
  | .l1 => "L1"
  | .l1_5 => "L1.5"
  | .l2 => "L2"
  | .l3 => "L3"
  | .l4 => "L4"

inductive Status where
  | candidate | active | reinforced | stale | superseded | contradicted | archived | deleted
  deriving DecidableEq

def Status.value : Status → String
  | .candidate => "candidate"
  | .active => "active"
  | .reinforced => "reinforced"
  | .stale => "stale"
  | .superseded => "superseded"
  | .contradicted => "contradicted"
  | .archived => "archived"
  | .deleted => "deleted"

/-- The pair `_ACTIVE` of the resolver and the reflection engine. -/
def Status.isActive (s : Status) : Bool := s = .active || s = .reinforced

inductive Sensitivity where
  | normal | personal | sensitive | secret
  deriving DecidableEq

def Sensitivity.value : Sensitivity → String
  | .normal => "normal"
  | .personal => "personal"
  | .sensitive => "sensitive"
  | .secret => "secret"

inductive Relation where
  | supersedes | contradicts | derivedFrom | sourceOf | aggregates
  deriving DecidableEq

structure MemoryRecord where
  id : RecordId
  content : String
  recordType : RecordType
  tier : Tier
  status : Status
  recordSubtype : Option String
  confidence : Option ℚ
  confidenceReason : Option String
  salience : Option ℚ
  sensitivity : Sensitivity
  contentHash : String
  embeddingModelId : Option String
  embeddingGeneration : Option ℤ
  validFrom : Option Time
  validUntil : Option Time
  createdAt : Time
  updatedAt : Time
  currentVersionId : Option ℤ
  modelSide : Option String
  deriving DecidableEq

/-- The keyword arguments of `MemoryRecord.create`, with the defaults of the
dataclass. A missing id is allocated and missing times are read off the clock. -/
structure Fields where
  recordType : RecordType := .fact
  tier : Tier := .l1
  status : Status := .active
  id : Option RecordId := none
  recordSubtype : Option String := none
  confidence : Option ℚ := none
  confidenceReason : Option String := none
  salience : Option ℚ := none
  sensitivity : Sensitivity := .normal
  embeddingModelId : Option String := none
  embeddingGeneration : Option ℤ := none
  validFrom : Option Time := none
  validUntil : Option Time := none
  createdAt : Option Time := none
  updatedAt : Option Time := none
  currentVersionId : Option ℤ := none
  modelSide : Option String := none

/-- Functions of the host that the program calls: hashing and text functions of
the Python library, `cosine` on floats, and the BM25 rank that SQLite gives a
posting that matches a query (none when it does not match). -/
structure Platform where
  contentHash : String → String
  lower : String → String
  words : String → List String
  cosine : List ℚ → List ℚ → ℚ
  bm25 : List (RecordId × String) → String → RecordId → Option ℚ
  /-- `str.isprintable`, for a character beyond ASCII. -/
  printable : Char → Bool := fun _ => true

structure Embedder where
  modelId : String
  dim : ℕ
  embed : String → List ℚ

/-- Stable sort by a key, smallest first (`ORDER BY`, `sorted`). -/
def sortBy {α κ : Type} [LE κ] [DecidableLE κ] (key : α → κ) (xs : List α) : List α :=
  xs.insertionSort fun a b => key a ≤ key b

/-- Stable sort by a key, largest first (`sorted(..., reverse=True)`). -/
def sortByDesc {α κ : Type} [LE κ] [DecidableLE κ] (key : α → κ) (xs : List α) : List α :=
  xs.insertionSort fun a b => key b ≤ key a

/-- The Python slice `xs[:k]`. -/
def slice {α : Type} (xs : List α) (k : ℤ) : List α :=
  if 0 ≤ k then xs.take k.toNat else xs.take (xs.length - (-k).toNat)

theorem mem_sortBy {α κ : Type} [LE κ] [DecidableLE κ] (key : α → κ) (xs : List α) (a : α) :
    a ∈ sortBy key xs ↔ a ∈ xs :=
  List.mem_insertionSort _

theorem mem_sortByDesc {α κ : Type} [LE κ] [DecidableLE κ] (key : α → κ) (xs : List α) (a : α) :
    a ∈ sortByDesc key xs ↔ a ∈ xs :=
  List.mem_insertionSort _

theorem sortByDesc_pairwise {α κ : Type} [LinearOrder κ] (f : α → κ) (xs : List α) :
    (sortByDesc f xs).Pairwise fun a b => f b ≤ f a := by
  have : Std.Total fun a b : α => f b ≤ f a := ⟨fun a b => le_total (f b) (f a)⟩
  have : IsTrans α fun a b : α => f b ≤ f a := ⟨fun _ _ _ hab hbc => hbc.trans hab⟩
  exact List.pairwise_insertionSort _ _

theorem sortByDesc_perm {α κ : Type} [LE κ] [DecidableLE κ] (f : α → κ) (xs : List α) :
    (sortByDesc f xs).Perm xs :=
  List.perm_insertionSort _ xs

theorem sortByDesc_pair {α κ : Type} [LinearOrder κ] {f : α → κ} {xs : List α} {a b : α}
    (hab : f a = f b) (h : [a, b].Sublist xs) : [a, b].Sublist (sortByDesc f xs) :=
  List.pair_sublist_insertionSort (r := fun a b => f b ≤ f a) hab.ge h

theorem sortByDesc_stable {α κ : Type} [LinearOrder κ] {f : α → κ} {xs ys : List α}
    (hperm : ys.Perm xs) (hxs : xs.Nodup)
    (hties : ∀ a b, f a = f b → [a, b].Sublist xs → [a, b].Sublist ys) :
    sortByDesc f ys = sortByDesc f xs := by
  have hsorted := (sortByDesc_perm f ys).trans (hperm.trans (sortByDesc_perm f xs).symm)
  have hnodup : (sortByDesc f xs).Nodup := (sortByDesc_perm f xs).nodup_iff.mpr hxs
  refine eq_of_same_order hsorted hnodup fun a b hab => ?_
  have hle : f b ≤ f a := List.pairwise_iff_forall_sublist.mp (sortByDesc_pairwise f xs) hab
  have ha : a ∈ sortByDesc f xs := hab.subset (by simp)
  have hb : b ∈ sortByDesc f xs := hab.subset (by simp)
  have hne : a ≠ b := by
    rintro rfl
    exact pair_sublist_asymm hnodup hab hab
  rcases pair_sublist_or hne (hsorted.mem_iff.mpr ha) (hsorted.mem_iff.mpr hb) with h | h
  · exact h
  · -- The keys are equal, so the order is that of `xs`, which `ys` shares.
    have hge : f a ≤ f b := List.pairwise_iff_forall_sublist.mp (sortByDesc_pairwise f ys) h
    have heq : f a = f b := le_antisymm hge hle
    rcases pair_sublist_or hne ((mem_sortByDesc f xs a).mp ha) ((mem_sortByDesc f xs b).mp hb)
      with hxs' | hxs'
    · exact sortByDesc_pair heq (hties a b heq hxs')
    · exact absurd (sortByDesc_pair heq.symm hxs') (pair_sublist_asymm hnodup hab)

theorem sortByDesc_eq {α κ : Type} [LinearOrder κ] {key : α → κ} {xs ys : List α}
    (hperm : ys.Perm xs) (hkeys : (xs.map key).Nodup) : sortByDesc key ys = sortByDesc key xs := by
  refine sortByDesc_stable hperm (hkeys.of_map _) fun a b hab hsub => ?_
  have hpair : [key a, key b].Sublist (xs.map key) := hsub.map key
  rw [hab] at hpair
  exact absurd hkeys (fun h => by simpa using h.sublist hpair)

theorem mem_of_mem_slice {α : Type} {xs : List α} {k : ℤ} {a : α} (h : a ∈ slice xs k) :
    a ∈ xs := by
  unfold slice at h
  split_ifs at h <;> exact List.mem_of_mem_take h

theorem slice_length {α : Type} (xs : List α) : slice xs xs.length = xs := by
  simp [slice]

end StrataMemory.Records
