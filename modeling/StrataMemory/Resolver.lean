import StrataMemory.CanonicalStore
import Mathlib.Data.Finset.Card
import Mathlib.Data.Prod.Lex
import Mathlib.Algebra.Order.Ring.Rat

set_option autoImplicit false

namespace StrataMemory.Resolver
open KeyedTables Records Tables CanonicalStore

inductive Category where
  | currentBelief | recentContext | interactionGuidance | openConflict | hypothesis | policyFlag
  deriving DecidableEq

inductive HostInstruction where
  | useDirectly | useCautiously | askClarifyingQuestion | doNotSurface
  deriving DecidableEq

structure BundleEntry where
  id : RecordId
  category : Category
  claim : String
  confidence : String
  sourceIds : List RecordId
  status : String
  timeValid : Option (Option Time × Option Time)
  supersededBy : Option RecordId
  hostInstruction : Option HostInstruction
  deriving DecidableEq

structure BeliefBundle where
  currentBeliefs : List BundleEntry := []
  recentContext : List BundleEntry := []
  interactionGuidance : List BundleEntry := []
  openConflicts : List BundleEntry := []
  hypotheses : List BundleEntry := []
  policyFlags : List BundleEntry := []
  deriving DecidableEq

namespace BeliefBundle

def entries (b : BeliefBundle) : Category → List BundleEntry
  | .currentBelief => b.currentBeliefs
  | .recentContext => b.recentContext
  | .interactionGuidance => b.interactionGuidance
  | .openConflict => b.openConflicts
  | .hypothesis => b.hypotheses
  | .policyFlag => b.policyFlags

def allEntries (b : BeliefBundle) : List BundleEntry :=
  b.currentBeliefs ++ b.recentContext ++ b.interactionGuidance ++ b.openConflicts ++
    b.hypotheses ++ b.policyFlags

/-- `getattr(bundle, _CATEGORY_FIELD[category]).append(entry)`. -/
def add (b : BeliefBundle) (e : BundleEntry) : BeliefBundle :=
  match e.category with
  | .currentBelief => { b with currentBeliefs := b.currentBeliefs ++ [e] }
  | .recentContext => { b with recentContext := b.recentContext ++ [e] }
  | .interactionGuidance => { b with interactionGuidance := b.interactionGuidance ++ [e] }
  | .openConflict => { b with openConflicts := b.openConflicts ++ [e] }
  | .hypothesis => { b with hypotheses := b.hypotheses ++ [e] }
  | .policyFlag => { b with policyFlags := b.policyFlags ++ [e] }

end BeliefBundle

/-- Minimum and maximum per category; only the maximum is applied. -/
abbrev Budgets := List (Category × ℕ × ℕ)

def defaultBudgets : Budgets :=
  [(.currentBelief, 3, 8), (.recentContext, 3, 6), (.interactionGuidance, 1, 5),
    (.openConflict, 0, 3), (.hypothesis, 0, 3)]

def trim (budgets : Budgets) (c : Category) (es : List BundleEntry) : List BundleEntry :=
  match budgets.lookup c with
  | none => es
  | some (_, most) => if most < es.length then es.take most else es

/-- `_apply_budgets`. -/
def applyBudgets (budgets : Budgets) (b : BeliefBundle) : BeliefBundle where
  currentBeliefs := trim budgets .currentBelief b.currentBeliefs
  recentContext := trim budgets .recentContext b.recentContext
  interactionGuidance := trim budgets .interactionGuidance b.interactionGuidance
  openConflicts := trim budgets .openConflict b.openConflicts
  hypotheses := trim budgets .hypothesis b.hypotheses
  policyFlags := trim budgets .policyFlag b.policyFlags

def tokens (p : Platform) (text : String) : Finset String := (p.words (p.lower text)).toFinset

def jaccard (p : Platform) (a b : String) : ℚ :=
  let ta := tokens p a
  let tb := tokens p b
  if ta = ∅ ∧ tb = ∅ then 1
  else if ta = ∅ ∨ tb = ∅ then 0
  else ((ta ∩ tb).card : ℚ) / (ta ∪ tb).card

theorem jaccard_self (p : Platform) (text : String) : jaccard p text text = 1 := by
  unfold jaccard
  by_cases hempty : tokens p text = ∅
  · simp [hempty]
  · have hcard : ((tokens p text).card : ℚ) ≠ 0 :=
      Nat.cast_ne_zero.mpr fun h => hempty (Finset.card_eq_zero.mp h)
    simp [hempty]

theorem jaccard_comm (p : Platform) (a b : String) : jaccard p a b = jaccard p b a := by
  unfold jaccard
  simp only [Finset.inter_comm (tokens p a), Finset.union_comm (tokens p a),
    and_comm (a := tokens p a = ∅), or_comm (a := tokens p a = ∅)]

def diversifyFrom (p : Platform) (threshold : ℚ) :
    List String → ℕ → List String → List ℕ
  | _, _, [] => []
  | keptTexts, i, text :: rest =>
    if keptTexts.any fun k => threshold ≤ jaccard p text k then
      diversifyFrom p threshold keptTexts (i + 1) rest
    else i :: diversifyFrom p threshold (keptTexts ++ [text]) (i + 1) rest

def diversify (p : Platform) (texts : List String) (threshold : ℚ) : List ℕ :=
  diversifyFrom p threshold [] 0 texts

structure Candidate where
  recordId : RecordId
  score : ℚ := 0
  source : String := "structured"
  contentHash : Option String := none

/-- A falsy hash (none or empty) says nothing. -/
def Candidate.hashes (c : Candidate) : List String :=
  match c.contentHash with
  | none => []
  | some h => if h = "" then [] else [h]

structure Merged where
  recordId : RecordId
  bestScore : ℚ
  sources : List String
  contentHashes : List String
  evidenceCount : ℕ

def mergeOne (out : Table RecordId Merged) (c : Candidate) : Table RecordId Merged :=
  out.set c.recordId <|
    match out.get? c.recordId with
    | none => ⟨c.recordId, c.score, [c.source], c.hashes, 1⟩
    | some m =>
      { m with
        bestScore := max m.bestScore c.score
        sources := m.sources ++ [c.source]
        contentHashes := m.contentHashes ++ c.hashes
        evidenceCount := m.evidenceCount + 1 }

def merge (candidates : List Candidate) : Table RecordId Merged := candidates.foldl mergeOne ∅

def timeValid (r : MemoryRecord) (now : Time) : Bool :=
  !(r.validFrom.any (now < ·)) && !(r.validUntil.any (· ≤ now))

/-- The drops of `_hydrate_and_filter`: dangling, tombstoned, drifted, out of its
validity window, not permitted. -/
def hydrate (db : Db) (now : Time) (permit : Option (MemoryRecord → Bool)) (m : RecordId × Merged) :
    Option (MemoryRecord × Merged) :=
  match db.readOne m.1 with
  | none => none
  | some r =>
    if db.isTombstoned m.1 then none
    else if !m.2.contentHashes.isEmpty && !decide (r.contentHash ∈ m.2.contentHashes) then none
    else if !timeValid r now then none
    else if permit.any fun p => !p r then none
    else some (r, m.2)

def hydrateAndFilter (db : Db) (merged : Table RecordId Merged) (now : Time)
    (permit : Option (MemoryRecord → Bool)) : List (MemoryRecord × Merged) :=
  merged.entries.filterMap (hydrate db now permit)

def isLiveRecord (db : Db) (id : RecordId) : Bool :=
  match db.readOne id with
  | none => false
  | some r => r.status.isActive && !db.isTombstoned id

theorem isLiveRecord_iff {db : Db} {id : RecordId} : isLiveRecord db id = true ↔
    ∃ r, db.readOne id = some r ∧ r.status.isActive = true ∧ db.isTombstoned id = false := by
  unfold isLiveRecord
  cases db.readOne id <;> simp

def isSupersededByActive (db : Db) (id : RecordId) : Bool :=
  (supersedersOf db id).any (isLiveRecord db)

def activeContradictors (db : Db) (id : RecordId) : List RecordId :=
  (contradictorsOf db id).filter (isLiveRecord db)

def statusWeight : Status → ℚ
  | .reinforced => 11 / 10
  | .active => 1
  | _ => 0

/-- Status weight, confidence, recency, retrieval score, evidence count. -/
def sortKey (item : MemoryRecord × Merged) : ℚ ×ₗ ℚ ×ₗ Time ×ₗ ℚ ×ₗ ℕ :=
  toLex (statusWeight item.1.status, toLex (item.1.confidence.getD 0,
    toLex (item.1.updatedAt, toLex (item.2.bestScore, item.2.evidenceCount))))

def rank (survivors : List (MemoryRecord × Merged)) : List (MemoryRecord × Merged) :=
  sortByDesc sortKey survivors

/-- `[item for i, item in enumerate(ranked) if i in keep]`. -/
def keepIndices {α : Type} (keep : List ℕ) (xs : List α) : List α :=
  (xs.zipIdx.filter fun item => item.2 ∈ keep).map Prod.fst

def confidenceLabel (value : Option ℚ) (bump : ℕ) : String :=
  let base : ℕ := match value with
    | none => 1
    | some v => if v < 2 / 5 then 0 else if 3 / 4 ≤ v then 2 else 1
  match min 2 (base + bump) with
  | 0 => "low"
  | 1 => "medium"
  | _ => "high"

def categoryFor (r : MemoryRecord) : Category :=
  if r.recordSubtype = some "interaction_guidance" ∨
      (r.tier = .l3 ∧ r.recordSubtype = some "guidance") then .interactionGuidance
  else if r.tier = .l0 ∨ r.tier = .l2 ∨ r.recordType = .episode then .recentContext
  else .currentBelief

def entry (db : Db) (item : MemoryRecord × Merged) (category : Category)
    (host : Option HostInstruction := none) (status : Option String := none) : BundleEntry :=
  let r := item.1
  let bump := if 2 ≤ item.2.evidenceCount ∨ 4 / 5 ≤ r.salience.getD 0 then 1 else 0
  { id := r.id
    category := category
    claim := r.content
    confidence := confidenceLabel r.confidence bump
    sourceIds := [r.id]
    status := status.getD <|
      match category with
      | .hypothesis => "hypothesis"
      | .policyFlag => "policy-only"
      | _ => r.status.value
    timeValid :=
      if r.validFrom.isSome || r.validUntil.isSome then some (r.validFrom, r.validUntil) else none
    supersededBy := (supersedersOf db r.id).head?
    hostInstruction := host.or (if category = .hypothesis then some .useCautiously else none) }

/-- The routing loop's body: the entry an item contributes, if any. -/
def route (db : Db) (item : MemoryRecord × Merged) : Option BundleEntry :=
  let r := item.1
  if r.recordType = .reflection then some (entry db item .hypothesis)
  else if r.recordType = .guardrail ∨ r.tier = .l4 then some (entry db item .policyFlag)
  else if !r.status.isActive then none
  else if isSupersededByActive db r.id then none
  else if !(activeContradictors db r.id).isEmpty then
    some (entry db item .openConflict (some .useCautiously) (some "contradicted"))
  else some (entry db item (categoryFor r))

def addRouted (db : Db) (b : BeliefBundle) (item : MemoryRecord × Merged) : BeliefBundle :=
  match route db item with
  | none => b
  | some e => b.add e

def routeAll (db : Db) (ranked : List (MemoryRecord × Merged)) : BeliefBundle :=
  ranked.foldl (addRouted db) {}

def buildBundle (p : Platform) (db : Db) (survivors : List (MemoryRecord × Merged))
    (budgets : Budgets) (diversity : Bool) (diversityThreshold : ℚ) : BeliefBundle :=
  let ranked := rank survivors
  let ranked :=
    if diversity then
      keepIndices (diversify p (ranked.map fun item => item.1.content) diversityThreshold) ranked
    else ranked
  applyBudgets budgets (routeAll db ranked)

def resolve (p : Platform) (db : Db) (candidates : List Candidate) (now : Time)
    (permit : Option (MemoryRecord → Bool)) (budgets : Budgets := defaultBudgets)
    (diversity : Bool := false) (diversityThreshold : ℚ := 17 / 20) : BeliefBundle :=
  buildBundle p db (hydrateAndFilter db (merge candidates) now permit) budgets diversity
    diversityThreshold

end StrataMemory.Resolver
