import StrataMemory.Engine

set_option autoImplicit false

namespace StrataMemory.Gateway
open KeyedTables Records Tables Procedures Worlds Coordinator CanonicalStore
open DeletionFlows Resolver Engine

structure Cluster where
  recordIds : List RecordId
  representative : String
  deriving DecidableEq

/-- Join the first cluster whose representative the record resembles, or seed one. -/
def place (p : Platform) (threshold : ℚ) (r : MemoryRecord) : List Cluster → List Cluster
  | [] => [⟨[r.id], r.content⟩]
  | c :: rest =>
    if threshold ≤ jaccard p r.content c.representative then
      { c with recordIds := c.recordIds ++ [r.id] } :: rest
    else c :: place p threshold r rest

def clusterL1 (p : Platform) (records : List MemoryRecord) (threshold : ℚ := 3 / 5) :
    List Cluster :=
  records.foldl (fun clusters r => place p threshold r clusters) []

def reviewWorthy (clusters : List Cluster) : List Cluster :=
  clusters.filter fun c => 2 ≤ c.recordIds.length

structure ReflectionEngine where
  engine : MemoryEngine
  autoAcceptThreshold : ℚ := 9 / 10

namespace ReflectionEngine

def reflectableL1Facts (r : ReflectionEngine) (db : Db) : List MemoryRecord :=
  (select db { tier := some .l1, recordType := some .fact }).filter fun rec =>
    rec.status.isActive && !db.isTombstoned rec.id && r.engine.policy.canReflectOn rec

def primaryKey (rec : MemoryRecord) : ℚ ×ₗ ℕ := toLex (rec.salience.getD 0, rec.content.length)

/-- `max(members, key=...)`: the first of the largest. -/
def choosePrimary (first : MemoryRecord) (rest : List MemoryRecord) : MemoryRecord :=
  rest.foldl (fun best rec => if primaryKey best < primaryKey rec then rec else best) first

def addProposal (p : Proposal) : Prog Memory Unit :=
  commit (.memory fun m => { m with proposals := m.proposals.add p })

def setProposalState (id : OpId) (state : ProposalState) : Prog Memory Unit :=
  commit (.memory fun m => { m with proposals := m.proposals.setState id state })

def apply (r : ReflectionEngine) (proposalId : OpId) : Prog Memory Unit := do
  match ← Proc.read fun w => w.memory.proposals.get? proposalId with
  | none => return ()
  | some prop =>
    if prop.state = .applied || prop.state = .rejected then return ()
    match prop.kind with
    | .merge =>
      match prop.recordIds with
      | [] => raise .valueError
      | primary :: dups =>
        r.engine.mergeRecords primary dups
        setProposalState proposalId .applied
    | .clarifyConflict => setProposalState proposalId .userReviewRequired
    | .supersede | .profileUpdate => return ()

def reject (proposalId : OpId) : Prog Memory Unit := do
  match ← Proc.read fun w => w.memory.proposals.get? proposalId with
  | none => raise .keyError
  | some _ => setProposalState proposalId .rejected

def mergeConfidence (members : List MemoryRecord) (dups : List RecordId) : ℚ :=
  if (members.map MemoryRecord.contentHash).dedup.length < members.length then 19 / 20
  else min (89 / 100) (3 / 5 + 1 / 10 * dups.length)

def mergeProposal (c : Cluster) (first : MemoryRecord) (rest : List MemoryRecord) (id : OpId) :
    Proposal :=
  let members := first :: rest
  let primary := choosePrimary first rest
  let dups := (members.filter fun m => m.id ≠ primary.id).map MemoryRecord.id
  { kind := .merge
    recordIds := primary.id :: dups
    confidence := mergeConfidence members dups
    evidenceIds := c.recordIds
    rationale := toString members.length ++ " near-duplicate L1 facts consolidated"
    targetContent := some primary.content
    state := .proposed
    id := id }

def consolidateClusters (r : ReflectionEngine) (records : List MemoryRecord) :
    List Cluster → Prog Memory (List OpId)
  | [] => return []
  | c :: rest => do
    match c.recordIds.filterMap fun i => records.find? (·.id = i) with
    | [] => consolidateClusters r records rest
    | first :: others =>
      let id ← newOperationId
      let prop := mergeProposal c first others id
      addProposal prop
      if r.autoAcceptThreshold ≤ prop.confidence then apply r id
      else setProposalState id .userReviewRequired
      let ids ← consolidateClusters r records rest
      return id :: ids

def consolidate (r : ReflectionEngine) : Prog Memory (List OpId) := do
  let records ← query (reflectableL1Facts r)
  consolidateClusters r records (reviewWorthy (clusterL1 r.engine.platform records))

def clarifyProposal (a b : RecordId) (id : OpId) : Proposal where
  kind := .clarifyConflict
  recordIds := [a, b]
  confidence := 1 / 2
  evidenceIds := [a, b]
  rationale := "unresolved contradiction between active records"
  targetContent := none
  state := .userReviewRequired
  id := id

/-- The inner loop of the audit over the contradictors of `a`; `seen` holds
unordered pairs. -/
def auditPairs (a : RecordId) : List RecordId → List (RecordId × RecordId) →
    Prog Memory (List OpId × List (RecordId × RecordId))
  | [], seen => return ([], seen)
  | b :: rest, seen => do
    if !(← query fun db => isLiveRecord db b) then auditPairs a rest seen
    else if (a, b) ∈ seen || (b, a) ∈ seen then auditPairs a rest seen
    else
      let id ← newOperationId
      addProposal (clarifyProposal a b id)
      let (ids, seen) ← auditPairs a rest ((a, b) :: seen)
      return (id :: ids, seen)

def auditRecords : List MemoryRecord → List (RecordId × RecordId) → Prog Memory (List OpId)
  | [], _ => return []
  | rec :: rest, seen => do
    if !rec.status.isActive || (← CanonicalStore.isTombstoned rec.id) then auditRecords rest seen
    else
      let others ← query fun db => contradictorsOf db rec.id
      let (ids, seen) ← auditPairs rec.id others seen
      let more ← auditRecords rest seen
      return ids ++ more

def contradictionAudit : Prog Memory (List OpId) := do
  let records ← query fun db => select db {}
  auditRecords records []

end ReflectionEngine

/-- The summary of a missing row is an attribute error. -/
def summary (id : RecordId) : Prog Memory MemoryRecord := do
  match ← CanonicalStore.readOne id with
  | none => raise .attributeError
  | some r => return r

structure Strata where
  engine : MemoryEngine
  autoAcceptThreshold : ℚ := 9 / 10

namespace Strata

def reflection (s : Strata) : ReflectionEngine := ⟨s.engine, s.autoAcceptThreshold⟩

/-- A new process over the same file: fresh memory, recovery, and the registration
of the generation. A custom embedder gets generation 2. -/
def openWith (embedder : Embedder) (custom : Bool) : Prog Memory Unit := do
  let generation : ℤ := if custom then 2 else 1
  commit (.memory fun m => ⟨∅, ∅, ∅, embedder, generation, m.faults, m.calls⟩)
  recover
  commit (.registerGeneration generation embedder.modelId .active)

def writeEvent (s : Strata) (content : String) (recordType : RecordType := .system)
    (fields : Fields := {}) : Prog Memory MemoryRecord := do
  let rec_ ← create s.engine.platform content { fields with recordType := recordType, tier := .l0 }
  s.engine.writeMemory rec_

def linkSource (derivedId sourceId : RecordId) : Prog Memory Unit :=
  CanonicalStore.addDependency derivedId sourceId .derivedFrom

def writeMemory (s : Strata) (content : String) (fields : Fields := {}) :
    Prog Memory MemoryRecord := do
  let rec_ ← create s.engine.platform content fields
  s.engine.writeMemory rec_

/-- What `update_memory` does with the row it has read. -/
def updateFound (s : Strata) (recordId : RecordId) (content : Option String)
    (status : Option Status) : Option MemoryRecord → Prog Memory MemoryRecord
  | none => raise .keyError
  | some old => do
    match content with
    | some text =>
      CanonicalStore.removePostings [recordId]
      let updated ← withContent s.engine.platform old text
      let _ ← s.engine.writeMemory updated
      summary recordId
    | none =>
      match status with
      | some st => CanonicalStore.setStatus recordId st
      | none => pure ()
      summary recordId

def updateMemory (s : Strata) (recordId : RecordId) (content : Option String := none)
    (status : Option Status := none) : Prog Memory MemoryRecord := do
  let found ← CanonicalStore.readOne recordId
  s.updateFound recordId content status found

def supersedeMemory (s : Strata) (oldId : RecordId) (content : String) (fields : Fields := {}) :
    Prog Memory MemoryRecord := do
  let new ← create s.engine.platform content fields
  s.engine.correct oldId new

def «recall» (s : Strata) (w : World Memory) (query : String) (topK : ℤ := 10)
    (diversity : Bool := false) : BeliefBundle :=
  s.engine.recall w query topK none none diversity

def deleteMemory (s : Strata) (recordId : RecordId) (mode : DeletionMode := .logical) :
    Prog Memory OpId :=
  s.engine.deleteMemory recordId mode

end Strata
end StrataMemory.Gateway
