import StrataMemory.DeletionFlows
import StrataMemory.Resolver
import StrataMemory.VectorStore

set_option autoImplicit false

namespace StrataMemory.Engine
open KeyedTables Records Tables Procedures Worlds Coordinator CanonicalStore ManagedSurfaces
open DeletionFlows Resolver VectorStore

def Sensitivity.order : Sensitivity → ℕ
  | .normal => 0
  | .personal => 1
  | .sensitive => 2
  | .secret => 3

structure SensitivityPolicy where
  recallMax : Sensitivity := .personal
  reflectionMax : Sensitivity := .personal

def SensitivityPolicy.canRecall (p : SensitivityPolicy) (r : MemoryRecord) : Bool :=
  Sensitivity.order r.sensitivity ≤ Sensitivity.order p.recallMax

def SensitivityPolicy.canReflectOn (p : SensitivityPolicy) (r : MemoryRecord) : Bool :=
  Sensitivity.order r.sensitivity ≤ Sensitivity.order p.reflectionMax

inductive ProposalState where
  | proposed | autoAccepted | userReviewRequired | rejected | applied | rolledBack
  deriving DecidableEq

inductive ProposalKind where
  | merge | supersede | clarifyConflict | profileUpdate
  deriving DecidableEq

structure Proposal where
  kind : ProposalKind
  recordIds : List RecordId
  confidence : ℚ
  evidenceIds : List RecordId
  rationale : String
  targetContent : Option String
  state : ProposalState
  id : OpId
  deriving DecidableEq

def Proposal.names (p : Proposal) (id : RecordId) : Bool :=
  id ∈ p.recordIds || id ∈ p.evidenceIds

abbrev ProposalStore := Table OpId Proposal

namespace ProposalStore

def add (s : ProposalStore) (p : Proposal) : ProposalStore := s.set p.id p

def setState (s : ProposalStore) (id : OpId) (state : ProposalState) : ProposalStore :=
  s.modify id fun p => { p with state := state }

def absent (s : ProposalStore) (id : RecordId) : Bool := !s.values.any fun p => p.names id

def remove (ids : List RecordId) (s : ProposalStore) : ProposalStore :=
  s.eraseAll ((s.values.filter fun p => ids.any p.names).map Proposal.id)

end ProposalStore

/-- What a process holds outside the file. `faults` says which handler calls an
adapter refuses. -/
structure Memory where
  vectors : Table String InMemoryVectorStore
  artifacts : Table RecordId (List String)
  proposals : ProposalStore
  embedder : Embedder
  activeGeneration : ℤ
  faults : ℕ → Bool
  calls : ℕ

namespace Memory

def store (m : Memory) (name : String) : InMemoryVectorStore := (m.vectors.get? name).getD default

def vectorContains (name : String) (m : Memory) (id : RecordId) : Bool := (m.store name).contains id

def setStore (m : Memory) (name : String) (s : InMemoryVectorStore) : Memory :=
  { m with vectors := m.vectors.set name s }

end Memory

/-- `_make_handler`: upserts take the payload, removals the target ids. -/
def applyToStore (name : String) (op : Operation) (m : Memory) : Except String Acks × Memory :=
  match op.opType with
  | .upsertIndex =>
    let out := (m.store name).upsert op.records
    (.ok out.1, m.setStore name out.2)
  | .removeIndex | .hardPurge =>
    let out := (m.store name).remove op.targetIds
    (.ok out.1, m.setStore name out.2)
  | .tombstone | .reindexPromote => (.error ("vector handler cannot apply OpType." ++ op.opType.name), m)

/-- An adapter may refuse a call, without effect. -/
def makeHandler (name : String) : Handler Memory := fun op m =>
  if m.faults m.calls then (.error "adapter failure", { m with calls := m.calls + 1 })
  else
    let out := applyToStore name op m
    (out.1, { out.2 with calls := m.calls + 1 })

structure MemoryEngine where
  platform : Platform
  policy : SensitivityPolicy := {}
  vectorNames : List String := ["hot"]
  names_nodup : ("fts5" :: vectorNames ++ ["derived_artifacts"]).Nodup := by decide

namespace MemoryEngine

def coordinator (e : MemoryEngine) : WriteCoordinator Memory where
  handlers name := if name ∈ e.vectorNames then some (makeHandler name) else none
  printable := e.platform.printable

def artifactSurface : ManagedSurface Memory :=
  memorySurface "derived_artifacts"
    (fun ids m => { m with artifacts := m.artifacts.eraseAll ids })
    fun m id => m.artifacts.contains id

def vectorSurface (e : MemoryEngine) (name : String) : ManagedSurface Memory :=
  coordinatedVectorSurface e.coordinator name (Memory.vectorContains name)

/-- The registry that `__init__` wires: lexical, vectors, artifacts. -/
def registry (e : MemoryEngine) : Registry Memory :=
  lexicalSurface :: e.vectorNames.map e.vectorSurface ++ [artifactSurface]

theorem registry_names (e : MemoryEngine) :
    e.registry.map ManagedSurface.name = "fts5" :: e.vectorNames ++ ["derived_artifacts"] := by
  change ((lexicalSurface :: e.vectorNames.map e.vectorSurface) ++ [artifactSurface]).map _ = _
  rw [List.map_append, List.map_cons, List.map_map]
  exact congrArg (fun names => "fts5" :: names ++ ["derived_artifacts"]) (List.map_id _)

def deletion (e : MemoryEngine) : DeletionService Memory := { registry := e.registry }

def vectorRecord (embedder : Embedder) (r : MemoryRecord) (generation : ℤ) : VectorRecord where
  id := r.id
  vector := embedder.embed r.content
  contentHash := r.contentHash
  embeddingModelId := embedder.modelId
  embeddingGeneration := generation
  metadata := [("status", r.status.value), ("tier", r.tier.value),
    ("sensitivity", r.sensitivity.value)]

def enqueueUpserts (e : MemoryEngine) (embedder : Embedder) (r : MemoryRecord) (generation : ℤ) :
    Prog Memory Unit :=
  e.vectorNames.forM fun name => do
    let opId ← newOperationId
    let _ ← enqueue ⟨.upsertIndex, [r.id], some name,
      some [vectorRecord embedder r generation], some generation, opId⟩

def enqueueVectorUpsert (e : MemoryEngine) (r : MemoryRecord) (generation : ℤ) :
    Prog Memory Unit := do
  let embedder ← Proc.read fun w => w.memory.embedder
  enqueueUpserts e embedder r generation

def writeMemory (e : MemoryEngine) (record : MemoryRecord) (generation : Option ℤ := none) :
    Prog Memory MemoryRecord := do
  let active ← Proc.read fun w => w.memory.activeGeneration
  let written ← CanonicalStore.write record
  CanonicalStore.index written
  enqueueVectorUpsert e written (generation.getD active)
  let _ ← runUntilIdle e.coordinator
  return written

def vectorCandidates (e : MemoryEngine) (m : Memory) (query : String) (topK generation : ℤ) :
    List Candidate :=
  e.vectorNames.flatMap fun name =>
    ((m.store name).search e.platform (m.embedder.embed query) topK (some generation)).map
      fun hit => ⟨hit.id, hit.score, name, some hit.contentHash⟩

def lexicalCandidates (e : MemoryEngine) (db : Db) (query : String) (topK : ℤ) : List Candidate :=
  (lexicalSearch e.platform db query topK).map fun found =>
    ⟨found.1.id, -found.2, "fts5", some found.1.contentHash⟩

/-- Fan out to the indexes, then resolve at the time the resolver reads. -/
def «recall» (e : MemoryEngine) (w : World Memory) (query : String) (topK : ℤ := 10)
    (generation : Option ℤ := none) (permit : Option (MemoryRecord → Bool) := none)
    (diversity : Bool := false) : BeliefBundle :=
  let generation := generation.getD w.memory.activeGeneration
  resolve e.platform w.db
    (vectorCandidates e w.memory query topK generation ++ lexicalCandidates e w.db query topK)
    w.now (some (permit.getD e.policy.canRecall)) defaultBudgets diversity

def correct (e : MemoryEngine) (oldId : RecordId) (record : MemoryRecord)
    (relation : Relation := .supersedes) : Prog Memory MemoryRecord := do
  let written ← DeletionFlows.correct e.deletion oldId record relation
  let active ← Proc.read fun w => w.memory.activeGeneration
  enqueueVectorUpsert e written active
  let _ ← runUntilIdle e.coordinator
  return written

def deleteMemory (e : MemoryEngine) (recordId : RecordId) (mode : DeletionMode := .logical) :
    Prog Memory OpId :=
  requestDeletion e.deletion recordId mode

/-- The loop of `merge_records`; it returns `to_remove`. -/
def supersedeDuplicates (primaryId : RecordId) : List RecordId → Prog Memory (List RecordId)
  | [] => return []
  | d :: rest => do
    if d = primaryId || (← CanonicalStore.isTombstoned d) then
      supersedeDuplicates primaryId rest
    else
      CanonicalStore.setStatus d .superseded
      CanonicalStore.addDependency primaryId d .supersedes
      let removed ← supersedeDuplicates primaryId rest
      return d :: removed

theorem supersedeDuplicates_cons (primaryId d : RecordId) (rest : List RecordId)
    (w : World Memory) : (supersedeDuplicates primaryId (d :: rest)).run w =
      (if (decide (d = primaryId) || w.db.isTombstoned d) = true then
        supersedeDuplicates primaryId rest
      else do
        CanonicalStore.setStatus d .superseded
        CanonicalStore.addDependency primaryId d .supersedes
        let removed ← supersedeDuplicates primaryId rest
        return d :: removed : Prog Memory (List RecordId)).run w := rfl

def mergeRecords (e : MemoryEngine) (primaryId : RecordId) (duplicateIds : List RecordId) :
    Prog Memory Unit := do
  let toRemove ← supersedeDuplicates primaryId duplicateIds
  if !toRemove.isEmpty then
    let _ ← purge e.registry toRemove.dedup

def openShadowGeneration (generation : ℤ) (embedder : Embedder) : Prog Memory Unit :=
  commit (.registerGeneration generation embedder.modelId .shadow)

def reindexRecords (e : MemoryEngine) (generation : ℤ) (embedder : Embedder) :
    List MemoryRecord → Prog Memory Unit
  | [] => return ()
  | r :: rest => do
    if !(← CanonicalStore.isTombstoned r.id) then enqueueUpserts e embedder r generation
    reindexRecords e generation embedder rest

def reindexInto (e : MemoryEngine) (generation : ℤ) (embedder : Embedder)
    (recordIds : List RecordId) : Prog Memory Unit := do
  let records ← query fun db => readIds db recordIds
  reindexRecords e generation embedder records
  let _ ← runUntilIdle e.coordinator

def promoteGeneration (generation : ℤ) : Prog Memory Unit := do
  commit (.promoteGeneration generation)
  commit (.memory fun m => { m with activeGeneration := generation })

end MemoryEngine
end StrataMemory.Engine
