import StrataMemory.Gateway

set_option autoImplicit false

namespace StrataMemory.NodeRuns
open KeyedTables Records Tables Procedures Worlds Coordinator CanonicalStore
open DeletionFlows Engine VectorStore Gateway

inductive Call where
  | openWith (embedder : Embedder) (custom : Bool)
  | writeEvent (content : String) (recordType : RecordType) (fields : Fields)
  | writeMemory (content : String) (fields : Fields)
  | updateMemory (recordId : RecordId) (content : Option String) (status : Option Status)
  | supersedeMemory (oldId : RecordId) (content : String) (fields : Fields)
  | linkSource (derivedId sourceId : RecordId)
  | writeRecord (record : MemoryRecord) (generation : Option ℤ)
  | correct (oldId : RecordId) (record : MemoryRecord) (relation : Relation)
  | addDependency (parentId childId : RecordId) (rel : Relation)
  | putArtifact (id : RecordId) (blob : String)
  | requestDeletion (recordId : RecordId) (mode : DeletionMode) (includeDependents : Bool)
  | retryDeletion (jobId : OpId)
  | consolidate
  | contradictionAudit
  | applyProposal (id : OpId)
  | rejectProposal (id : OpId)
  | openShadowGeneration (generation : ℤ) (embedder : Embedder)
  | reindexInto (generation : ℤ) (embedder : Embedder) (recordIds : List RecordId)
  | promoteGeneration (generation : ℤ)
  | enqueue (op : Operation)
  | applyNext
  | recover
  | retryOp (opId : OpId)

/-- `DerivedArtifactSurface.put`. -/
def putArtifact (id : RecordId) (blob : String) : Prog Memory Unit :=
  commit (.memory fun m =>
    { m with artifacts := m.artifacts.set id ((m.artifacts.get? id).getD [] ++ [blob]) })

def execute (s : Strata) : Call → Prog Memory Unit
  | .openWith embedder custom => Strata.openWith embedder custom
  | .writeEvent content recordType fields => discard (s.writeEvent content recordType fields)
  | .writeMemory content fields => discard (s.writeMemory content fields)
  | .updateMemory recordId content status => discard (s.updateMemory recordId content status)
  | .supersedeMemory oldId content fields => discard (s.supersedeMemory oldId content fields)
  | .linkSource derivedId sourceId => Strata.linkSource derivedId sourceId
  | .writeRecord record generation => discard (s.engine.writeMemory record generation)
  | .correct oldId record relation => discard (s.engine.correct oldId record relation)
  | .addDependency parentId childId rel => CanonicalStore.addDependency parentId childId rel
  | .putArtifact id blob => putArtifact id blob
  | .requestDeletion recordId mode includeDependents =>
    discard (requestDeletion s.engine.deletion recordId mode includeDependents)
  | .retryDeletion jobId => discard (retry s.engine.deletion jobId)
  | .consolidate => discard s.reflection.consolidate
  | .contradictionAudit => discard ReflectionEngine.contradictionAudit
  | .applyProposal id => s.reflection.apply id
  | .rejectProposal id => ReflectionEngine.reject id
  | .openShadowGeneration generation embedder =>
    MemoryEngine.openShadowGeneration generation embedder
  | .reindexInto generation embedder recordIds =>
    s.engine.reindexInto generation embedder recordIds
  | .promoteGeneration generation => MemoryEngine.promoteGeneration generation
  | .enqueue op => discard (Coordinator.enqueue op)
  | .applyNext => discard (Coordinator.applyNext s.engine.coordinator)
  | .recover => Coordinator.recover
  | .retryOp opId => Coordinator.retry opId

/-- The world a call leaves behind, whether it returns or raises. -/
def after (s : Strata) (w : World Memory) (c : Call) : World Memory := (execute s c).final w

section Calls
variable {s : Strata} {w : World Memory}

theorem after_writeEvent (content : String) (recordType : RecordType) (fields : Fields) :
    after s w (.writeEvent content recordType fields) =
      (s.writeEvent content recordType fields).final w :=
  Proc.final_discard _ w

theorem after_writeMemory (content : String) (fields : Fields) :
    after s w (.writeMemory content fields) = (s.writeMemory content fields).final w :=
  Proc.final_discard _ w

theorem after_supersede (oldId : RecordId) {content : String} {fields : Fields} {r : MemoryRecord}
    {u : World Memory} (hrun : (create s.engine.platform content fields).run w = (.ok r, u)) :
    after s w (.supersedeMemory oldId content fields) = (s.engine.correct oldId r).final u :=
  (Proc.final_discard _ w).trans (Proc.final_bind_ok hrun)

theorem after_linkSource (derivedId sourceId : RecordId) : after s w (.linkSource derivedId sourceId) =
    apply (.addDependency derivedId sourceId .derivedFrom) w :=
  Proc.final_of_run (addDependency_run derivedId sourceId .derivedFrom w)

end Calls

def runCalls (s : Strata) (w : World Memory) (calls : List Call) : World Memory :=
  calls.foldl (after s) w

/-- A new file and a new process; what the host supplies is arbitrary. -/
structure Started (w : World Memory) : Prop where
  db : w.db = Db.empty
  vectors : w.memory.vectors = ∅
  artifacts : w.memory.artifacts = ∅
  proposals : w.memory.proposals = ∅

def Reachable (s : Strata) (w : World Memory) : Prop :=
  ∃ w₀ calls, Started w₀ ∧ w = runCalls s w₀ calls

/-- What holds at the start and is kept by every call holds of every reachable world. -/
theorem Reachable.invariant {s : Strata} {I : World Memory → Prop}
    (hstart : ∀ w, Started w → I w) (hcall : ∀ w c, I w → I (after s w c))
    {w : World Memory} (h : Reachable s w) : I w := by
  obtain ⟨w₀, calls, hw₀, rfl⟩ := h
  have hrun : ∀ calls w, I w → I (runCalls s w calls) := by
    intro calls
    induction calls with
    | nil => exact fun _ hw => hw
    | cons c calls ih => exact fun w hw => ih _ (hcall w c hw)
  exact hrun calls w₀ (hstart w₀ hw₀)

theorem Reachable.step {s : Strata} {w : World Memory} (h : Reachable s w) (c : Call) :
    Reachable s (after s w c) := by
  obtain ⟨w₀, calls, hw₀, rfl⟩ := h
  exact ⟨w₀, calls ++ [c], hw₀, by simp [runCalls]⟩

/-- Texts are their own hash and their only word; a query finds its own text. -/
def plainPlatform : Platform where
  contentHash text := text
  lower text := text
  words text := [text]
  cosine a b := if a = b then 1 else 0
  bm25 rows text id := if rows.any (fun r => r.1 = id && "\"" ++ r.2 ++ "\"" = text) then some 0 else none

def plainEmbedder : Embedder where
  modelId := "length"
  dim := 1
  embed text := [text.length]

def plainStrata : Strata := { engine := { platform := plainPlatform } }

/-- A new file; the clock counts its readings and the allocator counts from 1. -/
def plainWorld : World Memory where
  db := .empty
  memory := ⟨∅, ∅, ∅, plainEmbedder, 1, fun _ => false, 0⟩
  clock tick := tick
  tick := 0
  operationIds := 1
  recordIds n := n + 1
  allocated := 0

theorem started_plainWorld : Started plainWorld := ⟨rfl, rfl, rfl, rfl⟩

end StrataMemory.NodeRuns
