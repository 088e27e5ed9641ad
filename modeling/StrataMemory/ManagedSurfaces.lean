import StrataMemory.CanonicalStore
import StrataMemory.Coordinator

set_option autoImplicit false

namespace StrataMemory.ManagedSurfaces
open KeyedTables Records Tables Procedures Worlds Coordinator CanonicalStore

structure ManagedSurface (V : Type) where
  name : String
  remove : List RecordId → Prog V Acks
  absent : RecordId → Prog V Bool

variable {V : Type}

def lexicalSurface : ManagedSurface V where
  name := "fts5"
  remove ids := do
    removePostings ids
    query fun db => ids.map fun i => (i, !db.hasPosting i)
  absent id := query fun db => !db.hasPosting id

/-- A surface in process memory, outside the op log. -/
def memorySurface (name : String) (remove : List RecordId → V → V)
    (contains : V → RecordId → Bool) : ManagedSurface V where
  name := name
  remove ids := do
    commit (.memory (remove ids))
    Proc.read fun w => ids.map fun i => (i, !contains w.memory i)
  absent id := Proc.read fun w => !contains w.memory id

/-- Removal goes through the op log; the acknowledgement is absence after the drain. -/
def coordinatedVectorSurface (coord : WriteCoordinator V) (name : String)
    (contains : V → RecordId → Bool) : ManagedSurface V where
  name := name
  remove ids := do
    let opId ← newOperationId
    let _ ← enqueue ⟨.removeIndex, ids, some name, none, none, opId⟩
    let _ ← runUntilIdle coord
    Proc.read fun w => ids.map fun i => (i, !contains w.memory i)
  absent id := Proc.read fun w => !contains w.memory id

abbrev Registry (V : Type) := List (ManagedSurface V)

/-- The report maps a surface name to its answers; a repeated name overwrites. -/
abbrev Report := Table String Acks

def purgeInto (ids : List RecordId) : Registry V → Report → Prog V Report
  | [], report => return report
  | s :: rest, report => do
    commit (.surfaceRemove s.name)
    let perId ← s.remove ids
    purgeInto ids rest (report.set s.name perId)

def purge (registry : Registry V) (ids : List RecordId) : Prog V Report :=
  purgeInto ids registry ∅

def absences (s : ManagedSurface V) : List RecordId → Prog V Acks
  | [] => return []
  | id :: rest => do
    let answer ← s.absent id
    let answers ← absences s rest
    return (id, answer) :: answers

def verifyInto (ids : List RecordId) : Registry V → Report → Prog V Report
  | [], report => return report
  | s :: rest, report => do
    let perId ← absences s ids
    verifyInto ids rest (report.set s.name perId)

def verify (registry : Registry V) (ids : List RecordId) : Prog V Report :=
  verifyInto ids registry ∅

def Report.allTrue (report : Report) : Bool := report.values.all fun perId => perId.all Prod.snd

end StrataMemory.ManagedSurfaces
