import StrataMemory.CommitEffects
import StrataMemory.NodeRuns
import StrataMemory.ResolverEntries

set_option autoImplicit false

namespace StrataMemory.TombstoneFinality
open KeyedTables Records Tables Worlds CommitEffects Resolver Engine VectorStore Gateway NodeRuns

/-- A call, or an interference with the indexes: any postings and any vector stores. -/
inductive Move where
  | call (c : Call)
  | tamper (postings : Table RecordId String) (vectors : Table String InMemoryVectorStore)

def move (s : Strata) (w : World Memory) : Move → World Memory
  | .call c => after s w c
  | .tamper postings vectors =>
    { w with
      db := { w.db with postings := postings }
      memory := { w.memory with vectors := vectors } }

theorem move_isTombstoned (s : Strata) (w : World Memory) (m : Move) (id : RecordId)
    (h : w.db.isTombstoned id = true) : (move s w m).db.isTombstoned id = true := by
  cases m with
  | call c => exact final_isTombstoned _ w id h
  | tamper postings vectors => exact h

theorem moves_isTombstoned (s : Strata) (moves : List Move) (w : World Memory) (id : RecordId)
    (h : w.db.isTombstoned id = true) : (moves.foldl (move s) w).db.isTombstoned id = true := by
  induction moves generalizing w with
  | nil => exact h
  | cons m moves ih => exact ih _ (move_isTombstoned s w m id h)

/-- A recall that starts after an id was tombstoned returns no entry with that id. -/
theorem tombstoned_never_recalled (s : Strata) (w : World Memory) (id : RecordId)
    (h : w.db.isTombstoned id = true) (moves : List Move) (query : String) (topK : ℤ)
    (generation : Option ℤ) (permit : Option (MemoryRecord → Bool)) (diversity : Bool) :
    ∀ e ∈ (s.engine.recall (moves.foldl (move s) w) query topK generation permit
      diversity).allEntries, e.id ≠ id := by
  rintro e he rfl
  have hlive := resolve_not_tombstoned he
  rw [moves_isTombstoned s moves w e.id h] at hlive
  cases hlive

theorem rewritten_never_recalled :
    let w := runCalls plainStrata plainWorld
      [.writeMemory "tea" {}, .requestDeletion 1 .logical true]
    ∀ e ∈ (plainStrata.engine.recall
      ([Move.call (.writeMemory "tea" { id := some 1 })].foldl (move plainStrata) w)
      "tea" 10 none none false).allEntries, e.id ≠ 1 :=
  tombstoned_never_recalled plainStrata _ 1 (by decide) _ "tea" 10 none none false

end StrataMemory.TombstoneFinality
