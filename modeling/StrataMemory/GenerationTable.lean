import StrataMemory.Histories
import StrataMemory.NodeRuns

set_option autoImplicit false

namespace StrataMemory.GenerationTable
open KeyedTables Records Tables Procedures Worlds Histories Engine Gateway NodeRuns

/-- The default embedder has generation 1, a custom one generation 2. -/
def sessionGeneration (custom : Bool) : ℤ := if custom then 2 else 1

def modelOf (db : Db) (generation : ℤ) : Option String :=
  (db.generations.get? generation).map Generation.embeddingModelId

def IsActive (db : Db) (generation : ℤ) : Prop :=
  ∃ row, db.generations.get? generation = some row ∧ row.status = .active

/-- One row is active, and it is that of the generation the engine goes by. -/
def OneActive (w : World Memory) : Prop :=
  ∀ generation, IsActive w.db generation ↔ generation = w.memory.activeGeneration

section Commits
variable {V : Type}

theorem generations_register (generation : ℤ) (modelId : String) (status : GenerationStatus)
    (w : World V) : (apply (.registerGeneration generation modelId status) w).db.generations =
      if w.db.generations.contains generation then w.db.generations
      else w.db.generations.set generation ⟨modelId, status, w.now⟩ := by
  simp only [apply, World.stamp]
  split <;> rfl

theorem get?_promote (generation other : ℤ) (gens : Table ℤ Generation) :
    (promote generation gens).get? other = (gens.get? other).map fun g =>
      { g with status :=
        if other = generation then .active else if g.status = .active then .retired else g.status } := by
  unfold promote
  rw [Table.get?_modify, Table.get?_mapValues]
  split
  · rename_i h
    rw [Option.map_map]
    refine congrArg (fun f => Option.map f _) (funext fun g => ?_)
    rw [if_pos h.symm]
    dsimp only [Function.comp]
    split <;> rfl
  · rename_i h
    refine congrArg (fun f => Option.map f _) (funext fun g => ?_)
    rw [if_neg (Ne.symm h)]
    split <;> rfl

theorem isActive_promote (generation other : ℤ) (w : World V) :
    IsActive (apply (.promoteGeneration generation) w).db other ↔
      other = generation ∧ w.db.generations.contains generation = true := by
  have hget : (apply (.promoteGeneration generation) w).db.generations.get? other = _ :=
    get?_promote generation other w.db.generations
  unfold IsActive
  rw [hget]
  constructor
  · rintro ⟨row, hrow, hstatus⟩
    obtain ⟨old, hold, rfl⟩ := Option.map_eq_some_iff.mp hrow
    by_cases h : other = generation
    · exact ⟨h, h ▸ Table.contains_of_get? hold⟩
    · simp only [if_neg h] at hstatus
      split at hstatus
      · cases hstatus
      · contradiction
  · rintro ⟨rfl, hcontains⟩
    obtain ⟨old, hold⟩ := Option.isSome_iff_exists.mp hcontains
    exact ⟨_, congrArg (Option.map _) hold, if_pos rfl⟩

theorem isActive_register (generation other : ℤ) (modelId : String) (status : GenerationStatus)
    (w : World V) :
    IsActive (apply (.registerGeneration generation modelId status) w).db other ↔
      IsActive w.db other ∨
        (other = generation ∧ w.db.generations.contains generation = false ∧ status = .active) := by
  unfold IsActive
  rw [generations_register]
  by_cases hcontains : w.db.generations.contains generation = true
  · rw [if_pos hcontains, hcontains]
    simp
  · have habsent : w.db.generations.contains generation = false := Bool.eq_false_iff.mpr hcontains
    rw [if_neg hcontains]
    by_cases h : other = generation
    · subst h
      rw [Table.get?_set_self, Table.get?_eq_none.mpr habsent]
      simp [habsent]
    · rw [Table.get?_set_of_ne _ _ (Ne.symm h)]
      simp [h]

/-- No commit takes a generation out of the table or changes its model. -/
theorem modelOf_apply (c : Commit V) {w : World V} {generation : ℤ} {modelId : String}
    (h : modelOf w.db generation = some modelId) :
    modelOf (apply c w).db generation = some modelId := by
  cases c with
  | registerGeneration other otherModel status =>
    unfold modelOf
    rw [generations_register]
    split
    · exact h
    · rename_i hcontains
      have hne : other ≠ generation := by
        rintro rfl
        have hnone := Table.get?_eq_none.mpr (Bool.eq_false_iff.mpr hcontains)
        rw [modelOf, hnone] at h
        cases h
      rw [Table.get?_set_of_ne _ _ hne]
      exact h
  | promoteGeneration other =>
    have hget : (apply (.promoteGeneration other) w).db.generations.get? generation = _ :=
      get?_promote other generation w.db.generations
    unfold modelOf at h ⊢
    rw [hget, Option.map_map]
    exact h
  | _ => exact h

end Commits

def isGenerationCall : Call → Bool
  | .openWith .. | .openShadowGeneration .. | .promoteGeneration _ => true
  | _ => false

/-- A later session goes by the generation that is active, and only registered
generations are promoted. -/
def KeepsActive (w : World Memory) : Call → Prop
  | .openWith _ custom => IsActive w.db (sessionGeneration custom)
  | .promoteGeneration generation => w.db.generations.contains generation = true
  | _ => True

section Runs
variable {s : Strata} {w : World Memory}

theorem isActive_openWith (embedder : Embedder) (custom : Bool) (other : ℤ) :
    IsActive (after s w (.openWith embedder custom)).db other ↔ IsActive w.db other ∨
      (other = sessionGeneration custom ∧
        w.db.generations.contains (sessionGeneration custom) = false) := by
  let u : World Memory := apply .recover (apply (.memory fun m =>
    ⟨∅, ∅, ∅, embedder, sessionGeneration custom, m.faults, m.calls⟩) w)
  change IsActive (apply (.registerGeneration (sessionGeneration custom) embedder.modelId .active)
    u).db other ↔ _
  rw [isActive_register]
  change IsActive w.db other ∨ _ ↔ _
  simp only [and_true]
  exact Iff.rfl

theorem oneActive_first (hstart : Started w) (embedder : Embedder) (custom : Bool) :
    OneActive (after s w (.openWith embedder custom)) := by
  intro generation
  have hempty : w.db.generations = ∅ := congrArg Db.generations hstart.db
  rw [isActive_openWith]
  unfold IsActive
  rw [hempty]
  change _ ↔ generation = sessionGeneration custom
  simp

/-- Whether a call leaves one active generation, given that there is one before it. -/
theorem oneActive_call {c : Call} (hc : isGenerationCall c = true) (hw : OneActive w) :
    OneActive (after s w c) ↔ KeepsActive w c := by
  cases c with
  | openWith embedder custom =>
    have hactive : ∀ generation, IsActive (after s w (.openWith embedder custom)).db generation ↔ _ :=
      isActive_openWith embedder custom
    change (∀ generation, _ ↔ generation = sessionGeneration custom) ↔ IsActive w.db _
    constructor
    · intro h
      have hown : w.memory.activeGeneration = sessionGeneration custom :=
        (h _).mp ((hactive _).mpr (.inl ((hw _).mpr rfl)))
      exact (hw _).mpr hown.symm
    · intro hsession generation
      have hown := (hw _).mp hsession
      have hcontains : w.db.generations.contains (sessionGeneration custom) = true := by
        obtain ⟨row, hrow, _⟩ := hsession
        exact Table.contains_of_get? hrow
      rw [hactive, hw, hcontains, hown]
      simp
  | openShadowGeneration generation embedder =>
    refine ⟨fun _ => trivial, fun _ other => ?_⟩
    refine (isActive_register generation other embedder.modelId .shadow w).trans ?_
    rw [hw]
    change _ ↔ other = w.memory.activeGeneration
    simp
  | promoteGeneration generation =>
    have hactive : ∀ other, IsActive (after s w (.promoteGeneration generation)).db other ↔ _ :=
      fun other => isActive_promote generation other w
    change (∀ other, _ ↔ other = generation) ↔ _
    constructor
    · intro h
      exact ((hactive generation).mp ((h generation).mpr rfl)).2
    · intro hcontains other
      rw [hactive]
      exact ⟨And.left, fun h => ⟨h, hcontains⟩⟩
  | _ => cases hc

/-- After each call of a run there is one active generation, that of the engine, if and
only if every later session goes by the active generation and every promotion is of a
registered one. -/
theorem one_active_iff (s : Strata) {w : World Memory} (hstart : Started w) (embedder : Embedder)
    (custom : Bool) {calls : List Call} (hcalls : ∀ c ∈ calls, isGenerationCall c = true) :
    AfterEach (after s) OneActive w (.openWith embedder custom :: calls) ↔
      Along (after s) KeepsActive (after s w (.openWith embedder custom)) calls := by
  have hfirst : OneActive (after s w (.openWith embedder custom)) :=
    oneActive_first hstart embedder custom
  have hiff : ∀ w, ∀ c ∈ calls, OneActive w →
      (OneActive (after s w c) ↔ KeepsActive w c) := fun w c hc hw => oneActive_call (hcalls c hc) hw
  have hrest : AfterEach (after s) OneActive _ calls ↔ Along (after s) KeepsActive _ calls :=
    along_iff hiff (fun w c hc hw hkeeps => (hiff w c hc hw).mpr hkeeps) hfirst
  exact ⟨fun h => hrest.mp h.2, fun h => ⟨hfirst, hrest.mpr h⟩⟩

theorem one_active_iff_promoted :
    AfterEach (after plainStrata) OneActive plainWorld
        [.openWith plainEmbedder false, .openShadowGeneration 7 plainEmbedder,
          .promoteGeneration 7] ↔
      Along (after plainStrata) KeepsActive
        (after plainStrata plainWorld (.openWith plainEmbedder false))
        [.openShadowGeneration 7 plainEmbedder, .promoteGeneration 7] :=
  one_active_iff plainStrata started_plainWorld plainEmbedder false (by decide)

/-- A default session and then a custom one leave two active generations. -/
theorem second_session_also_active :
    let w := runCalls plainStrata plainWorld
      [.openWith plainEmbedder false, .openWith plainEmbedder true]
    IsActive w.db 1 ∧ IsActive w.db 2 ∧ w.memory.activeGeneration = 2 ∧ ¬ OneActive w := by
  refine ⟨⟨_, rfl, rfl⟩, ⟨_, rfl, rfl⟩, rfl, fun h => ?_⟩
  exact absurd ((h 1).mp ⟨_, rfl, rfl⟩) (by decide)

end Runs
end StrataMemory.GenerationTable
