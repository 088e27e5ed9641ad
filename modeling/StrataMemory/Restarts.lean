import StrataMemory.NodeRuns

set_option autoImplicit false

namespace StrataMemory.Restarts
open KeyedTables Records Tables Procedures Worlds Coordinator VectorStore Engine Gateway NodeRuns

section Restart
variable {s : Strata} {w t : World Memory} {q : List ℚ} {generation : Option ℤ}

def Survives (p : Platform) (q : List ℚ) (generation : Option ℤ) (w t : World Memory) : Prop :=
  ∀ name topK filters, ∀ hit ∈ (w.memory.store name).search p q topK generation filters,
    ∃ hit' ∈ (t.memory.store name).search p q topK generation filters, hit'.id = hit.id

def Indexed (q : List ℚ) (generation : Option ℤ) (w : World Memory) : Prop :=
  ∃ name k rec, (w.memory.store name).visible k = some rec ∧ (∀ g ∈ generation, k.2 = g) ∧
    rec.vector.length = q.length

theorem store_opened (embedder : Embedder) (custom : Bool) (name : String) :
    (after s w (.openWith embedder custom)).memory.store name = .empty := rfl

theorem search_empty (p : Platform) (topK : ℤ) (filters : List (String × String)) :
    InMemoryVectorStore.empty.search p q topK generation filters = [] := by
  unfold InMemoryVectorStore.search slice
  split_ifs <;> exact List.take_nil

theorem indexed_of_search {p : Platform} {name : String} {topK : ℤ}
    {filters : List (String × String)} {hit : VectorHit}
    (h : hit ∈ (w.memory.store name).search p q topK generation filters) :
    Indexed q generation w := by
  obtain ⟨rec, hrec, hgeneration, _, hlength, _⟩ :=
    InMemoryVectorStore.mem_hits.mp (InMemoryVectorStore.hits_of_search h)
  exact ⟨name, _, rec, hrec, hgeneration, hlength⟩

theorem search_of_indexed (p : Platform) (h : Indexed q generation w) :
    ∃ name topK, ∃ hit, hit ∈ (w.memory.store name).search p q topK generation [] := by
  obtain ⟨name, ⟨id, g⟩, rec, hrec, hgeneration, hlength⟩ := h
  have hhit : VectorHit.mk id (p.cosine q rec.vector) rec.contentHash g ∈
      (w.memory.store name).hits p q generation [] :=
    InMemoryVectorStore.mem_hits.mpr ⟨rec, hrec, hgeneration, rfl, hlength, rfl, rfl⟩
  exact ⟨name, _, _, InMemoryVectorStore.search_of_hits hhit⟩

end Restart

/-- After any run, a search survives closing and opening the file again with the same
embedder if and only if there was nothing for it to find. -/
theorem recall_survives_iff (s : Strata) (w₀ : World Memory) (calls : List Call) (custom : Bool)
    (q : List ℚ) (generation : Option ℤ) :
    let w := runCalls s w₀ calls
    Survives s.engine.platform q generation w
        (after s w (.openWith w.memory.embedder custom)) ↔ ¬ Indexed q generation w := by
  intro w
  constructor
  · intro hsurvives hindexed
    obtain ⟨name, topK, hit, hhit⟩ := search_of_indexed s.engine.platform hindexed
    obtain ⟨hit', hhit', _⟩ := hsurvives name topK [] hit hhit
    rw [store_opened, search_empty] at hhit'
    exact absurd hhit' List.not_mem_nil
  · intro hnot name topK filters hit hhit
    exact absurd (indexed_of_search hhit) hnot

/-- A memory that was found is not found by the next process. -/
theorem recall_lost_on_restart :
    let w := runCalls plainStrata plainWorld [.openWith plainEmbedder false, .writeMemory "tea" {}]
    let t := after plainStrata w (.openWith plainEmbedder false)
    ((w.memory.store "hot").search plainPlatform [3] 5 (some 1)).map VectorHit.id = [1] ∧
      (t.memory.store "hot").search plainPlatform [3] 5 (some 1) = [] ∧
      (t.db.readOne 1).map MemoryRecord.content = some "tea" ∧
      ¬ Survives plainPlatform [3] (some 1) w t := by
  intro w t
  have hfound : ((w.memory.store "hot").search plainPlatform [3] 5 (some 1)).map VectorHit.id =
      [1] := by decide
  have hlost : (t.memory.store "hot").search plainPlatform [3] 5 (some 1) = [] := by decide
  refine ⟨hfound, hlost, by decide, fun hsurvives => ?_⟩
  obtain ⟨hit, hhit, _⟩ := List.mem_map.mp (hfound ▸ List.mem_singleton_self 1 : (1 : ℤ) ∈ _)
  obtain ⟨hit', hhit', _⟩ := hsurvives "hot" 5 [] hit hhit
  rw [hlost] at hhit'
  exact absurd hhit' List.not_mem_nil

end StrataMemory.Restarts
