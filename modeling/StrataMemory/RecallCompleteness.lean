import StrataMemory.EmbeddedMemories
import StrataMemory.ShadowedBeliefs

set_option autoImplicit false

/-!
# What recall may miss

A memory that is live, permitted and in its window is missing from the bundle of a recall only
if its category is full of memories of at least its standing, or in every store enough entries
are at least as near to the query.
-/
namespace StrataMemory.RecallCompleteness
open KeyedTables Records Tables Procedures Worlds CommitEffects Coordinator CanonicalStore
open StoreRefinement IndexAgreement SettledFlows IdleFlows Histories LiveMemories EmbeddedMemories
open Resolver VectorStore InMemoryVectorStore Engine Gateway NodeRuns

theorem mem_take_sortByDesc {α κ : Type} [LinearOrder κ] {f : α → κ} {xs : List α} {a : α} {k : ℕ}
    (ha : a ∈ xs) (hk : xs.countP (fun b => f a ≤ f b) ≤ k) : a ∈ (sortByDesc f xs).take k := by
  let ys := sortByDesc f xs
  have hcount : ys.countP (fun b => f a ≤ f b) ≤ k := by
    rw [(sortByDesc_perm f xs).countP_eq]
    exact hk
  have hmem : a ∈ ys.take k ++ ys.drop k := by
    rw [List.take_append_drop]
    exact (mem_sortByDesc f xs a).mpr ha
  by_contra hout
  have hlate : a ∈ ys.drop k := (List.mem_append.mp hmem).resolve_left hout
  have hlength : k < ys.length := by
    have hpos := List.length_pos_of_mem hlate
    rw [List.length_drop] at hpos
    omega
  have hsorted : (ys.take k ++ ys.drop k).Pairwise fun a b => f b ≤ f a := by
    rw [List.take_append_drop]
    exact sortByDesc_pairwise f xs
  have hbefore := (List.pairwise_append.mp hsorted).2.2
  have hfirst : (ys.take k).countP (fun b => f a ≤ f b) = k := by
    rw [List.countP_eq_length.mpr fun b hb => decide_eq_true (hbefore b hb a hlate),
      List.length_take, min_eq_left hlength.le]
  have hrest : 0 < (ys.drop k).countP fun b => f a ≤ f b :=
    List.countP_pos_iff.mpr ⟨a, hlate, decide_eq_true le_rfl⟩
  rw [← List.take_append_drop k ys, List.countP_append, hfirst] at hcount
  omega

theorem search_of_reach {p : Platform} {s : InMemoryVectorStore} {vector : List ℚ} {topK : ℤ}
    {generation : Option ℤ} {filters : List (String × String)} {hit : VectorHit}
    (h : hit ∈ hits p s vector generation filters)
    (hreach : ((hits p s vector generation filters).countP fun other =>
      hit.score ≤ other.score : ℕ) ≤ topK) :
    hit ∈ s.search p vector topK generation filters := by
  have hpositive : 0 ≤ topK := (Int.natCast_nonneg _).trans hreach
  unfold search slice
  rw [if_pos hpositive]
  exact mem_take_sortByDesc h (Int.le_toNat hpositive |>.mpr hreach)

section Categories
variable {p : Platform} {db : Db} {candidates : List Candidate} {now : Time}
  {permit : Option (MemoryRecord → Bool)} {budgets : Budgets}

/-- The category that a record is shown in. -/
def shelf (db : Db) (r : MemoryRecord) : Category :=
  if r.recordType = .reflection then .hypothesis
  else if r.recordType = .guardrail ∨ r.tier = .l4 then .policyFlag
  else if !(activeContradictors db r.id).isEmpty then .openConflict
  else categoryFor r

theorem route_shelf {item : MemoryRecord × Merged} {e : BundleEntry} (h : route db item = some e) :
    e.category = shelf db item.1 := by
  unfold route at h
  unfold shelf
  dsimp only at h
  split at h
  · next hreflection =>
    cases h
    rw [if_pos hreflection]
    rfl
  next hreflection =>
  rw [if_neg hreflection]
  split at h
  · next hpolicy =>
    cases h
    rw [if_pos hpolicy]
    rfl
  next hpolicy =>
  rw [if_neg hpolicy]
  split at h
  · cases h
  split at h
  · cases h
  split at h
  · next hcontradicted =>
    cases h
    rw [if_pos hcontradicted]
    rfl
  · next hcontradicted =>
    cases h
    rw [if_neg hcontradicted]
    rfl

/-- Each entry of the category is of a record of at least the standing of `r`. -/
def FilledAbove (db : Db) (entries : List BundleEntry) (r : MemoryRecord) : Prop :=
  ∀ e ∈ entries, ∃ other, db.readOne e.id = some other ∧ standing r ≤ standing other

/-- A survivor that is routed is shown, or its category is full of better ones. -/
theorem shown_or_full {item : MemoryRecord × Merged} {e : BundleEntry}
    (hitem : item ∈ hydrateAndFilter db (merge candidates) now permit)
    (hroute : route db item = some e) :
    let b := resolve p db candidates now permit budgets false
    e ∈ b.entries e.category ∨ ∃ least most, budgets.lookup e.category = some (least, most) ∧
      (b.entries e.category).length = most ∧ FilledAbove db (b.entries e.category) item.1 := by
  intro b
  let survivors := hydrateAndFilter db (merge candidates) now permit
  let routed := ((shown p survivors false (17 / 20)).filterMap (route db)).filter
    fun other => other.category = e.category
  have hentries : b.entries e.category = trim budgets e.category routed :=
    entries_buildBundle p db survivors false (17 / 20) budgets e.category
  have hshown : item ∈ shown p survivors false (17 / 20) := (mem_sortByDesc _ _ _).mpr hitem
  have hmem : e ∈ routed := List.mem_filter.mpr
    ⟨List.mem_filterMap.mpr ⟨item, hshown, hroute⟩, decide_eq_true rfl⟩
  have hranked : routed.Pairwise (RankedAbove db survivors) :=
    (routed_ranked survivors_nodup).filter _
  cases hbudget : budgets.lookup e.category with
  | none =>
    refine .inl ?_
    rw [hentries, trim, hbudget]
    exact hmem
  | some budget =>
    obtain ⟨least, most⟩ := budget
    rw [hentries, trim_eq_take hbudget]
    rw [← List.take_append_drop most routed] at hmem hranked
    refine (List.mem_append.mp hmem).imp_right fun hlate => ⟨least, most, rfl, ?_, ?_⟩
    · have hpos := List.length_pos_of_mem hlate
      rw [List.length_drop] at hpos
      rw [List.length_take, min_eq_left (by omega)]
    · intro other hother
      have habove := (List.pairwise_append.mp hranked).2.2 other hother e hlate
      have hrouted := List.mem_of_mem_filter (List.mem_of_mem_take hother)
      obtain ⟨better, hbetter, hroute'⟩ := List.mem_filterMap.mp hrouted
      have hsurvivor : better ∈ survivors := (mem_sortByDesc _ _ _).mp hbetter
      have hrow := (surfaceable_of_survivor hsurvivor).row
      refine ⟨better.1, route_id hroute' ▸ hrow, standing_le ?_⟩
      exact habove better hsurvivor hroute' item hitem hroute

end Categories

section Offers
variable {e : MemoryEngine} {w : World Memory} {row : MemoryRecord} {text : String} {topK : ℤ}

theorem mem_of_mem_limit {α : Type} {xs : List α} {k : ℤ} {a : α} (h : a ∈ limit xs k) : a ∈ xs := by
  unfold limit at h
  split at h
  · exact List.mem_of_mem_take h
  · exact h

theorem row_of_lexicalSearch {p : Platform} {db : Db} {statuses : List Status}
    {excludeTombstoned : Bool} {found : MemoryRecord × ℚ}
    (h : found ∈ lexicalSearch p db text topK statuses excludeTombstoned) :
    db.readOne found.1.id = some found.1 := by
  unfold lexicalSearch at h
  obtain ⟨posting, _, hfound⟩ :=
    List.mem_filterMap.mp ((mem_sortBy _ _ _).mp (mem_of_mem_limit h))
  obtain ⟨score, _, hfound⟩ := Option.bind_eq_some_iff.mp hfound
  obtain ⟨r, hread, hfound⟩ := Option.bind_eq_some_iff.mp hfound
  have hr : found.1 = r := by
    split at hfound
    · cases hfound
    split at hfound
    · cases hfound
    · cases hfound
      rfl
  rw [hr, Db.readOne_id hread]
  exact hread

/-- Whatever is offered under the id of a row has the hash of the row. -/
theorem offered_hash (hembeds : Embeds e w) (hrow : w.db.readOne row.id = some row) :
    ∀ c ∈ e.vectorCandidates w.memory text topK w.memory.activeGeneration ++
      e.lexicalCandidates w.db text topK, c.recordId = row.id →
        c.contentHash = some row.contentHash := by
  intro c hc hid
  rcases List.mem_append.mp hc with hc | hc
  · obtain ⟨name, hname, hc⟩ := List.mem_flatMap.mp hc
    obtain ⟨hit, hhit, rfl⟩ := List.mem_map.mp hc
    obtain ⟨rec, hvisible, hgeneration, _, _, _, hhash⟩ := mem_hits.mp (hits_of_search hhit)
    rw [hgeneration _ rfl, show hit.id = row.id from hid, ← shown_storesOf, shown_eq_some] at hvisible
    exact congrArg some (hhash.trans (hembeds name hname row.id _ rec (textOf_row hrow) hvisible.2).2)
  · obtain ⟨found, hfound, rfl⟩ := List.mem_map.mp hc
    have hread := row_of_lexicalSearch hfound
    rw [show found.1.id = row.id from hid, hrow] at hread
    cases hread
    rfl

/-- In some store, at most `topK` entries are at least as near to the query as the content. -/
def InReach (e : MemoryEngine) (w : World Memory) (text : String) (topK : ℤ)
    (row : MemoryRecord) : Prop :=
  let query := w.memory.embedder.embed text
  ∃ name ∈ e.vectorNames,
    ((hits e.platform (w.memory.store name) query (some w.memory.activeGeneration) []).countP
      fun hit => e.platform.cosine query (w.memory.embedder.embed row.content) ≤ hit.score : ℕ) ≤ topK

instance (e : MemoryEngine) (w : World Memory) (text : String) (topK : ℤ) (row : MemoryRecord) :
    Decidable (InReach e w text topK row) :=
  inferInstanceAs (Decidable (∃ name ∈ e.vectorNames, _))

theorem offered_of_reach (hembeds : Embeds e w)
    (hdim : ∀ t, (w.memory.embedder.embed t).length = w.memory.embedder.dim)
    (hrow : w.db.readOne row.id = some row) (hindexed : InIndexes e w row.id)
    (hreach : InReach e w text topK row) :
    ∃ c ∈ e.vectorCandidates w.memory text topK w.memory.activeGeneration, c.recordId = row.id := by
  obtain ⟨name, hname, hreach⟩ := hreach
  obtain ⟨rec, hvisible⟩ := Option.isSome_iff_exists.mp (hindexed.2 name hname)
  have hheld := hvisible
  rw [← shown_storesOf, shown_eq_some] at hheld
  have hvector := (hembeds name hname row.id _ rec (textOf_row hrow) hheld.2).1
  let hit : VectorHit := ⟨row.id, e.platform.cosine (w.memory.embedder.embed text)
    (w.memory.embedder.embed row.content), rec.contentHash, w.memory.activeGeneration⟩
  have hhit : hit ∈ hits e.platform (w.memory.store name) (w.memory.embedder.embed text)
      (some w.memory.activeGeneration) [] := by
    refine mem_hits.mpr ⟨rec, hvisible, fun g hg => ?_, rfl, ?_, hvector ▸ rfl, rfl⟩
    · cases hg
      rfl
    · rw [hvector, hdim, hdim]
  have hfound := search_of_reach hhit hreach
  exact ⟨_, List.mem_flatMap.mpr ⟨name, hname, List.mem_map.mpr ⟨hit, hfound, rfl⟩⟩, rfl⟩

theorem surfaceable_of_reach (hembeds : Embeds e w) (hindexed : LiveIndexed e w)
    (hdim : ∀ t, (w.memory.embedder.embed t).length = w.memory.embedder.dim)
    (hrow : w.db.readOne row.id = some row) (hlive : isLiveRecord w.db row.id = true)
    (hreach : InReach e w text topK row) {now : Time} (hwindow : timeValid row now = true)
    {permit : MemoryRecord → Bool} (hpermit : permit row = true) :
    Surfaceable w.db (e.vectorCandidates w.memory text topK w.memory.activeGeneration ++
      e.lexicalCandidates w.db text topK) now (some permit) row := by
  obtain ⟨_, _, _, hnot⟩ := isLiveRecord_iff.mp hlive
  obtain ⟨offer, hoffer, hid⟩ := offered_of_reach hembeds hdim hrow (hindexed row.id hlive) hreach
  refine ⟨hrow, ⟨offer, List.mem_append_left _ hoffer, hid⟩, hnot, ?_, hwindow, ?_⟩
  · rintro ⟨c, hc, hcid, hhashes⟩
    refine ⟨c, hc, hcid, ?_⟩
    have hhash := offered_hash hembeds hrow c hc hcid
    unfold Candidate.hashes at hhashes ⊢
    rw [hhash] at hhashes ⊢
    dsimp only at hhashes ⊢
    split_ifs at hhashes ⊢
    · exact absurd rfl hhashes
    · exact List.mem_singleton_self _
  · intro allowed hallowed
    cases hallowed
    exact hpermit

end Offers

/-- In every run of a session in which no adapter refuses, every call returns and each patch
that makes a record live finds it indexed, a recall shows a live memory that no live record
supersedes, if it may be recalled now and is in reach of the query: under its present content
and in its category, or that category holds as many memories as its budget allows, all of at
least its standing. -/
theorem recall_shows_or_full (s : Strata) (hstores : s.engine.vectorNames.length ≤ maxSteps)
    {w : World Memory} (hstart : Started w) (hfaults : ∀ n, w.memory.faults n = false)
    (hdim : ∀ t, (w.memory.embedder.embed t).length = w.memory.embedder.dim)
    {calls : List Call} (hcalls : ∀ c ∈ calls, isSessionOperation c = true)
    (hreturned : AllReturned s w calls) (hbacked : Along (after s) (Backed s.engine) w calls)
    (text : String) (topK : ℤ) (permit : Option (MemoryRecord → Bool)) :
    let t := runCalls s w calls
    let b := s.engine.recall t text topK none permit
    ∀ row, t.db.readOne row.id = some row → isLiveRecord t.db row.id = true →
      isSupersededByActive t.db row.id = false → timeValid row t.now = true →
      permit.getD s.engine.policy.canRecall row = true → InReach s.engine t text topK row →
        (∃ e ∈ b.entries (shelf t.db row), e.id = row.id ∧ e.claim = row.content) ∨
          ∃ least most, defaultBudgets.lookup (shelf t.db row) = some (least, most) ∧
            (b.entries (shelf t.db row)).length = most ∧
            FilledAbove t.db (b.entries (shelf t.db row)) row := by
  intro t b row hrow hlive hsuperseded hwindow hpermit hreach
  obtain ⟨_, hembeds, hembedder⟩ :=
    current_runCalls hstores hcalls hreturned (current_started hstart hfaults)
  have hindexed : LiveIndexed s.engine t := by
    refine AfterEach.last (fun id hid => ?_)
      ((live_indexed_iff s hstores hstart hfaults hcalls hreturned).mpr hbacked)
    obtain ⟨r, hread, _⟩ := isLiveRecord_iff.mp hid
    rw [hstart.db] at hread
    cases hread
  obtain ⟨merged, hmerged⟩ := survivor_of_surfaceable
    (surfaceable_of_reach hembeds hindexed (hembedder ▸ hdim) hrow hlive hreach hwindow hpermit)
  have hsurfaces : surfaces t.db row = true := by
    obtain ⟨r, hread, hactive, _⟩ := isLiveRecord_iff.mp hlive
    cases hrow.symm.trans hread
    unfold surfaces
    rw [hactive, hsuperseded]
    exact Bool.or_true _
  obtain ⟨e, hroute⟩ := Option.isSome_iff_exists.mp ((route_isSome t.db (row, merged)).trans hsurfaces)
  have hshelf : e.category = shelf t.db row := route_shelf hroute
  rw [← hshelf]
  exact (shown_or_full hmerged hroute).imp_left fun he => ⟨e, he, route_id hroute, route_claim hroute⟩

theorem recall_shows_or_full_corrected :
    let t := runCalls plainStrata plainWorld
      [.writeMemory "tea" {}, .updateMemory 1 (some "milk") none, .supersedeMemory 1 "coffee" {}]
    let b := plainStrata.engine.recall t "coffee" 1 none none
    ∃ row, t.db.readOne 2 = some row ∧
      ((∃ e ∈ b.entries (shelf t.db row), e.id = row.id ∧ e.claim = row.content) ∨
        ∃ least most, defaultBudgets.lookup (shelf t.db row) = some (least, most) ∧
          (b.entries (shelf t.db row)).length = most ∧
          FilledAbove t.db (b.entries (shelf t.db row)) row) := by
  intro t b
  obtain ⟨row, hrow⟩ := Option.isSome_iff_exists.mp
    (show (t.db.readOne 2).isSome = true by decide +kernel)
  have hid : row.id = 2 := Db.readOne_id hrow
  have hdata : (t.db.readOne 2).all (fun r => timeValid r t.now &&
      plainStrata.engine.policy.canRecall r && decide (InReach plainStrata.engine t "coffee" 1 r)) =
      true := by decide +kernel
  rw [hrow, Option.all_some, Bool.and_eq_true, Bool.and_eq_true, decide_eq_true_iff] at hdata
  let calls : List Call :=
    [.writeMemory "tea" {}, .updateMemory 1 (some "milk") none, .supersedeMemory 1 "coffee" {}]
  have hreturned : AllReturned plainStrata plainWorld calls :=
    ⟨by decide, by decide, by decide, trivial⟩
  have hbacked : Along (after plainStrata) (Backed plainStrata.engine) plainWorld calls :=
    ⟨trivial, trivial, trivial, trivial⟩
  refine ⟨row, hrow, recall_shows_or_full plainStrata (by decide) started_plainWorld (fun _ => rfl)
    (fun _ => rfl) (by decide) hreturned hbacked "coffee" 1 none row (hid ▸ hrow) ?_ ?_
    hdata.1.1 hdata.1.2 hdata.2⟩
  · rw [hid]
    decide +kernel
  · rw [hid]
    decide +kernel

end StrataMemory.RecallCompleteness
