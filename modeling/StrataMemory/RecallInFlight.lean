import StrataMemory.Readers
import StrataMemory.NodeRuns
import StrataMemory.CurrentTruth
import StrataMemory.SharedViews

set_option autoImplicit false

/-!
# Recall while others write

A recall is not one transaction: each search, each hydration, each tombstone check and
each walk along an edge is a statement of its own, and other threads commit in between.
-/
namespace StrataMemory.RecallInFlight
open KeyedTables Records Tables Procedures Interleavings Readers Worlds CanonicalStore Resolver
open Engine NodeRuns

section Steps
variable {V : Type}

/-- One turn of the loop of `_hydrate_and_filter`. -/
def hydrateStep (records : List MemoryRecord) (now : Time) (permit : Option (MemoryRecord → Bool))
    (m : RecordId × Merged) : Prog V (List (MemoryRecord × Merged)) :=
  match records.find? fun r => r.id = m.1 with
  | none => return []
  | some r => do
    if ← CanonicalStore.isTombstoned m.1 then return []
    else if !m.2.contentHashes.isEmpty && !decide (r.contentHash ∈ m.2.contentHashes) then return []
    else if !timeValid r now then return []
    else if permit.any fun p => !p r then return []
    else return [(r, m.2)]

/-- `read_one(sid)`, and only then the tombstone of an active row. -/
def liveStep (id : RecordId) : Prog V Bool := do
  match ← CanonicalStore.readOne id with
  | none => return false
  | some r =>
    if r.status.isActive then
      let gone ← CanonicalStore.isTombstoned id
      return !gone
    else return false

def supersededStep (id : RecordId) : Prog V Bool := do
  let superseders ← query fun db => supersedersOf db id
  anyOf liveStep superseders

def contradictorsStep (id : RecordId) : Prog V (List RecordId) := do
  let others ← query fun db => contradictorsOf db id
  gather (fun other => do
    let live ← liveStep other
    return if live then [other] else []) others

/-- `_entry` asks for the superseders again. -/
def entryStep (item : MemoryRecord × Merged) (category : Category)
    (host : Option HostInstruction := none) (status : Option String := none) :
    Prog V (List BundleEntry) := do
  let e ← query fun db => entry db item category host status
  return [e]

/-- One turn of the loop of `_build_bundle`. -/
def routeStep (item : MemoryRecord × Merged) : Prog V (List BundleEntry) :=
  let r := item.1
  if r.recordType = .reflection then entryStep item .hypothesis
  else if r.recordType = .guardrail ∨ r.tier = .l4 then entryStep item .policyFlag
  else if !r.status.isActive then return []
  else do
    if ← supersededStep r.id then return []
    else
      let contradictors ← contradictorsStep r.id
      if !contradictors.isEmpty then
        entryStep item .openConflict (some .useCautiously) (some "contradicted")
      else entryStep item (categoryFor r)

/-- `_build_bundle`'s order: rank, then drop near-duplicates. -/
def ordered (p : Platform) (survivors : List (MemoryRecord × Merged)) (diversity : Bool)
    (diversityThreshold : ℚ) : List (MemoryRecord × Merged) :=
  let ranked := rank survivors
  if diversity then
    keepIndices (diversify p (ranked.map fun item => item.1.content) diversityThreshold) ranked
  else ranked

/-- `now if now is not None else self.now_fn()`. -/
def nowStep : Option Time → Prog V Time
  | some t => return t
  | none => Proc.read World.now

def resolveSteps (p : Platform) (candidates : List Candidate) (now : Option Time)
    (permit : Option (MemoryRecord → Bool)) (budgets : Budgets := defaultBudgets)
    (diversity : Bool := false) (diversityThreshold : ℚ := 17 / 20) : Prog V BeliefBundle := do
  let now ← nowStep now
  let merged := merge candidates
  let records ← query fun db => readIds db merged.keys
  let survivors ← gather (hydrateStep records now permit) merged.entries
  let entries ← gather routeStep (ordered p survivors diversity diversityThreshold)
  return applyBudgets budgets (entries.foldl BeliefBundle.add {})

end Steps

/-- One search of a vector store, over a snapshot of its entries. -/
def searchStep (e : MemoryEngine) (vector : List ℚ) (topK generation : ℤ) (name : String) :
    Prog Memory (List Candidate) :=
  Proc.read fun w =>
    ((w.memory.store name).search e.platform vector topK (some generation)).map
      fun hit => ⟨hit.id, hit.score, name, some hit.contentHash⟩

/-- `MemoryEngine.recall`: one search after the other, then the resolver. -/
def recallSteps (e : MemoryEngine) (text : String) (topK : ℤ := 10)
    (generation : Option ℤ := none) (permit : Option (MemoryRecord → Bool) := none)
    (diversity : Bool := false) : Prog Memory BeliefBundle := do
  let active ← Proc.read fun w => w.memory.activeGeneration
  let vector ← Proc.read fun w => w.memory.embedder.embed text
  let found ← gather (searchStep e vector topK (generation.getD active)) e.vectorNames
  let lexical ← query fun db => e.lexicalCandidates db text topK
  resolveSteps e.platform (found ++ lexical) none (some (permit.getD e.policy.canRecall))
    defaultBudgets diversity

section Alone
variable {V : Type}

theorem find_readIds {db : Db} {ids : List RecordId} {id : RecordId} (hid : id ∈ ids) :
    ((readIds db ids).find? fun r => r.id = id) = db.readOne id := by
  unfold readIds
  induction ids with
  | nil => cases hid
  | cons first ids ih =>
    cases hfirst : db.readOne first with
    | none =>
      rw [List.filterMap_cons_none hfirst]
      rcases List.mem_cons.mp hid with rfl | hid
      · rw [hfirst, List.find?_eq_none]
        intro r hr
        obtain ⟨other, _, hother⟩ := List.mem_filterMap.mp hr
        simp only [decide_eq_true_eq]
        rintro rfl
        rw [Db.readOne_id hother] at hfirst
        rw [hfirst] at hother
        cases hother
      · exact ih hid
    | some r =>
      have hr := Db.readOne_id hfirst
      rw [List.filterMap_cons_some hfirst, List.find?_cons]
      by_cases heq : r.id = id
      · simp only [heq, decide_true]
        rw [← heq, hr, hfirst]
      · simp only [heq, decide_false]
        exact ih ((List.mem_cons.mp hid).resolve_left fun h => heq (hr.trans h.symm))

theorem run_hydrateStep {w : World V} {records : List MemoryRecord} {now : Time}
    {permit : Option (MemoryRecord → Bool)} {m : RecordId × Merged}
    (hread : (records.find? fun r => r.id = m.1) = w.db.readOne m.1) :
    (hydrateStep records now permit m).run w = (.ok (hydrate w.db now permit m).toList, w) := by
  unfold hydrateStep hydrate
  rw [hread]
  cases w.db.readOne m.1 with
  | none => rfl
  | some r =>
    change (if w.db.isTombstoned m.1 then _ else _ : Prog V _).run w = _
    dsimp only
    split_ifs <;> rfl

theorem run_liveStep (id : RecordId) (w : World V) :
    (liveStep id).run w = (.ok (isLiveRecord w.db id), w) := by
  unfold isLiveRecord
  change (match w.db.readOne id with | none => _ | some r => _ : Prog V Bool).run w = _
  cases w.db.readOne id with
  | none => rfl
  | some r =>
    dsimp only
    cases r.status.isActive <;> rfl

theorem run_supersededStep (id : RecordId) (w : World V) :
    (supersededStep id).run w = (.ok (isSupersededByActive w.db id), w) :=
  run_anyOf (fun other => run_liveStep other w) _

theorem flatMap_if {α : Type} (q : α → Bool) (xs : List α) :
    (xs.flatMap fun x => if q x then [x] else []) = xs.filter q := by
  induction xs with
  | nil => rfl
  | cons x xs ih =>
    rw [List.flatMap_cons, ih, List.filter_cons]
    cases q x <;> rfl

theorem run_contradictorsStep (id : RecordId) (w : World V) :
    (contradictorsStep id).run w = (.ok (activeContradictors w.db id), w) := by
  have hone : ∀ other ∈ contradictorsOf w.db id, (do
      let live ← liveStep other
      return if live then [other] else [] : Prog V (List RecordId)).run w =
        (.ok (if isLiveRecord w.db other then [other] else []), w) :=
    fun other _ => Proc.run_bind_ok (run_liveStep other w)
  have hgather := run_gather hone
  rw [flatMap_if] at hgather
  exact hgather

theorem run_routeStep (item : MemoryRecord × Merged) (w : World V) :
    (routeStep item).run w = (.ok (route w.db item).toList, w) := by
  unfold routeStep route
  dsimp only
  split_ifs with hreflection hkind hactive hsuperseded hcontradicted
  · rfl
  · rfl
  · rfl
  · rw [Proc.run_bind_ok (run_supersededStep item.1.id w), if_pos hsuperseded]
    rfl
  · rw [Proc.run_bind_ok (run_supersededStep item.1.id w), if_neg hsuperseded,
      Proc.run_bind_ok (run_contradictorsStep item.1.id w), if_pos hcontradicted]
    rfl
  · rw [Proc.run_bind_ok (run_supersededStep item.1.id w), if_neg hsuperseded,
      Proc.run_bind_ok (run_contradictorsStep item.1.id w), if_neg hcontradicted]
    rfl

theorem routeAll_eq (db : Db) (ranked : List (MemoryRecord × Merged)) :
    (ranked.flatMap fun item => (route db item).toList).foldl BeliefBundle.add {} =
      routeAll db ranked := by
  unfold routeAll
  generalize ({} : BeliefBundle) = b
  induction ranked generalizing b with
  | nil => rfl
  | cons item ranked ih =>
    rw [List.flatMap_cons, List.foldl_append, ih, List.foldl_cons]
    congr 1
    unfold addRouted
    cases route db item <;> rfl

theorem run_resolveSteps (p : Platform) (candidates : List Candidate) (now : Option Time)
    (permit : Option (MemoryRecord → Bool)) (budgets : Budgets) (diversity : Bool)
    (diversityThreshold : ℚ) (w : World V) :
    (resolveSteps p candidates now permit budgets diversity diversityThreshold).run w =
      (.ok (resolve p w.db candidates (now.getD w.now) permit budgets diversity
        diversityThreshold), w) := by
  have hnow : (nowStep now).run w = (.ok (now.getD w.now), w) := by cases now <;> rfl
  have hsurvivors : (gather (hydrateStep (readIds w.db (merge candidates).keys) (now.getD w.now)
      permit) (merge candidates).entries).run w =
        (.ok (hydrateAndFilter w.db (merge candidates) (now.getD w.now) permit), w) := by
    have hone : ∀ m ∈ (merge candidates).entries,
        (hydrateStep (readIds w.db (merge candidates).keys) (now.getD w.now) permit m).run w =
          (.ok (hydrate w.db (now.getD w.now) permit m).toList, w) :=
      fun m hm => run_hydrateStep (find_readIds (List.mem_map_of_mem hm))
    have hgather := run_gather hone
    rw [← List.filterMap_eq_flatMap_toList] at hgather
    exact hgather
  unfold resolveSteps
  rw [Proc.run_bind_ok hnow]
  change (gather _ _ >>= _).run w = _
  rw [Proc.run_bind_ok hsurvivors, Proc.run_bind_ok (run_gather fun item _ => run_routeStep item w)]
  change (Except.ok (applyBudgets budgets _), w) = _
  rw [routeAll_eq]
  rfl

end Alone

/-- With nobody else about, the statements of a recall add up to the recall of the tables. -/
theorem recall_alone (e : MemoryEngine) (text : String) (topK : ℤ) (generation : Option ℤ)
    (permit : Option (MemoryRecord → Bool)) (diversity : Bool) (w : World Memory) :
    (recallSteps e text topK generation permit diversity).run w =
      (.ok (e.recall w text topK generation permit diversity), w) := by
  have hfound : (gather (searchStep e (w.memory.embedder.embed text) topK
      (generation.getD w.memory.activeGeneration)) e.vectorNames).run w =
        (.ok (e.vectorCandidates w.memory text topK (generation.getD w.memory.activeGeneration)),
          w) :=
    run_gather fun _ _ => rfl
  change (gather _ _ >>= _).run w = _
  rw [Proc.run_bind_ok hfound]
  change (resolveSteps _ _ _ _ _ _).run w = _
  rw [run_resolveSteps]
  rfl

section Among
variable {V : Type} {states : List (World V)}

/-- Some record supersedes the id, and is live, at every one of the moments. -/
def SupersededThroughout (moments : List (World V)) (id : RecordId) : Prop :=
  ∃ other, ∀ w ∈ moments, other ∈ supersedersOf w.db id ∧ isLiveRecord w.db other = true

def ContradictedThroughout (moments : List (World V)) (id : RecordId) : Prop :=
  ∃ other, ∀ w ∈ moments, other ∈ contradictorsOf w.db id ∧ isLiveRecord w.db other = true

theorem hydrateStep_ends {records : List MemoryRecord} {now : Time}
    {permit : Option (MemoryRecord → Bool)} {m : RecordId × Merged}
    {found : List (MemoryRecord × Merged)} {item : MemoryRecord × Merged}
    (h : Ends (hydrateStep records now permit m) states (.ok found)) (hitem : item ∈ found) :
    item.1 ∈ records ∧ (∃ w ∈ states, w.db.isTombstoned item.1.id = false) ∧
      timeValid item.1 now = true ∧ ∀ p, permit = some p → p item.1 = true := by
  unfold hydrateStep at h
  cases hread : records.find? fun r => r.id = m.1 with
  | none =>
    rw [hread] at h
    cases h.of_pure
    cases hitem
  | some r =>
    rw [hread] at h
    have hid : r.id = m.1 := by simpa using List.find?_some hread
    obtain ⟨gone, front, back, rfl, hgone, hrest⟩ := h.of_bind
    obtain ⟨w, hw, rfl⟩ := hgone.of_read
    dsimp only at hrest
    split_ifs at hrest with htomb hdrift hvalid hpermit
    all_goals cases hrest.of_pure
    all_goals cases hitem
    · refine ⟨List.mem_of_find?_eq_some hread, ⟨w, List.mem_append_left _ hw, ?_⟩, ?_, ?_⟩
      · rw [hid]
        exact Bool.eq_false_iff.mpr htomb
      · simpa using hvalid
      · rintro p rfl
        simpa using hpermit
    · rename_i h
      cases h

/-- A record that is live at every moment that a check sees passes it. -/
theorem liveStep_ends {id : RecordId} {answer : Bool} (h : Ends (liveStep id) states (.ok answer))
    (hlive : ∀ w ∈ states, isLiveRecord w.db id = true) : answer = true := by
  obtain ⟨row, front, back, rfl, hrow, hrest⟩ := h.of_bind
  obtain ⟨w, hw, rfl⟩ := hrow.of_read
  obtain ⟨r, hr, hactive, _⟩ := isLiveRecord_iff.mp (hlive w (List.mem_append_left _ hw))
  dsimp only at hrest
  rw [hr] at hrest
  simp only [hactive, if_true] at hrest
  obtain ⟨gone, front', back', rfl, hgone, hdone⟩ := hrest.of_bind
  obtain ⟨t, ht, rfl⟩ := hgone.of_read
  obtain ⟨_, _, _, htomb⟩ :=
    isLiveRecord_iff.mp (hlive t (List.mem_append_right _ (List.mem_append_left _ ht)))
  exact hdone.of_pure.trans (congrArg (!·) htomb)

theorem supersededStep_ends {id : RecordId} (h : Ends (supersededStep id) states (.ok false)) :
    ¬ SupersededThroughout states id := by
  rintro ⟨other, hother⟩
  obtain ⟨superseders, front, back, rfl, hread, hsearch⟩ := h.of_bind
  obtain ⟨w, hw, rfl⟩ := hread.of_read
  obtain ⟨part, hpart, hanswer⟩ := hsearch.of_anyOf (hother w (List.mem_append_left _ hw)).1
  have hlive := liveStep_ends hanswer fun t ht =>
    (hother t (List.mem_append_right _ (hpart ht))).2
  cases hlive

theorem contradictorsStep_ends {id : RecordId} (h : Ends (contradictorsStep id) states (.ok [])) :
    ¬ ContradictedThroughout states id := by
  rintro ⟨other, hother⟩
  obtain ⟨others, front, back, rfl, hread, hgather⟩ := h.of_bind
  obtain ⟨w, hw, rfl⟩ := hread.of_read
  obtain ⟨part, hpart, found, hfound, hanswer⟩ :=
    hgather.gathers (hother w (List.mem_append_left _ hw)).1
  obtain ⟨live, front', back', rfl, hlive, hdone⟩ := hanswer.of_bind
  have htrue := liveStep_ends hlive fun t ht =>
    (hother t (List.mem_append_right _ (hpart (List.mem_append_left _ ht)))).2
  rw [htrue] at hdone
  cases List.subset_nil.mp (hdone.of_pure ▸ hfound)

theorem entryStep_ends {item : MemoryRecord × Merged} {category : Category}
    {host : Option HostInstruction} {status : Option String} {found : List BundleEntry}
    {e : BundleEntry} (h : Ends (entryStep item category host status) states (.ok found))
    (he : e ∈ found) : e.id = item.1.id ∧ e.claim = item.1.content ∧ e.category = category := by
  obtain ⟨x, front, back, rfl, hx, hdone⟩ := h.of_bind
  obtain ⟨w, hw, rfl⟩ := hx.of_read
  cases hdone.of_pure
  cases List.mem_singleton.mp he
  exact ⟨rfl, rfl, rfl⟩

/-- What the walk along the edges has established of an entry. -/
structure Checked (moments : List (World V)) (r : MemoryRecord) (e : BundleEntry) : Prop where
  id : e.id = r.id
  claim : e.claim = r.content
  active : e.category = .hypothesis ∨ e.category = .policyFlag ∨ r.status.isActive = true
  unsuperseded : e.category = .hypothesis ∨ e.category = .policyFlag ∨
    ¬ SupersededThroughout moments r.id
  uncontradicted : isCurrent e.category = true → ¬ ContradictedThroughout moments r.id

theorem routeStep_ends {item : MemoryRecord × Merged} {found : List BundleEntry} {e : BundleEntry}
    (h : Ends (routeStep item) states (.ok found)) (he : e ∈ found) : Checked states item.1 e := by
  unfold routeStep at h
  dsimp only at h
  split_ifs at h with hreflection hkind hactive
  · obtain ⟨hid, hclaim, hcategory⟩ := entryStep_ends h he
    exact ⟨hid, hclaim, .inl hcategory, .inl hcategory, fun hc => by rw [hcategory] at hc; cases hc⟩
  · obtain ⟨hid, hclaim, hcategory⟩ := entryStep_ends h he
    exact ⟨hid, hclaim, .inr (.inl hcategory), .inr (.inl hcategory),
      fun hc => by rw [hcategory] at hc; cases hc⟩
  · cases h.of_pure
    cases he
  have hlive : item.1.status.isActive = true := by simpa using hactive
  obtain ⟨superseded, front, back, rfl, hsuperseded, hrest⟩ := h.of_bind
  cases superseded with
  | true =>
    cases hrest.of_pure
    cases he
  | false =>
    have hunsuperseded : ¬ SupersededThroughout (front ++ back) item.1.id := fun ⟨other, hother⟩ =>
      supersededStep_ends hsuperseded ⟨other, fun w hw => hother w (List.mem_append_left _ hw)⟩
    obtain ⟨contradictors, middle, last, rfl, hcontradictors, hentry⟩ := hrest.of_bind
    cases contradictors with
    | cons other others =>
      obtain ⟨hid, hclaim, hcategory⟩ := entryStep_ends hentry he
      exact ⟨hid, hclaim, .inr (.inr hlive), .inr (.inr hunsuperseded),
        fun hc => by rw [hcategory] at hc; cases hc⟩
    | nil =>
      obtain ⟨hid, hclaim, hcategory⟩ := entryStep_ends hentry he
      refine ⟨hid, hclaim, .inr (.inr hlive), .inr (.inr hunsuperseded), fun _ ⟨other, hother⟩ => ?_⟩
      exact contradictorsStep_ends hcontradictors ⟨other, fun w hw =>
        hother w (List.mem_append_right _ (List.mem_append_left _ hw))⟩

theorem mem_foldl_add {es : List BundleEntry} {budgets : Budgets} {e : BundleEntry}
    (h : e ∈ (applyBudgets budgets (es.foldl BeliefBundle.add {})).allEntries) : e ∈ es := by
  obtain ⟨c, hc⟩ := mem_allEntries.mp h
  rw [entries_applyBudgets] at hc
  have hadded : ∀ (es : List BundleEntry) (b : BeliefBundle),
      e ∈ (es.foldl BeliefBundle.add b).entries c → e ∈ b.entries c ∨ e ∈ es := by
    intro es
    induction es with
    | nil => exact fun b => Or.inl
    | cons x es ih =>
      intro b hb
      rcases ih (b.add x) hb with hx | hmem
      · rw [entries_add] at hx
        split at hx
        · refine (List.mem_append.mp hx).imp id fun h => ?_
          cases List.mem_singleton.mp h
          exact List.mem_cons_self
        · exact .inl hx
      · exact .inr (List.mem_cons_of_mem _ hmem)
  refine (hadded es {} ((trim_sublist _ _ _).subset hc)).resolve_left fun hempty => ?_
  cases c <;> cases hempty

/-- What holds of an entry, whatever is committed while the resolver reads. -/
structure Grounded (moments : List (World V)) (permit : Option (MemoryRecord → Bool))
    (e : BundleEntry) (r : MemoryRecord) : Prop where
  row : ∃ w ∈ moments, w.db.readOne e.id = some r
  untombstoned : ∃ w ∈ moments, w.db.isTombstoned e.id = false
  permitted : ∀ p, permit = some p → p r = true
  checked : Checked moments r e

theorem mem_ordered {p : Platform} {survivors : List (MemoryRecord × Merged)} {diversity : Bool}
    {threshold : ℚ} {item : MemoryRecord × Merged}
    (h : item ∈ ordered p survivors diversity threshold) : item ∈ survivors := by
  unfold ordered at h
  dsimp only at h
  have hranked : item ∈ rank survivors := by
    split at h
    · exact (keepIndices_sublist _ _).subset h
    · exact h
  exact (mem_sortByDesc _ _ _).mp hranked

theorem Checked.mono {moments more : List (World V)} {r : MemoryRecord} {e : BundleEntry}
    (h : Checked moments r e) (hsub : moments ⊆ more) : Checked more r e where
  id := h.id
  claim := h.claim
  active := h.active
  unsuperseded := h.unsuperseded.imp_right fun h => h.imp_right fun h ⟨other, hother⟩ =>
    h ⟨other, fun w hw => hother w (hsub hw)⟩
  uncontradicted hc := fun ⟨other, hother⟩ =>
    h.uncontradicted hc ⟨other, fun w hw => hother w (hsub hw)⟩

theorem resolveSteps_ends {p : Platform} {candidates : List Candidate} {now : Option Time}
    {permit : Option (MemoryRecord → Bool)} {budgets : Budgets} {diversity : Bool} {threshold : ℚ}
    {b : BeliefBundle} {e : BundleEntry}
    (h : Ends (resolveSteps p candidates now permit budgets diversity threshold) states (.ok b))
    (he : e ∈ b.allEntries) :
    ∃ r, Grounded states permit e r ∧
      ((∃ w ∈ states, timeValid r w.now = true) ∨ ∃ t, now = some t ∧ timeValid r t = true) := by
  unfold resolveSteps at h
  obtain ⟨time, front₁, rest₁, rfl, hnow, h₁⟩ := h.of_bind
  obtain ⟨records, front₂, rest₂, rfl, hrecords, h₂⟩ := h₁.of_bind
  obtain ⟨survivors, front₃, rest₃, rfl, hsurvivors, h₃⟩ := h₂.of_bind
  obtain ⟨entries, front₄, rest₄, rfl, hentries, hdone⟩ := h₃.of_bind
  cases hdone.of_pure
  obtain ⟨item, hitem, part, hpart, found, hroute, hmem⟩ := hentries.of_gather (mem_foldl_add he)
  obtain ⟨m, _, part', hpart', found', hhydrate, hmem'⟩ := hsurvivors.of_gather (mem_ordered hitem)
  have hchecked := routeStep_ends hroute hmem
  obtain ⟨hrecord, ⟨t, ht, htomb⟩, hvalid, hpermit⟩ := hydrateStep_ends hhydrate hmem'
  obtain ⟨w, hw, rfl⟩ := hrecords.of_read
  obtain ⟨id, _, hrow⟩ := List.mem_filterMap.mp hrecord
  have hid := hchecked.id
  refine ⟨item.1, ⟨⟨w, ?_, ?_⟩, ⟨t, ?_, ?_⟩, hpermit, hchecked.mono fun u hu => ?_⟩, ?_⟩
  · exact List.mem_append_right _ (List.mem_append_left _ hw)
  · rw [hid, Db.readOne_id hrow]
    exact hrow
  · exact List.mem_append_right _ (List.mem_append_right _ (List.mem_append_left _ (hpart' ht)))
  · rw [hid]
    exact htomb
  · exact List.mem_append_right _ (List.mem_append_right _ (List.mem_append_right _
      (List.mem_append_left _ (hpart hu))))
  · cases now with
    | some t =>
      cases hnow.of_pure
      exact .inr ⟨_, rfl, hvalid⟩
    | none =>
      obtain ⟨u, hu, rfl⟩ := hnow.of_read
      exact .inl ⟨u, List.mem_append_left _ hu, hvalid⟩

end Among

section Reads
variable {V : Type}

theorem uses_resolveSteps {P : Commit V → Prop} (p : Platform) (candidates : List Candidate)
    (now : Option Time) (permit : Option (MemoryRecord → Bool)) (budgets : Budgets)
    (diversity : Bool) (threshold : ℚ) :
    (resolveSteps p candidates now permit budgets diversity threshold).Uses P := by
  have hlive : ∀ id, (liveStep id : Prog V Bool).Uses P := by
    refine fun id => (uses_query P _).bind fun row => ?_
    cases row with
    | none => trivial
    | some r =>
      dsimp only
      split
      · exact (uses_query P _).bind fun _ => Proc.uses_pure P _
      · trivial
  have hentry : ∀ item c host status, (entryStep item c host status : Prog V _).Uses P :=
    fun item c host status => (uses_query P _).bind fun _ => Proc.uses_pure P _
  have hroute : ∀ item, (routeStep item : Prog V _).Uses P := by
    intro item
    unfold routeStep
    dsimp only
    split_ifs
    · exact hentry _ _ _ _
    · exact hentry _ _ _ _
    · trivial
    refine ((uses_query P _).bind fun _ => uses_anyOf hlive _).bind fun superseded => ?_
    split_ifs
    · trivial
    refine ((uses_query P _).bind fun _ => uses_gather (fun other =>
      (hlive other).bind fun _ => Proc.uses_pure P _) _).bind fun contradictors => ?_
    split_ifs <;> exact hentry _ _ _ _
  have hhydrate : ∀ records now m, (hydrateStep records now permit m : Prog V _).Uses P := by
    intro records now m
    unfold hydrateStep
    split
    · trivial
    · refine (uses_query P _).bind fun gone => ?_
      split_ifs <;> trivial
  have hnow : (nowStep now : Prog V Time).Uses P := by
    cases now with
    | some t => trivial
    | none => exact Proc.uses_read P _
  exact hnow.bind fun _ => (uses_query P _).bind fun _ => (uses_gather (hhydrate _ _) _).bind fun _ =>
    (uses_gather hroute _).bind fun _ => Proc.uses_pure P _

theorem uses_recallSteps {P : Commit Memory → Prop} (e : MemoryEngine) (text : String) (topK : ℤ)
    (generation : Option ℤ) (permit : Option (MemoryRecord → Bool)) (diversity : Bool) :
    (recallSteps e text topK generation permit diversity).Uses P :=
  (Proc.uses_read P _).bind fun _ => (Proc.uses_read P _).bind fun _ =>
    (uses_gather (fun _ => Proc.uses_read P _) _).bind fun _ => (uses_query P _).bind fun _ =>
      uses_resolveSteps _ _ _ _ _ _ _

theorem recallSteps_ends {e : MemoryEngine} {text : String} {topK : ℤ} {generation : Option ℤ}
    {permit : Option (MemoryRecord → Bool)} {diversity : Bool} {states : List (World Memory)}
    {b : BeliefBundle} {x : BundleEntry}
    (h : Ends (recallSteps e text topK generation permit diversity) states (.ok b))
    (hx : x ∈ b.allEntries) :
    ∃ r, Grounded states (some (permit.getD e.policy.canRecall)) x r ∧
      ∃ w ∈ states, timeValid r w.now = true := by
  obtain ⟨active, front₁, rest₁, rfl, _, h₁⟩ := h.of_bind
  obtain ⟨vector, front₂, rest₂, rfl, _, h₂⟩ := h₁.of_bind
  obtain ⟨found, front₃, rest₃, rfl, _, h₃⟩ := h₂.of_bind
  obtain ⟨lexical, front₄, rest₄, rfl, _, h₄⟩ := h₃.of_bind
  have hsub : rest₄ ⊆ front₁ ++ (front₂ ++ (front₃ ++ (front₄ ++ rest₄))) := fun w hw =>
    List.mem_append_right _ (List.mem_append_right _ (List.mem_append_right _
      (List.mem_append_right _ hw)))
  obtain ⟨r, hr, hvalid⟩ := resolveSteps_ends h₄ hx
  refine ⟨r, ⟨?_, ?_, hr.permitted, hr.checked.mono hsub⟩, ?_⟩
  · exact hr.row.imp fun w hw => ⟨hsub hw.1, hw.2⟩
  · exact hr.untombstoned.imp fun w hw => ⟨hsub hw.1, hw.2⟩
  · rcases hvalid with ⟨w, hw, hvalid⟩ | ⟨t, ht, _⟩
    · exact ⟨w, hsub hw, hvalid⟩
    · cases ht

end Reads

/-- Whatever other threads commit while a recall runs, it shows no id that was tombstoned
when it began; each claim is the content that one row had at a moment of the call, of a
record that is permitted, and in force at a time that the clock showed; and what was
superseded or contradicted by a live record at every moment is not shown as truth. -/
theorem recall_in_flight {ι : Type} [DecidableEq ι] (e : MemoryEngine) (text : String) (topK : ℤ)
    (generation : Option ℤ) (permit : Option (MemoryRecord → Bool)) (diversity : Bool)
    (c : Config ι (World Memory) (Commit Memory) PyError BeliefBundle) (i : ι)
    (hrecall : c.programs i = recallSteps e text topK generation permit diversity)
    (schedule : List ι) (b : BeliefBundle)
    (hb : result ((play c schedule).programs i) = some (.ok b)) :
    ∀ x ∈ b.allEntries, c.moment.state.db.isTombstoned x.id = false ∧
      ∃ r, (∃ w ∈ visited c schedule, w.db.readOne x.id = some r) ∧ x.claim = r.content ∧
        permit.getD e.policy.canRecall r = true ∧
        (∃ w ∈ visited c schedule, timeValid r w.now = true) ∧
        (x.category = .hypothesis ∨ x.category = .policyFlag ∨
          r.status.isActive = true ∧ ¬ SupersededThroughout (visited c schedule) x.id) ∧
        (isCurrent x.category = true → ¬ ContradictedThroughout (visited c schedule) x.id) := by
  intro x hx
  obtain ⟨states, hsub, hsees⟩ := sees_play c (hrecall ▸ uses_recallSteps e text topK generation
    permit diversity) schedule
  obtain ⟨r, hr, w, hw, hvalid⟩ := recallSteps_ends (hrecall ▸ hsees.ends hb) hx
  have hchecked := hr.checked.mono hsub.subset
  refine ⟨?_, r, ?_, hchecked.claim, hr.permitted _ rfl, ⟨w, hsub.subset hw, hvalid⟩, ?_, ?_⟩
  · -- A tombstone that stood at the start would stand at the moment of the check.
    by_contra htomb
    obtain ⟨t, ht, hclear⟩ := hr.untombstoned
    have hstands := visited_keeps (I := fun w : World Memory => w.db.isTombstoned x.id = true)
      (fun k w h => CommitEffects.apply_isTombstoned k w x.id h) c (by simpa using htomb) schedule t
      (hsub.subset ht)
    rw [hclear] at hstands
    cases hstands
  · exact hr.row.imp fun w hw => ⟨hsub.subset hw.1, hw.2⟩
  · rw [hchecked.id]
    rcases hchecked.active with h | h | h
    · exact .inl h
    · exact .inr (.inl h)
    · rcases hchecked.unsuperseded with h' | h' | h'
      · exact .inl h'
      · exact .inr (.inl h')
      · exact .inr (.inr ⟨h, h'⟩)
  · rw [hchecked.id]
    exact hchecked.uncontradicted

/-- One thread recalls a memory while another deletes it. -/
def recallAndDeletion : Config Bool (World Memory) (Commit Memory) PyError BeliefBundle where
  programs
    | true => recallSteps plainStrata.engine "tea"
    | false => do
      let _ ← plainStrata.engine.deleteMemory 1
      return {}
  moment := ⟨runCalls plainStrata plainWorld [.writeMemory "tea" {}], none, []⟩

/-- The deletion runs between the tombstone check of the recall and its last reads. -/
def deletionBetweenReads : List Bool :=
  List.replicate 7 true ++ List.replicate 40 false ++ List.replicate 9 true

/-- The entry is shown, since its tombstone is younger than the recall. -/
theorem recall_in_flight_deletion :
    let moments := visited recallAndDeletion deletionBetweenReads
    let tea : BundleEntry := ⟨1, .currentBelief, "tea", "high", [1], "active", none, none, none⟩
    (play recallAndDeletion deletionBetweenReads).moment.state.db.isTombstoned 1 = true ∧
      recallAndDeletion.moment.state.db.isTombstoned tea.id = false ∧
      ∃ r, (∃ w ∈ moments, w.db.readOne tea.id = some r) ∧ tea.claim = r.content := by
  intro moments tea
  have hb : result ((play recallAndDeletion deletionBetweenReads).programs true) =
      some (.ok { currentBeliefs := [tea] }) := by decide +kernel
  obtain ⟨hstart, r, hrow, hclaim, _⟩ := recall_in_flight plainStrata.engine "tea" 10 none none
    false recallAndDeletion true rfl deletionBetweenReads _ hb tea List.mem_cons_self
  exact ⟨by decide +kernel, hstart, r, hrow, hclaim⟩

end StrataMemory.RecallInFlight
