import StrataMemory.QueryTexts
import StrataMemory.TopItems

set_option autoImplicit false

namespace StrataMemory.ZvecHistories
open KeyedTables Records Tables VectorStore InMemoryVectorStore StoreHistories TextReaders TopItems
open ZvecAdapter QueryTexts
open ZvecHotAdapter (docOf idOf)

variable {κ φ : Type}

def labels : List String := ["status", "tier", "sensitivity"]

def satisfies (clauses : List (String × Literal)) (d : Doc) : Bool :=
  clauses.all fun clause => d.field clause.1 = some clause.2

structure Nearest (distance : List ℚ → ℚ) (docs : String → Option Doc) (k : ℕ)
    (found : List Found) : Prop where
  nodup : (found.map Found.id).Nodup
  sound : ∀ f ∈ found, ∃ d, docs f.id = some d ∧ f.score = distance d.vector ∧
    f.contentHash = some d.contentHash ∧ f.generation = some d.generation
  short : found.length ≤ k
  sorted : found.Pairwise fun f g => f.score ≤ g.score
  full : ∀ key d, docs key = some d → (∀ f ∈ found, f.id ≠ key) →
    found.length = k ∧ ∀ f ∈ found, f.score ≤ distance d.vector

def IsInt32 (g : ℤ) : Prop := -2 ^ 31 ≤ g ∧ g < 2 ^ 31

/-- A collection is a map from keys to documents: what each call does to the map, that a query
finds the nearest of the documents that its filter is true of, and that a directory opened
again holds the map that was flushed. -/
structure IsCollection (n : Native κ φ) (dim : ℕ) where
  docs : κ → String → Option Doc
  distance : List ℚ → List ℚ → ℚ
  created : ∀ key, docs (n.createAndOpen dim) key = none
  reopened : ∀ c key, docs (n.openDirectory (n.flush c)) key = docs c key
  upsert : ∀ c new, (∀ d ∈ new, d.vector.length = dim ∧ IsInt32 d.generation) → ∀ key,
    docs (n.upsert c new) key = (new.reverse.find? fun d => d.id = key).or (docs c key)
  delete : ∀ c keys key, docs (n.delete c keys) key = if key ∈ keys then none else docs c key
  optimize : ∀ c key, docs (n.optimize c) key = docs c key
  fetch : ∀ c keys key, key ∈ n.fetch c keys ↔ key ∈ keys ∧ (docs c key).isSome = true
  query : ∀ c q k generation filters, q.length = dim → (∀ f ∈ filters, f.1 ∈ labels) →
    Nearest (distance q) (fun key => (docs c key).filter (satisfies (asked generation filters))) k
      (n.query c q k (filterExpr generation filters))

inductive HotStep where
  | upsert (records : List VectorRecord)
  | remove (ids : List RecordId)
  | compact
  | persist
  | reopen

def afterHot (n : Native κ φ) (a : ZvecHotAdapter κ φ) : HotStep → ZvecHotAdapter κ φ
  | .upsert records => (a.upsert n records).2
  | .remove ids => (a.remove n ids).2
  | .compact => a.compact n
  | .persist => a.persist n
  | .reopen => .create n a.dim a.directory

def runHot (n : Native κ φ) (dim : ℕ) (h : List HotStep) : ZvecHotAdapter κ φ :=
  h.foldl (afterHot n) (.create n dim none)

/-- What the step is to the in-memory store; a batch that raises is nothing. -/
def accepted (dim : ℕ) : HotStep → Option StoreCall
  | .upsert records =>
    if records.any fun r => r.vector.length ≠ dim then none else some (.upsert records)
  | .remove ids => some (.remove ids)
  | .compact => some .purgeDeleted
  | .persist | .reopen => none

theorem accepted_upsert (dim : ℕ) (records : List VectorRecord) : accepted dim (.upsert records) =
    if records.any fun r => r.vector.length ≠ dim then none else some (.upsert records) := rfl

def callsOf (dim : ℕ) (h : List HotStep) : List StoreCall := h.filterMap (accepted dim)

def lastOf (id : RecordId) (h : List StoreCall) : Option VectorRecord :=
  (h.flatMap StoreCall.records).reverse.find? fun rec => rec.id = id

theorem lastOf_concat (id : RecordId) (h : List StoreCall) (c : StoreCall) :
    lastOf id (h ++ [c]) = (c.records.reverse.find? fun rec => rec.id = id).or (lastOf id h) := by
  simp [lastOf, List.find?_append]

theorem lastOf_mem {id : RecordId} {h : List StoreCall} {rec : VectorRecord}
    (hlast : lastOf id h = some rec) : (∃ c ∈ h, rec ∈ c.records) ∧ rec.id = id := by
  unfold lastOf at hlast
  have hmem := List.mem_reverse.mp (List.mem_of_find?_eq_some hlast)
  have hid := List.find?_some hlast
  exact ⟨List.mem_flatMap.mp hmem, of_decide_eq_true hid⟩

section Stores
variable {s : InMemoryVectorStore} {id : RecordId}

theorem find?_narrow {α : Type} {p q : α → Bool} {xs : List α} {a : α} (hfind : xs.find? p = some a)
    (hq : q a = true) (himp : ∀ b, q b = true → p b = true) : xs.find? q = some a := by
  rw [List.find?_eq_some_iff_append] at hfind ⊢
  obtain ⟨_, before, after, rfl, hbefore⟩ := hfind
  refine ⟨hq, before, after, rfl, fun b hb => ?_⟩
  have hnot := hbefore b hb
  rw [Bool.not_eq_true'] at hnot ⊢
  exact Bool.eq_false_iff.mpr fun hqb => Bool.eq_false_iff.mp hnot (himp b hqb)

theorem visible_upserted {records : List VectorRecord} {rec : VectorRecord}
    (hfind : (records.reverse.find? fun r => r.id = rec.id) = some rec) :
    (s.upsert records).2.visible (rec.id, rec.embeddingGeneration) = some rec := by
  have hmem := List.mem_reverse.mp (List.mem_of_find?_eq_some hfind)
  refine visible_eq_some.mpr ⟨fun hdeleted => ?_, ?_⟩
  · exact ((mem_deleted_upsert s records rec.id).mp hdeleted).2 ⟨rec, hmem, rfl⟩
  · rw [get?_upsert]
    refine Option.or_eq_some_iff.mpr (.inl (find?_narrow hfind (decide_eq_true rfl) fun r hr => ?_))
    exact decide_eq_true (congrArg Prod.fst (of_decide_eq_true hr))

theorem visible_not_upserted {records : List VectorRecord} (g : ℤ)
    (hfind : (records.reverse.find? fun r => r.id = id) = none) :
    (s.upsert records).2.visible (id, g) = s.visible (id, g) := by
  have hother : ∀ r ∈ records, r.id ≠ id := fun r hr hid => by
    have hno := List.find?_eq_none.mp hfind r (List.mem_reverse.mpr hr)
    exact hno (decide_eq_true hid)
  have hdeleted : id ∈ (s.upsert records).2.deleted ↔ id ∈ s.deleted := by
    rw [mem_deleted_upsert]
    refine and_iff_left ?_
    rintro ⟨r, hr, hid⟩
    exact hother r hr hid
  have hnone : (records.reverse.find? fun r => StoreRefinement.key r = (id, g)) = none :=
    List.find?_eq_none.mpr fun r hr hkey =>
      hother r (List.mem_reverse.mp hr) (congrArg Prod.fst (of_decide_eq_true hkey))
  unfold visible
  rw [get?_upsert, hnone, Option.none_or]
  simp only [hdeleted]

theorem visible_remove (ids : List RecordId) (g : ℤ) (hid : id ∉ ids) :
    (s.remove ids).2.visible (id, g) = s.visible (id, g) := by
  have hdeleted : id ∈ (s.remove ids).2.deleted ↔ id ∈ s.deleted :=
    List.mem_append.trans (or_iff_right hid)
  unfold visible
  simp only [hdeleted]
  rfl

theorem visible_purgeDeleted (s : InMemoryVectorStore) : s.purgeDeleted.2.visible = s.visible := by
  funext k
  have hpurged : k.1 ∈ s.purgeDeleted.2.deleted → k.1 ∈ s.deleted :=
    fun h => (List.mem_filter.mp h).1
  unfold visible
  rw [get?_purgeDeleted]
  by_cases hdeleted : k.1 ∈ s.deleted
  · simp only [if_pos hdeleted, ite_self]
  · simp only [if_neg hdeleted, if_neg fun h => hdeleted (hpurged h)]

theorem contains_purgeDeleted (s : InMemoryVectorStore) (id : RecordId) :
    s.purgeDeleted.2.contains id = s.contains id := by
  rw [Bool.eq_iff_iff, contains_iff_visible, contains_iff_visible, visible_purgeDeleted]

end Stores

section Steps
variable {n : Native κ φ} {dim : ℕ} (m : IsCollection n dim) {h : List StoreCall}
  {s : InMemoryVectorStore} {a : ZvecHotAdapter κ φ}

/-- The collection has the ids of the in-memory store, each with the record that it was last
upserted with, and what it has is flushed. -/
structure Mirrors (h : List StoreCall) (s : InMemoryVectorStore) (a : ZvecHotAdapter κ φ) :
    Prop where
  size : a.dim = dim
  held : ∀ id : RecordId, (m.docs a.col (toString id)).isSome = s.contains id
  newest : ∀ key d, m.docs a.col key = some d → ∃ rec, key = toString rec.id ∧
    d = docOf rec ∧ lastOf rec.id h = some rec ∧
    s.visible (rec.id, rec.embeddingGeneration) = some rec
  saved : ∀ key, m.docs (ZvecHotAdapter.create n dim a.directory).col key = m.docs a.col key

theorem mirrors_create : Mirrors m [] .empty (ZvecHotAdapter.create n dim none) where
  size := rfl
  held _ := by
    rw [show (ZvecHotAdapter.create n dim none).col = n.createAndOpen dim from rfl, m.created]
    rfl
  newest key d hd := by
    rw [show (ZvecHotAdapter.create n dim none).col = n.createAndOpen dim from rfl, m.created] at hd
    cases hd
  saved _ := rfl

variable {m}

theorem mirrors_flush {col : κ} (hsize : a.dim = dim)
    (hheld : ∀ id : RecordId, (m.docs col (toString id)).isSome = s.contains id)
    (hnewest : ∀ key d, m.docs col key = some d → ∃ rec, key = toString rec.id ∧
      d = docOf rec ∧ lastOf rec.id h = some rec ∧
      s.visible (rec.id, rec.embeddingGeneration) = some rec) :
    Mirrors m h s (ZvecHotAdapter.flush n { a with col := col }) :=
  ⟨hsize, hheld, hnewest, fun key => m.reopened col key⟩

theorem Mirrors.flushed (hm : Mirrors m h s a) {col : κ}
    (hcol : ∀ key, m.docs col key = m.docs a.col key) :
    Mirrors m h s (ZvecHotAdapter.flush n { a with col := col }) :=
  mirrors_flush hm.size (fun id => (congrArg Option.isSome (hcol _)).trans (hm.held id))
    fun key d hd => hm.newest key d ((hcol key).symm.trans hd)

theorem Mirrors.reopen (hm : Mirrors m h s a) : Mirrors m h s (.create n a.dim a.directory) := by
  rw [hm.size]
  exact ⟨rfl, fun id => (congrArg Option.isSome (hm.saved _)).trans (hm.held id),
    fun key d hd => hm.newest key d ((hm.saved key).symm.trans hd), fun _ => rfl⟩

theorem Mirrors.compact (hm : Mirrors m h s a) :
    Mirrors m (h ++ [.purgeDeleted]) s.purgeDeleted.2 (a.compact n) := by
  obtain ⟨hsize, hheld, hnewest, hsaved⟩ := hm.flushed (m.optimize a.col)
  refine ⟨hsize, fun id => (hheld id).trans (contains_purgeDeleted s id).symm,
    fun key d hd => ?_, hsaved⟩
  obtain ⟨rec, hkey, hdoc, hlast, hvisible⟩ := hnewest key d hd
  refine ⟨rec, hkey, hdoc, ?_, ?_⟩
  · rw [lastOf_concat]
    exact hlast
  · rw [visible_purgeDeleted]
    exact hvisible

theorem Mirrors.remove (hm : Mirrors m h s a) (ids : List RecordId) :
    Mirrors m (h ++ [.remove ids]) (s.remove ids).2 (a.remove n ids).2 := by
  let keys := ids.map fun id => toString id
  have hlast : ∀ id, lastOf id (h ++ [.remove ids]) = lastOf id h := fun id => lastOf_concat id h _
  have hkeys : ∀ id : RecordId, toString id ∈ keys ↔ id ∈ ids := fun id => by
    refine ⟨fun hmem => ?_, fun hmem => List.mem_map_of_mem hmem⟩
    obtain ⟨other, hother, heq⟩ := List.mem_map.mp hmem
    exact toString_injective heq ▸ hother
  have hrun : (a.remove n ids).2 = if ids.isEmpty then a
      else ZvecHotAdapter.flush n { a with col := n.delete a.col keys } := rfl
  rw [hrun]
  split
  · next hempty =>
    rw [List.isEmpty_iff.mp hempty]
    refine ⟨hm.size, fun id => ?_, fun key d hd => ?_, hm.saved⟩
    · rw [contains_remove, hm.held]
      exact (Bool.true_and _).symm
    · obtain ⟨rec, hkey, hdoc, hrec, hvisible⟩ := hm.newest key d hd
      exact ⟨rec, hkey, hdoc, (lastOf_concat _ _ _).trans hrec, hvisible⟩
  · refine mirrors_flush hm.size (fun id => ?_) fun key d hd => ?_
    · rw [m.delete, contains_remove]
      by_cases hid : id ∈ ids
      · rw [if_pos ((hkeys id).mpr hid), decide_eq_false (not_not.mpr hid)]
        rfl
      · rw [if_neg fun hk => hid ((hkeys id).mp hk), decide_eq_true hid, hm.held]
        exact (Bool.true_and _).symm
    · rw [m.delete] at hd
      split_ifs at hd with hkey
      obtain ⟨rec, rfl, hdoc, hrec, hvisible⟩ := hm.newest key d hd
      have hid : rec.id ∉ ids := fun hmem => hkey ((hkeys rec.id).mpr hmem)
      exact ⟨rec, rfl, hdoc, (hlast rec.id).trans hrec, (visible_remove ids _ hid).trans hvisible⟩

theorem Mirrors.upsert (hm : Mirrors m h s a) {records : List VectorRecord}
    (hvectors : ∀ r ∈ records, r.vector.length = dim)
    (hgenerations : ∀ r ∈ records, IsInt32 r.embeddingGeneration) :
    Mirrors m (h ++ [.upsert records]) (s.upsert records).2 (a.upsert n records).2 := by
  have hfind : (records.find? fun r => r.vector.length ≠ a.dim) = none :=
    List.find?_eq_none.mpr fun r hr => by simpa using (hvectors r hr).trans hm.size.symm
  have hrun : (a.upsert n records).2 = if records.isEmpty then a
      else ZvecHotAdapter.flush n { a with col := n.upsert a.col (records.map docOf) } := by
    unfold ZvecHotAdapter.upsert
    rw [hfind]
  have hnew : ∀ d ∈ records.map docOf, d.vector.length = dim ∧ IsInt32 d.generation := by
    intro d hd
    obtain ⟨r, hr, rfl⟩ := List.mem_map.mp hd
    exact ⟨hvectors r hr, hgenerations r hr⟩
  -- The documents are looked up as the records are.
  have hfound : ∀ id : RecordId, ((records.map docOf).reverse.find? fun d => d.id = toString id) =
      (records.reverse.find? fun r => r.id = id).map docOf := by
    intro id
    rw [← List.map_reverse, List.find?_map]
    refine congrArg (Option.map docOf) (congrArg (fun p => List.find? p _) ?_)
    funext r
    exact decide_eq_decide.mpr ⟨fun heq => toString_injective heq,
      fun heq => congrArg (fun id : RecordId => toString id) heq⟩
  rw [hrun]
  split
  · next hempty =>
    rw [List.isEmpty_iff.mp hempty]
    refine ⟨hm.size, fun id => ?_, fun key d hd => ?_, hm.saved⟩
    · rw [contains_upsert, hm.held]
      exact (Bool.false_or _).symm
    · obtain ⟨rec, hkey, hdoc, hrec, hvisible⟩ := hm.newest key d hd
      exact ⟨rec, hkey, hdoc, (lastOf_concat _ _ _).trans hrec, hvisible⟩
  · refine mirrors_flush hm.size (fun id => ?_) fun key d hd => ?_
    · rw [m.upsert _ _ hnew, hfound, Option.isSome_or, Option.isSome_map, hm.held, contains_upsert]
      refine congrArg (· || s.contains id) ?_
      rw [Bool.eq_iff_iff, List.find?_isSome, List.any_eq_true]
      simp only [List.mem_reverse]
    · rw [m.upsert _ _ hnew] at hd
      rcases Option.or_eq_some_iff.mp hd with hhit | ⟨hmiss, hold⟩
      · have hmem := List.mem_reverse.mp (List.mem_of_find?_eq_some hhit)
        obtain ⟨r, _, rfl⟩ := List.mem_map.mp hmem
        have hkey := List.find?_some hhit
        obtain rfl : toString r.id = key := of_decide_eq_true hkey
        rw [hfound] at hhit
        obtain ⟨rec, hrec, hdoc⟩ := Option.map_eq_some_iff.mp hhit
        have hown := List.find?_some hrec
        have hid : rec.id = r.id := of_decide_eq_true hown
        rw [← hid] at hrec
        refine ⟨rec, congrArg _ hid.symm, hdoc.symm, ?_, visible_upserted hrec⟩
        rw [lastOf_concat]
        exact Option.or_eq_some_iff.mpr (.inl hrec)
      · obtain ⟨rec, rfl, hdoc, hrec, hvisible⟩ := hm.newest key d hold
        rw [hfound] at hmiss
        have hnone := Option.map_eq_none_iff.mp hmiss
        refine ⟨rec, rfl, hdoc, ?_, ?_⟩
        · rw [lastOf_concat]
          exact Option.or_eq_some_iff.mpr (.inr ⟨hnone, hrec⟩)
        · rw [visible_not_upserted _ hnone]
          exact hvisible

theorem upsert_refused {records : List VectorRecord} (hdim : a.dim = dim)
    (hraise : (records.any fun r => r.vector.length ≠ dim) = true) : (a.upsert n records).2 = a := by
  obtain ⟨r, hr, hlength⟩ := List.any_eq_true.mp hraise
  unfold ZvecHotAdapter.upsert
  rw [hdim]
  cases hfind : records.find? fun r => r.vector.length ≠ dim with
  | none => exact absurd hlength (List.find?_eq_none.mp hfind r hr)
  | some _ => rfl

def Int32Calls (h : List StoreCall) : Prop :=
  ∀ c ∈ h, ∀ r ∈ c.records, IsInt32 r.embeddingGeneration

theorem runStore_concat (h : List StoreCall) (c : StoreCall) :
    runStore (h ++ [c]) = afterCall (runStore h) c := by
  simp [runStore]

theorem mirrors_run (m : IsCollection n dim) (h : List HotStep) (hint : Int32Calls (callsOf dim h)) :
    Mirrors m (callsOf dim h) (runStore (callsOf dim h)) (runHot n dim h) := by
  induction h using List.reverseRecOn with
  | nil => exact mirrors_create m
  | append_singleton h c ih =>
    have hcalls : callsOf dim (h ++ [c]) = callsOf dim h ++ (accepted dim c).toList := by
      unfold callsOf
      rw [List.filterMap_append]
      cases hc : accepted dim c <;> simp [hc]
    have hrun : runHot n dim (h ++ [c]) = afterHot n (runHot n dim h) c := by simp [runHot]
    rw [hcalls] at hint ⊢
    have hbefore := ih fun c hc => hint c (List.mem_append_left _ hc)
    rw [hrun]
    cases c with
    | persist =>
      rw [show (accepted dim .persist).toList = [] from rfl, List.append_nil]
      exact hbefore.flushed fun _ => rfl
    | reopen =>
      rw [show (accepted dim .reopen).toList = [] from rfl, List.append_nil]
      exact hbefore.reopen
    | compact =>
      rw [show (accepted dim .compact).toList = [.purgeDeleted] from rfl, runStore_concat]
      exact hbefore.compact
    | remove ids =>
      rw [show (accepted dim (.remove ids)).toList = [.remove ids] from rfl, runStore_concat]
      exact hbefore.remove ids
    | upsert records =>
      by_cases hraise : (records.any fun r => r.vector.length ≠ dim) = true
      · have hnone : accepted dim (.upsert records) = none := if_pos hraise
        rw [hnone, Option.toList_none, List.append_nil, afterHot, upsert_refused hbefore.size hraise]
        exact hbefore
      · have hsome : accepted dim (.upsert records) = some (.upsert records) := if_neg hraise
        rw [hsome, Option.toList_some] at hint ⊢
        rw [runStore_concat]
        refine hbefore.upsert (fun r hr => ?_) ?_
        · by_contra hne
          exact hraise (List.any_eq_true.mpr ⟨r, hr, decide_eq_true hne⟩)
        · exact hint (.upsert records) (List.mem_append_right _ (List.mem_singleton_self _))

end Steps

section Searches
variable {n : Native κ φ} {dim : ℕ} (m : IsCollection n dim) {h : List StoreCall}
  {s : InMemoryVectorStore} {a : ZvecHotAdapter κ φ} {p : Platform}

def isNewest (h : List StoreCall) (hit : VectorHit) : Bool :=
  (lastOf hit.id h).any fun rec => rec.embeddingGeneration = hit.embeddingGeneration

def literals (filters : List (String × String)) : List (String × Literal) :=
  filters.map fun f => (f.1, .str f.2)

def Labelled (rec : VectorRecord) : Prop :=
  ∀ name ∈ labels, (rec.metadata.lookup name).isSome = true

theorem satisfies_docOf {rec : VectorRecord} (hrec : Labelled rec) (generation : Option ℤ)
    {filters : List (String × String)} (hfilters : ∀ f ∈ filters, f.1 ∈ labels) :
    satisfies (asked generation (literals filters)) (docOf rec) = true ↔
      (∀ g ∈ generation, rec.embeddingGeneration = g) ∧ matchesFilters rec filters = true := by
  have hlabel : ∀ f ∈ filters, decide ((docOf rec).field f.1 = some (.str f.2)) =
      decide (rec.metadata.lookup f.1 = some f.2) := by
    intro f hf
    obtain ⟨value, hvalue⟩ := Option.isSome_iff_exists.mp (hrec f.1 (hfilters f hf))
    have hfield : (docOf rec).field f.1 = some (.str ((rec.metadata.lookup f.1).getD "")) := by
      have hname := hfilters f hf
      simp only [labels, List.mem_cons, List.not_mem_nil, or_false] at hname
      rcases hname with hname | hname | hname <;> rw [hname] <;> rfl
    rw [hfield, hvalue, Option.getD_some]
    exact decide_eq_decide.mpr
      ⟨fun heq => congrArg some (Literal.str.inj (Option.some.inj heq)),
        fun heq => by rw [Option.some.inj heq]⟩
  have hmatches : satisfies (literals filters) (docOf rec) = matchesFilters rec filters := by
    unfold satisfies literals matchesFilters
    rw [List.all_map, Bool.eq_iff_iff, List.all_eq_true, List.all_eq_true]
    exact forall₂_congr fun f hf => Bool.eq_iff_iff.mp (hlabel f hf)
  unfold satisfies asked
  rw [List.all_append, Bool.and_eq_true]
  refine and_congr ?_ (Bool.eq_iff_iff.mp hmatches)
  cases generation with
  | none => exact iff_of_true rfl fun _ hg => by cases hg
  | some g =>
    have hfield : (docOf rec).field "generation" = some (.int rec.embeddingGeneration) := rfl
    simp [hfield]

/-- The answers that the two stores are compared by: what the in-memory store could answer, of
the newest entry of each id. -/
def newestHits (p : Platform) (h : List StoreCall) (s : InMemoryVectorStore) (vector : List ℚ)
    (generation : Option ℤ) (filters : List (String × String)) : List VectorHit :=
  (hits p s vector generation filters).filter (isNewest h)

def Fitting (dim : ℕ) (h : List StoreCall) : Prop :=
  ∀ c ∈ h, ∀ r ∈ c.records, r.vector.length = dim ∧ Labelled r

variable {m}

theorem mem_newestHits (hm : Mirrors m h s a) (hfit : Fitting dim h)
    (hscore : ∀ q v, m.distance q v = 1 - p.cosine q v) {vector : List ℚ}
    (hvector : vector.length = dim) {generation : Option ℤ} {filters : List (String × String)}
    (hfilters : ∀ f ∈ filters, f.1 ∈ labels) {hit : VectorHit} : hit ∈ newestHits p h s vector generation filters ↔
      ∃ d, m.docs a.col (toString hit.id) = some d ∧
        satisfies (asked generation (literals filters)) d = true ∧
        hit = ⟨hit.id, 1 - m.distance vector d.vector, d.contentHash, d.generation⟩ := by
  have hscore' : ∀ v, 1 - m.distance vector v = p.cosine vector v := fun v => by
    rw [hscore, sub_sub_cancel]
  unfold newestHits
  rw [List.mem_filter, mem_hits]
  constructor
  · rintro ⟨⟨rec, hvisible, hgeneration, hmatches, _, hcosine, hhash⟩, hnewest⟩
    obtain ⟨last, hlast, hsame⟩ := (Option.any_eq_true _ _).mp hnewest
    have hheld : (m.docs a.col (toString hit.id)).isSome = true :=
      (hm.held hit.id).trans (contains_iff_visible.mpr ⟨_, rec, hvisible⟩)
    obtain ⟨d, hd⟩ := Option.isSome_iff_exists.mp hheld
    obtain ⟨found, hkey, rfl, hfound, hshown⟩ := hm.newest _ d hd
    -- The document, the visible entry and the last upsert are of one record.
    rw [← toString_injective hkey] at hfound hshown
    cases hlast.symm.trans hfound
    rw [of_decide_eq_true hsame, hvisible] at hshown
    cases hshown
    refine ⟨_, hd, (satisfies_docOf ?_ generation hfilters).mpr ⟨fun g hg => ?_, hmatches⟩, ?_⟩
    · obtain ⟨⟨c, hc, hmem⟩, _⟩ := lastOf_mem hlast
      exact (hfit c hc _ hmem).2
    · rw [of_decide_eq_true hsame]
      exact hgeneration g hg
    · obtain ⟨id, score, contentHash, generation⟩ := hit
      exact congr (congrArg₂ _ (hcosine.trans (hscore' _).symm) hhash) (of_decide_eq_true hsame).symm
  · rintro ⟨d, hd, hsat, hhit⟩
    obtain ⟨rec, hkey, rfl, hlast, hvisible⟩ := hm.newest _ d hd
    obtain ⟨⟨c, hc, hmem⟩, _⟩ := lastOf_mem hlast
    obtain ⟨hlength, hlabelled⟩ := hfit c hc rec hmem
    obtain ⟨hgeneration, hmatches⟩ := (satisfies_docOf hlabelled generation hfilters).mp hsat
    rw [← toString_injective hkey] at hlast hvisible
    rw [hhit]
    refine ⟨⟨rec, hvisible, hgeneration, hmatches, hlength.trans hvector.symm, hscore' _, rfl⟩, ?_⟩
    exact (Option.any_eq_true _ _).mpr ⟨rec, hlast, decide_eq_true rfl⟩

theorem answer_of_found (hm : Mirrors m h s a) (generation : Option ℤ) {vector : List ℚ}
    {clauses : List (String × Literal)} {k : ℕ} {found : List Found}
    (hq : Nearest (m.distance vector) (fun key => (m.docs a.col key).filter (satisfies clauses)) k
      found) :
    ∀ f ∈ found, ∃ d, m.docs a.col f.id = some d ∧ satisfies clauses d = true ∧
      f.id = toString (idOf f.id) ∧ f.score = m.distance vector d.vector ∧
      f.contentHash.getD "" = d.contentHash ∧ f.generation.getD (generation.getD 0) = d.generation := by
  intro f hf
  obtain ⟨d, hd, hscore, hhash, hgeneration⟩ := hq.sound f hf
  obtain ⟨hdoc, hsat⟩ := Option.filter_eq_some_iff.mp hd
  obtain ⟨rec, hkey, _⟩ := hm.newest f.id d hdoc
  refine ⟨d, hdoc, hsat, ?_, hscore, ?_, ?_⟩
  · rw [hkey, idOf_toString]
  · rw [hhash, Option.getD_some]
  · rw [hgeneration, Option.getD_some]

theorem top_search (hm : Mirrors m h s a) (hfit : Fitting dim h)
    (hscore : ∀ q v, m.distance q v = 1 - p.cosine q v) {vector : List ℚ}
    (hvector : vector.length = dim) (topK : ℕ) (generation : Option ℤ) {filters : List (String × String)}
    (hfilters : ∀ f ∈ filters, f.1 ∈ labels) :
    Top VectorHit.score (newestHits p h s vector generation filters) topK
      (a.search n vector topK generation (literals filters)) := by
  have hnames : ∀ f ∈ literals filters, f.1 ∈ labels := fun f hf => by
    obtain ⟨g, hg, rfl⟩ := List.mem_map.mp hf
    exact hfilters g hg
  have hq := m.query a.col vector topK generation (literals filters) hvector hnames
  let found := n.query a.col vector topK (filterExpr generation (literals filters))
  let hitOf : Found → VectorHit := fun doc =>
    ⟨idOf doc.id, 1 - doc.score, doc.contentHash.getD "",
      doc.generation.getD (generation.getD 0)⟩
  have hanswer := answer_of_found hm generation hq
  have hrun : a.search n vector topK generation (literals filters) = found.map hitOf := by
    unfold ZvecHotAdapter.search
    rw [if_neg (not_not.mpr (hvector.trans hm.size.symm))]
  have hmem : ∀ hit, hit ∈ newestHits p h s vector generation filters ↔ _ := fun _ =>
    mem_newestHits hm hfit hscore hvector hfilters
  rw [hrun]
  refine top_of_full ((nodup_hits p s vector generation filters).filter _) ?_ ?_ ?_ ?_ ?_
  · intro hit hhit
    obtain ⟨f, hf, rfl⟩ := List.mem_map.mp hhit
    obtain ⟨d, hd, hsat, hkey, hdistance, hhash, hgeneration⟩ := hanswer f hf
    refine (hmem _).mpr ⟨d, hkey ▸ hd, hsat, ?_⟩
    exact congr (congrArg₂ _ (congrArg (1 - ·) hdistance) hhash) hgeneration
  · have hids : (found.map fun f => idOf f.id).Nodup := by
      have hinjective : ∀ f ∈ found, ∀ g ∈ found,
          idOf f.id = idOf g.id → f.id = g.id := by
        intro f hf g hg heq
        obtain ⟨_, _, _, hfkey, _⟩ := hanswer f hf
        obtain ⟨_, _, _, hgkey, _⟩ := hanswer g hg
        rw [hfkey, heq, ← hgkey]
      have hnodup : ((found.map Found.id).map idOf).Nodup := by
        refine List.Nodup.map_on (fun x hx y hy heq => ?_) hq.nodup
        obtain ⟨f, hf, rfl⟩ := List.mem_map.mp hx
        obtain ⟨g, hg, rfl⟩ := List.mem_map.mp hy
        exact hinjective f hf g hg heq
      rwa [List.map_map] at hnodup
    refine List.Nodup.of_map VectorHit.id ?_
    rwa [List.map_map]
  · rw [List.length_map]
    exact hq.short
  · rw [List.pairwise_map]
    exact hq.sorted.imp fun hle => sub_le_sub_left hle 1
  · intro hit hhit hout
    obtain ⟨d, hd, hsat, hhit⟩ := (hmem _).mp hhit
    have hkept : (m.docs a.col (toString hit.id)).filter
        (satisfies (asked generation (literals filters))) = some d :=
      Option.filter_eq_some_iff.mpr ⟨hd, hsat⟩
    obtain ⟨hlength, hbest⟩ := hq.full (toString hit.id) d hkept fun f hf hkey => by
      obtain ⟨d', hd', _, _, hdistance, hhash, hgeneration⟩ := hanswer f hf
      rw [hkey, hd] at hd'
      cases hd'
      refine hout (List.mem_map.mpr ⟨f, hf, ?_⟩)
      rw [hhit]
      refine congr (congr (congr (congrArg _ ?_) (congrArg (1 - ·) hdistance)) hhash) hgeneration
      rw [hkey, idOf_toString]
    refine ⟨(List.length_map _).trans hlength, fun other hother => ?_⟩
    obtain ⟨f, hf, rfl⟩ := List.mem_map.mp hother
    rw [hhit]
    exact sub_le_sub_left (hbest f hf) 1

end Searches

section Agreement
variable {n : Native κ φ} {dim : ℕ} (m : IsCollection n dim) (p : Platform)

theorem length_of_callsOf {h : List HotStep} {c : StoreCall} (hc : c ∈ callsOf dim h)
    {r : VectorRecord} (hr : r ∈ c.records) : r.vector.length = dim := by
  obtain ⟨step, _, hstep⟩ := List.mem_filterMap.mp hc
  cases step with
  | upsert records =>
    rw [accepted_upsert] at hstep
    split at hstep
    · cases hstep
    · next hraise =>
      cases hstep
      by_contra hne
      exact hraise (List.any_eq_true.mpr ⟨r, hr, decide_eq_true hne⟩)
  | remove ids =>
    cases hstep
    cases hr
  | compact =>
    cases hstep
    cases hr
  | persist => cases hstep
  | reopen => cases hstep

theorem no_hits {h : List HotStep} {vector : List ℚ} (hvector : vector.length ≠ dim)
    (generation : Option ℤ) (filters : List (String × String)) :
    hits p (runStore (callsOf dim h)) vector generation filters = [] := by
  refine List.eq_nil_iff_forall_not_mem.mpr fun hit hhit => ?_
  obtain ⟨rec, hvisible, _, _, hlength, _⟩ := mem_hits.mp hhit
  have hlast := visible_last hvisible
  unfold lastUpsert at hlast
  have hmem := List.mem_reverse.mp (List.mem_of_find?_eq_some hlast)
  obtain ⟨c, hc, hr⟩ := List.mem_flatMap.mp hmem
  exact hvector (hlength.symm.trans (length_of_callsOf hc hr))

/-- After every history of upserts, removals, compactions, flushes and reopenings, the hot store
contains the ids that the in-memory store does that has taken the same batches, and a search of
it finds the best of what that store could answer, counting of each id only the entry of the
generation that it was last upserted in. -/
theorem hot_refines (hscore : ∀ q v, m.distance q v = 1 - p.cosine q v) {h : List HotStep}
    (hint : Int32Calls (callsOf dim h)) :
    let a := runHot n dim h
    let s := runStore (callsOf dim h)
    (∀ id, a.contains n id = s.contains id) ∧
      ((∀ c ∈ callsOf dim h, ∀ r ∈ c.records, Labelled r) →
        ∀ vector topK generation filters, (∀ f ∈ filters, f.1 ∈ labels) →
        Top VectorHit.score (newestHits p (callsOf dim h) s vector generation filters) topK
          (a.search n vector topK generation (literals filters))) := by
  intro a s
  have hm := mirrors_run m h hint
  refine ⟨fun id => ?_, fun hlabels vector topK generation filters hfilters => ?_⟩
  · have hfetch := m.fetch a.col [toString id] (toString id)
    rw [and_iff_right (List.mem_singleton_self _)] at hfetch
    unfold ZvecHotAdapter.contains
    rw [← hm.held id, Bool.eq_iff_iff, decide_eq_true_iff]
    exact hfetch
  · by_cases hvector : vector.length = dim
    · exact top_search hm (fun c hc r hr => ⟨length_of_callsOf hc hr, hlabels c hc r hr⟩) hscore
        hvector topK generation hfilters
    · have hnone : a.search n vector topK generation (literals filters) = [] :=
        if_pos (hm.size.symm ▸ hvector)
      unfold newestHits
      rw [hnone, no_hits p hvector]
      exact top_nil VectorHit.score topK

/-- When every id keeps its generation, a search of the hot store has the scores of the same
search of the in-memory store, and finds nothing that is not an answer of that store. -/
theorem hot_agrees (hscore : ∀ q v, m.distance q v = 1 - p.cosine q v) {h : List HotStep}
    (hint : Int32Calls (callsOf dim h)) (hlabels : ∀ c ∈ callsOf dim h, ∀ r ∈ c.records, Labelled r)
    (generationOf : RecordId → ℤ)
    (hkeeps : ∀ c ∈ callsOf dim h, ∀ r ∈ c.records, r.embeddingGeneration = generationOf r.id) :
    let a := runHot n dim h
    let s := runStore (callsOf dim h)
    ∀ (vector : List ℚ) (topK : ℕ) (generation : Option ℤ) (filters : List (String × String)),
      (∀ f ∈ filters, f.1 ∈ labels) →
      (a.search n vector topK generation (literals filters)).map VectorHit.score =
          (s.search p vector topK generation filters).map VectorHit.score ∧
        ∀ hit ∈ a.search n vector topK generation (literals filters),
          hit ∈ hits p s vector generation filters := by
  intro a s vector topK generation filters hfilters
  have htop := (hot_refines m p hscore hint).2 hlabels vector topK generation filters hfilters
  -- Every entry that is shown is the newest of its id.
  have hall : newestHits p (callsOf dim h) s vector generation filters =
      hits p s vector generation filters := by
    refine List.filter_eq_self.mpr fun hit hhit => ?_
    obtain ⟨rec, hvisible, _⟩ := mem_hits.mp hhit
    have hlast := visible_last hvisible
    unfold lastUpsert at hlast
    have hmem := List.mem_reverse.mp (List.mem_of_find?_eq_some hlast)
    have hkey := List.find?_some hlast
    have hkey := of_decide_eq_true hkey
    have hsome : (lastOf hit.id (callsOf dim h)).isSome = true :=
      List.find?_isSome.mpr ⟨rec, List.mem_reverse.mpr hmem, decide_eq_true (congrArg Prod.fst hkey)⟩
    obtain ⟨last, hfound⟩ := Option.isSome_iff_exists.mp hsome
    obtain ⟨⟨c, hc, hr⟩, hid⟩ := lastOf_mem hfound
    obtain ⟨c', hc', hr'⟩ := List.mem_flatMap.mp hmem
    refine (Option.any_eq_true _ _).mpr ⟨last, hfound, decide_eq_true ?_⟩
    have hgeneration : rec.embeddingGeneration = hit.embeddingGeneration := congrArg Prod.snd hkey
    rw [hkeeps c hc last hr, hid, ← hgeneration, hkeeps c' hc' rec hr']
    exact congrArg generationOf (congrArg Prod.fst hkey).symm
  rw [hall] at htop
  have hslice : s.search p vector topK generation filters =
      (sortByDesc VectorHit.score (hits p s vector generation filters)).take topK := by
    unfold search slice
    rw [if_pos (Int.natCast_nonneg topK), Int.toNat_natCast]
  have hnodup := nodup_hits p s vector generation filters
  refine ⟨?_, htop.subset⟩
  rw [hslice]
  exact htop.scores_eq (top_take hnodup (sortByDesc_perm _ _) (sortByDesc_pairwise _ _)) hnodup

end Agreement

def foundOf (distance : List ℚ → List ℚ → ℚ) (q : List ℚ) (e : String × Doc) : Found :=
  ⟨e.1, distance q e.2.vector, some e.2.contentHash, some e.2.generation⟩

def matching (distance : List ℚ → List ℚ → ℚ) (c : Table String Doc) (q : List ℚ)
    (filter : Option String) : List Found :=
  match filter.elim (some []) readFilter with
  | none => []
  | some clauses => (c.entries.filter fun e => satisfies clauses e.2).map (foundOf distance q)

/-- A collection that is a table, and a directory that is the table. -/
def tableNative (distance : List ℚ → List ℚ → ℚ) : Native (Table String Doc) (Table String Doc) where
  createAndOpen _ := ∅
  openDirectory files := files
  upsert c new := new.foldl (fun t d => t.set d.id d) c
  delete c keys := c.eraseAll keys
  fetch c keys := keys.filter c.contains
  query c q k filter := (sortByDesc (fun f => -f.score) (matching distance c q filter)).take k
  optimize c := c
  flush c := c

theorem get?_upserts (c : Table String Doc) (new : List Doc) (key : String) :
    (new.foldl (fun t d => t.set d.id d) c).get? key =
      (new.reverse.find? fun d => d.id = key).or (c.get? key) := by
  induction new using List.reverseRecOn with
  | nil => rfl
  | append_singleton new d ih =>
    rw [List.foldl_append, List.foldl_cons, List.foldl_nil, Table.get?_set, ih, List.reverse_append,
      List.reverse_singleton, List.singleton_append, List.find?_cons]
    by_cases hid : d.id = key <;> simp [hid]

theorem nodup_matching (distance : List ℚ → List ℚ → ℚ) (c : Table String Doc) (q : List ℚ)
    (clauses : List (String × Literal)) :
    (((c.entries.filter fun e => satisfies clauses e.2).map (foundOf distance q)).map
      Found.id).Nodup := by
  rw [List.map_map]
  exact (List.filter_sublist.map Prod.fst).nodup c.nodup_keys

theorem nearest_table (distance : List ℚ → List ℚ → ℚ) (c : Table String Doc) (q : List ℚ) (k : ℕ)
    (generation : Option ℤ) {filters : List (String × Literal)}
    (hfilters : ∀ f ∈ filters, f.1 ∈ labels) :
    Nearest (distance q) (fun key => (c.get? key).filter (satisfies (asked generation filters))) k
      ((tableNative distance).query c q k (filterExpr generation filters)) := by
  let items := (c.entries.filter fun e => satisfies (asked generation filters) e.2).map
    (foundOf distance q)
  have hnames : ∀ f ∈ filters, ' ' ∉ f.1.toList := fun f hf => by
    have hname : ∀ name ∈ labels, ' ' ∉ name.toList := by decide
    exact hname f.1 (hfilters f hf)
  have hmatching : matching distance c q (filterExpr generation filters) = items := by
    unfold matching
    rw [filter_reads_back generation filters hnames]
  have hids := nodup_matching distance c q (asked generation filters)
  have hitems : items.Nodup := List.Nodup.of_map Found.id hids
  have htop : Top (fun f : Found => -f.score) items k _ :=
    top_take hitems (sortByDesc_perm _ items) (sortByDesc_pairwise _ items)
  have hmem : ∀ f, f ∈ items ↔ ∃ d, c.get? f.id = some d ∧
      satisfies (asked generation filters) d = true ∧ f = foundOf distance q (f.id, d) := by
    intro f
    constructor
    · intro hf
      obtain ⟨⟨key, d⟩, he, rfl⟩ := List.mem_map.mp hf
      obtain ⟨hentry, hsat⟩ := List.mem_filter.mp he
      exact ⟨d, Table.mem_entries.mp hentry, hsat, rfl⟩
    · rintro ⟨d, hd, hsat, hf⟩
      refine List.mem_map.mpr ⟨(f.id, d), ?_, hf.symm⟩
      exact List.mem_filter.mpr ⟨Table.mem_entries.mpr hd, hsat⟩
  have hquery : (tableNative distance).query c q k (filterExpr generation filters) =
      (sortByDesc (fun f => -f.score) items).take k := congrArg
    (fun found => (sortByDesc (fun f : Found => -f.score) found).take k) hmatching
  rw [hquery]
  refine ⟨?_, fun f hf => ?_, List.length_take_le _ _,
    htop.sorted.imp fun hle => neg_le_neg_iff.mp hle, fun key d hd hout => ?_⟩
  · have hperm := (sortByDesc_perm (fun f : Found => -f.score) items).map Found.id
    exact ((List.take_sublist _ _).map Found.id).nodup (hperm.nodup_iff.mpr hids)
  · obtain ⟨d, hd, hsat, hf⟩ := (hmem f).mp (htop.subset f hf)
    refine ⟨d, Option.filter_eq_some_iff.mpr ⟨hd, hsat⟩, ?_, ?_, ?_⟩ <;> rw [hf] <;> rfl
  · obtain ⟨hdoc, hsat⟩ := Option.filter_eq_some_iff.mp hd
    have hitem : foundOf distance q (key, d) ∈ items := (hmem _).mpr ⟨d, hdoc, hsat, rfl⟩
    have hnot : foundOf distance q (key, d) ∉ (sortByDesc (fun f => -f.score) items).take k :=
      fun hmem => hout _ hmem rfl
    exact ⟨htop.full hitem hnot, fun f hf => neg_le_neg_iff.mp (htop.best _ hitem hnot f hf)⟩

def tableCollection (distance : List ℚ → List ℚ → ℚ) (dim : ℕ) :
    IsCollection (tableNative distance) dim where
  docs c key := c.get? key
  distance := distance
  created _ := rfl
  reopened _ _ := rfl
  upsert c new _ key := get?_upserts c new key
  delete c keys key := Table.get?_eraseAll c keys key
  optimize _ _ := rfl
  fetch _ _ _ := List.mem_filter
  query c q k generation _ _ hfilters := nearest_table distance c q k generation hfilters

def plainDistance (a b : List ℚ) : ℚ := 1 - if a = b then 1 else 0

def hotRecord (id : RecordId) (x : ℚ) (contentHash : String) : VectorRecord where
  id := id
  vector := [x]
  contentHash := contentHash
  embeddingModelId := "length"
  embeddingGeneration := 1
  metadata := [("status", "active"), ("tier", "L1"), ("sensitivity", "normal")]

/-- An id is removed, added again and searched for after a reopening. -/
def hotSteps : List HotStep :=
  [.upsert [hotRecord 1 3 "tea", hotRecord 2 4 "milk"], .remove [1], .compact,
    .upsert [{ hotRecord 5 0 "" with vector := [] }], .reopen, .upsert [hotRecord 1 6 "coffee"],
    .reopen]

theorem plainDistance_eq (q v : List ℚ) : (tableCollection plainDistance 1).distance q v =
    1 - NodeRuns.plainPlatform.cosine q v := rfl

instance (g : ℤ) : Decidable (IsInt32 g) := inferInstanceAs (Decidable (_ ∧ _))
instance (h : List StoreCall) : Decidable (Int32Calls h) :=
  inferInstanceAs (Decidable (∀ c ∈ h, ∀ r ∈ c.records, IsInt32 r.embeddingGeneration))
instance (rec : VectorRecord) : Decidable (Labelled rec) :=
  inferInstanceAs (Decidable (∀ name ∈ labels, _))

theorem hot_refines_reopened :
    let a := runHot (tableNative plainDistance) 1 hotSteps
    let s := runStore (callsOf 1 hotSteps)
    a.contains (tableNative plainDistance) 1 = s.contains 1 ∧
      Top VectorHit.score (newestHits NodeRuns.plainPlatform (callsOf 1 hotSteps) s [6] (some 1)
        [("status", "active")]) 1
        (a.search (tableNative plainDistance) [6] 1 (some 1) [("status", .str "active")]) := by
  intro a s
  obtain ⟨hcontains, hsearch⟩ := hot_refines (tableCollection plainDistance 1) NodeRuns.plainPlatform
    plainDistance_eq (show Int32Calls (callsOf 1 hotSteps) by decide +kernel)
  exact ⟨hcontains 1, hsearch (by decide +kernel) [6] 1 (some 1) [("status", "active")] (by decide)⟩

theorem hot_agrees_reopened :
    let a := runHot (tableNative plainDistance) 1 hotSteps
    let s := runStore (callsOf 1 hotSteps)
    (a.search (tableNative plainDistance) [6] 2 (some 1) []).map VectorHit.score =
        (s.search NodeRuns.plainPlatform [6] (2 : ℕ) (some 1) []).map VectorHit.score ∧
      ∀ hit ∈ a.search (tableNative plainDistance) [6] 2 (some 1) [],
        hit ∈ hits NodeRuns.plainPlatform s [6] (some 1) [] :=
  hot_agrees (tableCollection plainDistance 1) NodeRuns.plainPlatform plainDistance_eq
    (show Int32Calls (callsOf 1 hotSteps) by decide +kernel) (by decide +kernel) (fun _ => 1)
    (by decide +kernel) [6] 2 (some 1) [] (by decide)

end StrataMemory.ZvecHistories
