import StrataMemory.Histories
import StrataMemory.StoreRefinement

set_option autoImplicit false

/-!
# Histories of a vector store

What the in-memory store answers, from the upserts, removals and purges that it has
taken. The soft delete is of an id and the entries are of an id and a generation: an
entry that was removed and not purged comes back when the id is added elsewhere.
-/
namespace StrataMemory.StoreHistories
open KeyedTables Records Tables VectorStore StoreRefinement Histories

inductive StoreCall where
  | upsert (records : List VectorRecord)
  | remove (ids : List RecordId)
  | purgeDeleted

def StoreCall.records : StoreCall → List VectorRecord
  | .upsert records => records
  | .remove _ | .purgeDeleted => []

def afterCall (s : InMemoryVectorStore) : StoreCall → InMemoryVectorStore
  | .upsert records => (s.upsert records).2
  | .remove ids => (s.remove ids).2
  | .purgeDeleted => s.purgeDeleted.2

def runStore (h : List StoreCall) : InMemoryVectorStore := h.foldl afterCall .empty

def Upserts (k : RecordId × ℤ) (c : StoreCall) : Prop := ∃ rec ∈ c.records, key rec = k
def UpsertsId (id : RecordId) (c : StoreCall) : Prop := ∃ rec ∈ c.records, rec.id = id

def Removes (id : RecordId) : StoreCall → Prop
  | .remove ids => id ∈ ids
  | .upsert _ | .purgeDeleted => False

/-- The pair has been upserted since its id was last removed. -/
def Live (k : RecordId × ℤ) : List StoreCall → Prop := Since (Upserts k) (Removes k.1)

/-- The id has been removed, and not upserted since in any generation. -/
def Removed (id : RecordId) : List StoreCall → Prop := Since (Removes id) (UpsertsId id)

/-- The pair has been upserted, and no purge since has come while its id was removed. -/
def Kept (k : RecordId × ℤ) : List StoreCall → Prop :=
  SinceAt (fun _ => Upserts k) fun h c => c = .purgeDeleted ∧ Removed k.1 h

/-- The pair is kept, its id has been upserted since it was last removed, and the pair has not. -/
def Revived (k : RecordId × ℤ) (h : List StoreCall) : Prop :=
  Kept k h ∧ ¬ Removed k.1 h ∧ ¬ Live k h

def lastUpsert (k : RecordId × ℤ) (h : List StoreCall) : Option VectorRecord :=
  (h.flatMap StoreCall.records).reverse.find? fun rec => key rec = k

/-- `h'` is `h` with purges inserted. -/
inductive PurgesInserted : List StoreCall → List StoreCall → Prop
  | nil : PurgesInserted [] []
  | keep {h h' : List StoreCall} (c : StoreCall) (hrest : PurgesInserted h h') :
    PurgesInserted (h ++ [c]) (h' ++ [c])
  | insert {h h' : List StoreCall} (hrest : PurgesInserted h h') :
    PurgesInserted h (h' ++ [.purgeDeleted])

section Step
variable {k : RecordId × ℤ} {id : RecordId} {h h' : List StoreCall} {s : InMemoryVectorStore}

theorem not_upserts_of_no_records {c : StoreCall} (hc : c.records = []) : ¬ Upserts k c := by
  rintro ⟨rec, hrec, _⟩
  rw [hc] at hrec
  cases hrec

theorem not_upsertsId_of_no_records {c : StoreCall} (hc : c.records = []) : ¬ UpsertsId id c := by
  rintro ⟨rec, hrec, _⟩
  rw [hc] at hrec
  cases hrec

theorem Upserts.upsertsId {c : StoreCall} (hc : Upserts k c) : UpsertsId k.1 c := by
  obtain ⟨rec, hrec, rfl⟩ := hc
  exact ⟨rec, hrec, rfl⟩

theorem kept_concat (k : RecordId × ℤ) (h : List StoreCall) (c : StoreCall) :
    Kept k (h ++ [c]) ↔ Upserts k c ∨ Kept k h ∧ ¬ (c = .purgeDeleted ∧ Removed k.1 h) :=
  sinceAt_concat _ _ h c

theorem removed_upsert (records : List VectorRecord) :
    Removed id (h ++ [.upsert records]) ↔ Removed id h ∧ ¬ UpsertsId id (.upsert records) := by
  refine (since_concat _ _ h _).trans ⟨fun hor => hor.elim False.elim (fun hs => hs), .inr⟩

theorem removed_remove (ids : List RecordId) :
    Removed id (h ++ [.remove ids]) ↔ id ∈ ids ∨ Removed id h := by
  refine (since_concat _ _ h _).trans (or_congr Iff.rfl ?_)
  exact and_iff_left (not_upsertsId_of_no_records rfl)

theorem removed_purge : Removed id (h ++ [.purgeDeleted]) ↔ Removed id h :=
  since_concat_of_not h (fun hc => hc) (not_upsertsId_of_no_records rfl)

theorem live_upsert (records : List VectorRecord) :
    Live k (h ++ [.upsert records]) ↔ Upserts k (.upsert records) ∨ Live k h := by
  refine (since_concat _ _ h _).trans (or_congr Iff.rfl ?_)
  exact and_iff_left fun hc => hc

theorem live_remove (ids : List RecordId) :
    Live k (h ++ [.remove ids]) ↔ Live k h ∧ k.1 ∉ ids := by
  refine (since_concat _ _ h _).trans ⟨fun hor => ?_, .inr⟩
  exact hor.elim (fun hc => absurd hc (not_upserts_of_no_records rfl)) fun hs => hs

theorem live_purge : Live k (h ++ [.purgeDeleted]) ↔ Live k h :=
  since_concat_of_not h (not_upserts_of_no_records rfl) fun hc => hc

theorem lastUpsert_concat (k : RecordId × ℤ) (h : List StoreCall) (c : StoreCall) :
    lastUpsert k (h ++ [c]) =
      (c.records.reverse.find? fun rec => key rec = k).or (lastUpsert k h) := by
  simp [lastUpsert, List.find?_append]

theorem get?_upsert (s : InMemoryVectorStore) (records : List VectorRecord) (k : RecordId × ℤ) :
    (s.upsert records).2.byKey.get? k =
      (records.reverse.find? fun rec => key rec = k).or (s.byKey.get? k) :=
  congrFun (congrArg Contents.entries (contents_upsert s records)) k

theorem mem_deleted_upsert (s : InMemoryVectorStore) (records : List VectorRecord)
    (id : RecordId) : id ∈ (s.upsert records).2.deleted ↔
      id ∈ s.deleted ∧ ¬ UpsertsId id (.upsert records) := by
  have hdeleted := congrFun (congrArg Contents.deleted (contents_upsert s records)) id
  have hflag : decide (id ∈ (s.upsert records).2.deleted) =
      (decide (id ∈ s.deleted) && !records.any fun rec => rec.id = id) := hdeleted
  have hiff : decide (id ∈ (s.upsert records).2.deleted) = true ↔
      id ∈ s.deleted ∧ ¬ UpsertsId id (.upsert records) := by
    rw [hflag]
    simp [UpsertsId, StoreCall.records]
  exact decide_eq_true_iff.symm.trans hiff

theorem contains_upsert_iff (s : InMemoryVectorStore) (records : List VectorRecord)
    (k : RecordId × ℤ) : (s.upsert records).2.byKey.contains k = true ↔
      Upserts k (.upsert records) ∨ s.byKey.contains k = true := by
  unfold Table.contains
  rw [get?_upsert, Option.isSome_or, Bool.or_eq_true, List.find?_isSome]
  simp [Upserts, StoreCall.records]

theorem mem_purged_keys (s : InMemoryVectorStore) (k : RecordId × ℤ) :
    k ∈ s.byKey.keys.filter (fun j => j.1 ∈ s.deleted) ↔
      s.byKey.contains k = true ∧ k.1 ∈ s.deleted := by
  have hkeys : k ∈ s.byKey.keys ↔ s.byKey.contains k = true :=
    (Table.lookupIn_isSome k s.byKey.entries).symm
  rw [List.mem_filter, hkeys, decide_eq_true_iff]

theorem get?_purgeDeleted (s : InMemoryVectorStore) (k : RecordId × ℤ) :
    s.purgeDeleted.2.byKey.get? k = if k.1 ∈ s.deleted then none else s.byKey.get? k := by
  change (s.byKey.eraseAll _).get? k = _
  rw [Table.get?_eraseAll]
  by_cases hdeleted : k.1 ∈ s.deleted
  · rw [if_pos hdeleted]
    by_cases hcontains : s.byKey.contains k = true
    · rw [if_pos ((mem_purged_keys s k).mpr ⟨hcontains, hdeleted⟩)]
    · have hnone := Table.get?_eq_none.mpr (Bool.eq_false_iff.mpr hcontains)
      rw [hnone, ite_self]
  · rw [if_neg hdeleted, if_neg fun hk => hdeleted ((mem_purged_keys s k).mp hk).2]

/-- What the store holds is what the history has kept, as last written; and a kept pair is
hidden when its id is removed. -/
structure Follows (h : List StoreCall) (s : InMemoryVectorStore) : Prop where
  kept : ∀ k, s.byKey.contains k = true ↔ Kept k h
  hidden : ∀ k, Kept k h → (k.1 ∈ s.deleted ↔ Removed k.1 h)
  last : ∀ k rec, s.byKey.get? k = some rec → lastUpsert k h = some rec

theorem follows_empty : Follows [] .empty where
  kept _ := ⟨fun hk => absurd hk Bool.false_ne_true, fun hk => absurd hk (not_sinceAt_nil _ _)⟩
  hidden _ hk := absurd hk (not_sinceAt_nil _ _)
  last _ _ hrec := nomatch hrec

theorem Follows.upsert (hs : Follows h s) (records : List VectorRecord) :
    Follows (h ++ [.upsert records]) (s.upsert records).2 where
  kept k := by
    have hno : ¬ (StoreCall.upsert records = .purgeDeleted ∧ Removed k.1 h) := fun hc => nomatch hc.1
    rw [contains_upsert_iff, kept_concat, hs.kept, and_iff_left hno]
  hidden k hk := by
    rw [mem_deleted_upsert, removed_upsert]
    refine and_congr_left fun hnot => hs.hidden k ?_
    rcases (kept_concat k h _).mp hk with hup | ⟨hkept, _⟩
    · exact absurd hup.upsertsId hnot
    · exact hkept
  last k rec hrec := by
    rw [get?_upsert] at hrec
    rw [lastUpsert_concat]
    rcases Option.or_eq_some_iff.mp hrec with hfound | ⟨hnone, hold⟩
    · exact Option.or_eq_some_iff.mpr (.inl hfound)
    · exact Option.or_eq_some_iff.mpr (.inr ⟨hnone, hs.last k rec hold⟩)

theorem Follows.remove (hs : Follows h s) (ids : List RecordId) :
    Follows (h ++ [.remove ids]) (s.remove ids).2 := by
  have hkept : ∀ k, Kept k (h ++ [.remove ids]) ↔ Kept k h := by
    intro k
    have hno : ¬ (StoreCall.remove ids = .purgeDeleted ∧ Removed k.1 h) := fun hc => nomatch hc.1
    rw [kept_concat, and_iff_left hno]
    exact or_iff_right (not_upserts_of_no_records rfl)
  refine ⟨fun k => (hs.kept k).trans (hkept k).symm, fun k hk => ?_, fun k rec hrec => ?_⟩
  · rw [removed_remove, ← hs.hidden k ((hkept k).mp hk)]
    exact List.mem_append
  · rw [lastUpsert_concat]
    exact hs.last k rec hrec

theorem Follows.purgeDeleted (hs : Follows h s) :
    Follows (h ++ [.purgeDeleted]) s.purgeDeleted.2 := by
  have hkept : ∀ k, Kept k (h ++ [.purgeDeleted]) ↔ Kept k h ∧ ¬ Removed k.1 h := by
    intro k
    rw [kept_concat, or_iff_right (not_upserts_of_no_records rfl)]
    exact and_congr_right fun _ => not_congr (and_iff_right rfl)
  refine ⟨fun k => ?_, fun k hk => ?_, fun k rec hrec => ?_⟩
  · rw [hkept, ← hs.kept]
    unfold Table.contains
    rw [get?_purgeDeleted]
    by_cases hk : s.byKey.contains k = true
    · rw [← hs.hidden k ((hs.kept k).mp hk)]
      by_cases hdeleted : k.1 ∈ s.deleted <;> simp [hdeleted]
    · have hnone := Table.get?_eq_none.mpr (Bool.eq_false_iff.mpr hk)
      simp [hnone]
  · obtain ⟨hold, hnot⟩ := (hkept k).mp hk
    have hflag : k.1 ∉ s.deleted := fun hd => hnot ((hs.hidden k hold).mp hd)
    rw [removed_purge]
    exact iff_of_false (fun hd => hflag (List.mem_filter.mp hd).1) hnot
  · rw [lastUpsert_concat]
    rw [get?_purgeDeleted] at hrec
    split_ifs at hrec
    exact hs.last k rec hrec

theorem follows_runStore (h : List StoreCall) : Follows h (runStore h) := by
  induction h using List.reverseRecOn with
  | nil => exact follows_empty
  | append_singleton h c ih =>
    have hrun : runStore (h ++ [c]) = afterCall (runStore h) c := by simp [runStore]
    rw [hrun]
    cases c with
    | upsert records => exact ih.upsert records
    | remove ids => exact ih.remove ids
    | purgeDeleted => exact ih.purgeDeleted

end Step

section Answers
variable {p : Platform} {h h' : List StoreCall}

theorem Live.kept {k : RecordId × ℤ} (hlive : Live k h) : Kept k h ∧ ¬ Removed k.1 h := by
  induction h using List.reverseRecOn with
  | nil => exact absurd hlive (not_sinceAt_nil (fun _ => Upserts k) fun _ => Removes k.1)
  | append_singleton h c ih =>
    cases c with
    | upsert records =>
      have hno : ¬ (StoreCall.upsert records = .purgeDeleted ∧ Removed k.1 h) :=
        fun hc => nomatch hc.1
      rw [kept_concat, removed_upsert]
      rcases (live_upsert records).mp hlive with hup | hold
      · exact ⟨.inl hup, fun hremoved => hremoved.2 hup.upsertsId⟩
      · exact ⟨.inr ⟨(ih hold).1, hno⟩, fun hremoved => (ih hold).2 hremoved.1⟩
    | remove ids =>
      have hno : ¬ (StoreCall.remove ids = .purgeDeleted ∧ Removed k.1 h) :=
        fun hc => nomatch hc.1
      obtain ⟨hold, hnot⟩ := (live_remove ids).mp hlive
      rw [kept_concat, removed_remove]
      exact ⟨.inr ⟨(ih hold).1, hno⟩, not_or.mpr ⟨hnot, (ih hold).2⟩⟩
    | purgeDeleted =>
      have hold := live_purge.mp hlive
      rw [kept_concat, removed_purge]
      exact ⟨.inr ⟨(ih hold).1, fun hc => (ih hold).2 hc.2⟩, (ih hold).2⟩

/-- The store shows what is kept and not removed, as it was last written. -/
theorem visible_isSome (h : List StoreCall) (k : RecordId × ℤ) :
    ((runStore h).visible k).isSome = true ↔ Kept k h ∧ ¬ Removed k.1 h := by
  have hs := follows_runStore h
  rw [← hs.kept]
  unfold InMemoryVectorStore.visible
  by_cases hcontains : (runStore h).byKey.contains k = true
  · rw [← hs.hidden k ((hs.kept k).mp hcontains)]
    by_cases hdeleted : k.1 ∈ (runStore h).deleted
    · simp [hdeleted]
    · rw [if_neg hdeleted]
      exact iff_of_true hcontains ⟨hcontains, hdeleted⟩
  · have hnone := Table.get?_eq_none.mpr (Bool.eq_false_iff.mpr hcontains)
    simp [hnone, hcontains]

theorem visible_last {k : RecordId × ℤ} {rec : VectorRecord}
    (hrec : (runStore h).visible k = some rec) : lastUpsert k h = some rec :=
  (follows_runStore h).last k rec (InMemoryVectorStore.visible_eq_some.mp hrec).2

theorem live_or_revived {k : RecordId × ℤ} (hk : Kept k h ∧ ¬ Removed k.1 h) :
    Live k h ∨ Revived k h := by
  by_cases hlive : Live k h
  · exact .inl hlive
  · exact .inr ⟨hk.1, hk.2, hlive⟩

theorem visible_iff_live (hrevived : ∀ k, ¬ Revived k h) (k : RecordId × ℤ) :
    ((runStore h).visible k).isSome = true ↔ Live k h :=
  (visible_isSome h k).trans
    ⟨fun hk => (live_or_revived hk).resolve_right (hrevived k), Live.kept⟩

def Searchable (p : Platform) (s : InMemoryVectorStore) (id : RecordId) (g : ℤ) : Prop :=
  ∃ vector topK, ∃ hit ∈ s.search p vector topK (some g), hit.id = id

theorem searchable_iff_visible {s : InMemoryVectorStore} {id : RecordId} {g : ℤ} :
    Searchable p s id g ↔ (s.visible (id, g)).isSome = true := by
  rw [Option.isSome_iff_exists]
  constructor
  · rintro ⟨vector, topK, hit, hhit, rfl⟩
    obtain ⟨rec, hrec, hgeneration, _⟩ :=
      InMemoryVectorStore.mem_hits.mp (InMemoryVectorStore.hits_of_search hhit)
    rw [hgeneration g rfl] at hrec
    exact ⟨rec, hrec⟩
  · rintro ⟨rec, hrec⟩
    have hhit : VectorHit.mk id (p.cosine rec.vector rec.vector) rec.contentHash g ∈
        s.hits p rec.vector (some g) [] :=
      InMemoryVectorStore.mem_hits.mpr ⟨rec, hrec, fun _ hg => Option.some.inj hg, rfl, rfl, rfl, rfl⟩
    exact ⟨_, _, _, InMemoryVectorStore.search_of_hits hhit, rfl⟩

theorem PurgesInserted.statements (hins : PurgesInserted h h') (k : RecordId × ℤ) :
    (Live k h' ↔ Live k h) ∧ (Removed k.1 h' ↔ Removed k.1 h) ∧ (Kept k h' → Kept k h) ∧
      lastUpsert k h' = lastUpsert k h := by
  induction hins with
  | nil => exact ⟨Iff.rfl, Iff.rfl, fun hk => hk, rfl⟩
  | @keep h h' c _ ih =>
    obtain ⟨hlive, hremoved, hkept, hlast⟩ := ih
    refine ⟨?_, ?_, ?_, ?_⟩
    · exact (since_concat _ _ h' c).trans
        ((or_congr Iff.rfl (and_congr_left' hlive)).trans (since_concat _ _ h c).symm)
    · exact (since_concat _ _ h' c).trans
        ((or_congr Iff.rfl (and_congr_left' hremoved)).trans (since_concat _ _ h c).symm)
    · rw [kept_concat, kept_concat, hremoved]
      exact Or.imp_right (And.imp_left hkept)
    · rw [lastUpsert_concat, lastUpsert_concat, hlast]
  | insert _ ih =>
    obtain ⟨hlive, hremoved, hkept, hlast⟩ := ih
    refine ⟨live_purge.trans hlive, removed_purge.trans hremoved, fun hk => ?_, ?_⟩
    · rcases (kept_concat _ _ _).mp hk with hup | ⟨hold, _⟩
      · exact absurd hup (not_upserts_of_no_records rfl)
      · exact hkept hold
    · rw [lastUpsert_concat, hlast]
      rfl

theorem PurgesInserted.visible (hins : PurgesInserted h h') (hrevived : ∀ k, ¬ Revived k h) :
    (runStore h').visible = (runStore h).visible := by
  have hrevived' : ∀ k, ¬ Revived k h' := by
    rintro k ⟨hkept, hremoved, hlive⟩
    obtain ⟨hl, hr, hk, _⟩ := hins.statements k
    exact hrevived k ⟨hk hkept, fun hr' => hremoved (hr.mpr hr'), fun hl' => hlive (hl.mpr hl')⟩
  funext k
  have hsome : ((runStore h').visible k).isSome = true ↔ ((runStore h).visible k).isSome = true :=
    (visible_iff_live hrevived' k).trans
      ((hins.statements k).1.trans (visible_iff_live hrevived k).symm)
  cases hold : (runStore h).visible k with
  | none => simpa [hold] using hsome
  | some rec =>
    obtain ⟨rec', hnew⟩ := Option.isSome_iff_exists.mp (hsome.mpr (by rw [hold]; rfl))
    have hlast := visible_last hnew
    rw [(hins.statements k).2.2.2, visible_last hold] at hlast
    rw [hnew, hlast]

end Answers
end StrataMemory.StoreHistories
