import StrataMemory.CurrentTruth
import Mathlib.Data.Sym.Sym2

set_option autoImplicit false

namespace StrataMemory.ContradictionAudit
open KeyedTables Records Tables Procedures Worlds CanonicalStore Resolver Engine Gateway
open ReflectionEngine

def note (db : Db) (a : RecordId) (seen : List (RecordId × RecordId)) (b : RecordId) :
    List (RecordId × RecordId) :=
  if !isLiveRecord db b then seen
  else if seen.contains (a, b) || seen.contains (b, a) then seen
  else (a, b) :: seen

def noteAll (db : Db) (seen : List (RecordId × RecordId)) (r : MemoryRecord) :
    List (RecordId × RecordId) :=
  if !r.status.isActive || db.isTombstoned r.id then seen
  else (contradictorsOf db r.id).foldl (note db r.id) seen

section Pairs
variable {db : Db} {a : RecordId} {seen : List (RecordId × RecordId)}

theorem note_eq (b : RecordId) : note db a seen b =
    if !isLiveRecord db b then seen
    else if (a, b) ∈ seen || (b, a) ∈ seen then seen
    else (a, b) :: seen := by
  unfold note
  simp only [List.contains_eq_mem]

theorem subset_note (b : RecordId) : seen ⊆ note db a seen b := by
  unfold note
  split
  · exact List.Subset.refl _
  · split
    · exact List.Subset.refl _
    · exact List.subset_cons_self _ _

theorem subset_notes (others : List RecordId) : seen ⊆ others.foldl (note db a) seen := by
  induction others generalizing seen with
  | nil => exact List.Subset.refl _
  | cons b rest ih => exact List.Subset.trans (subset_note b) ih

theorem mem_notes {others : List RecordId} {p : RecordId × RecordId}
    (h : p ∈ others.foldl (note db a) seen) :
    p ∈ seen ∨ p.1 = a ∧ p.2 ∈ others ∧ isLiveRecord db p.2 = true := by
  induction others generalizing seen with
  | nil => exact .inl h
  | cons b rest ih =>
    rcases ih h with h | ⟨hfirst, hsecond, hlive⟩
    · unfold note at h
      split at h
      · exact .inl h
      · rename_i hlive
        split at h
        · exact .inl h
        · rcases List.mem_cons.mp h with rfl | h
          · exact .inr ⟨rfl, List.mem_cons_self, by simpa using hlive⟩
          · exact .inl h
    · exact .inr ⟨hfirst, List.mem_cons_of_mem _ hsecond, hlive⟩

theorem notes_cover {others : List RecordId} {b : RecordId} (hb : b ∈ others)
    (hlive : isLiveRecord db b = true) :
    (a, b) ∈ others.foldl (note db a) seen ∨ (b, a) ∈ others.foldl (note db a) seen := by
  induction others generalizing seen with
  | nil => cases hb
  | cons c rest ih =>
    rcases List.mem_cons.mp hb with rfl | hb
    · have hnoted : (a, b) ∈ note db a seen b ∨ (b, a) ∈ note db a seen b := by
        rw [note_eq, if_neg (by simp [hlive])]
        split
        · rename_i hseen
          simpa using hseen
        · exact .inl List.mem_cons_self
      exact hnoted.imp (fun h => subset_notes rest h) fun h => subset_notes rest h
    · exact ih hb

theorem subset_noteAll (r : MemoryRecord) : seen ⊆ noteAll db seen r := by
  unfold noteAll
  split
  · exact List.Subset.refl _
  · exact subset_notes _

theorem subset_audited (records : List MemoryRecord) : seen ⊆ records.foldl (noteAll db) seen := by
  induction records generalizing seen with
  | nil => exact List.Subset.refl _
  | cons r rest ih => exact List.Subset.trans (subset_noteAll r) ih

theorem mem_audited {records : List MemoryRecord} {p : RecordId × RecordId}
    (h : p ∈ records.foldl (noteAll db) seen) : p ∈ seen ∨ ∃ r ∈ records,
      r.status.isActive = true ∧ db.isTombstoned r.id = false ∧ p.1 = r.id ∧
        p.2 ∈ contradictorsOf db r.id ∧ isLiveRecord db p.2 = true := by
  induction records generalizing seen with
  | nil => exact .inl h
  | cons r rest ih =>
    rcases ih h with h | ⟨r', hr', hrest⟩
    · unfold noteAll at h
      split at h
      · exact .inl h
      · rename_i hlive
        rw [Bool.or_eq_true, not_or] at hlive
        refine (mem_notes h).imp_right fun ⟨hfirst, hsecond, hother⟩ => ?_
        exact ⟨r, List.mem_cons_self, by simpa using hlive.1, by simpa using hlive.2, hfirst,
          hsecond, hother⟩
    · exact .inr ⟨r', List.mem_cons_of_mem _ hr', hrest⟩

theorem audited_cover {records : List MemoryRecord} {r : MemoryRecord} (hr : r ∈ records)
    (hactive : r.status.isActive = true) (hlive : db.isTombstoned r.id = false) {b : RecordId}
    (hb : b ∈ contradictorsOf db r.id) (hblive : isLiveRecord db b = true) :
    (r.id, b) ∈ records.foldl (noteAll db) seen ∨ (b, r.id) ∈ records.foldl (noteAll db) seen := by
  induction records generalizing seen with
  | nil => cases hr
  | cons r' rest ih =>
    rcases List.mem_cons.mp hr with rfl | hr
    · have hnoted : (r.id, b) ∈ noteAll db seen r ∨ (b, r.id) ∈ noteAll db seen r := by
        unfold noteAll
        rw [if_neg (by simp [hactive, hlive])]
        exact notes_cover hb hblive
      exact hnoted.imp (fun h => subset_audited rest h) fun h => subset_audited rest h
    · exact ih hr

end Pairs

theorem names_clarify {a b id : RecordId} {p : OpId} :
    (clarifyProposal a b p).names id = true ↔ id = a ∨ id = b := by
  simp [Proposal.names, clarifyProposal]

def unordered (p : RecordId × RecordId) : Sym2 RecordId := s(p.1, p.2)

theorem mem_unordered {a b : RecordId} {seen : List (RecordId × RecordId)} :
    s(a, b) ∈ seen.map unordered ↔ (a, b) ∈ seen ∨ (b, a) ∈ seen := by
  rw [List.mem_map]
  constructor
  · rintro ⟨⟨c, d⟩, hmem, hpair⟩
    rcases Sym2.eq_iff.mp hpair with ⟨rfl, rfl⟩ | ⟨rfl, rfl⟩
    · exact .inl hmem
    · exact .inr hmem
  · rintro (hmem | hmem)
    · exact ⟨(a, b), hmem, rfl⟩
    · exact ⟨(b, a), hmem, Sym2.eq_swap⟩

def Distinct (seen : List (RecordId × RecordId)) : Prop := (seen.map unordered).Nodup

section Noting
variable {db : Db} {seen : List (RecordId × RecordId)}

theorem distinct_note {a : RecordId} (h : Distinct seen) (b : RecordId) :
    Distinct (note db a seen b) := by
  rw [note_eq]
  split
  · exact h
  · split
    · exact h
    · rename_i hseen
      refine List.nodup_cons.mpr ⟨fun hmem => ?_, h⟩
      exact hseen (by simpa using mem_unordered.mp hmem)

theorem distinct_noteAll (h : Distinct seen) (r : MemoryRecord) :
    Distinct (noteAll db seen r) := by
  unfold noteAll
  split
  · exact h
  · refine List.foldlRecOn (motive := Distinct) _ _ h ?_
    exact fun _ hnoted b _ => distinct_note hnoted b

theorem distinct_audited (records : List MemoryRecord) :
    Distinct (records.foldl (noteAll db) []) := by
  refine List.foldlRecOn (motive := Distinct) _ _ List.nodup_nil ?_
  exact fun _ hnoted r _ => distinct_noteAll hnoted r

end Noting

/-- An edge, one way or the other, says that the records contradict each other. -/
def Contradict (db : Db) (a b : RecordId) : Prop :=
  ∃ d ∈ db.canonical.dependencies, d.rel = .contradicts ∧
    (d.parentId = a ∧ d.childId = b ∨ d.childId = a ∧ d.parentId = b)

/-- The unordered pairs noted over all the rows are those of live records that contradict each
other. -/
theorem mem_audited_iff {db : Db} {a b : RecordId} :
    s(a, b) ∈ ((select db {}).foldl (noteAll db) []).map unordered ↔
      Contradict db a b ∧ isLiveRecord db a = true ∧ isLiveRecord db b = true := by
  have hsound : ∀ p ∈ (select db {}).foldl (noteAll db) [],
      Contradict db p.1 p.2 ∧ isLiveRecord db p.1 = true ∧ isLiveRecord db p.2 = true := by
    intro p hp
    rcases mem_audited hp with hp | ⟨row, hrow, hactive, hlive, hfirst, hsecond, hother⟩
    · cases hp
    · have hread := (mem_select.mp hrow).1
      rw [hfirst]
      exact ⟨mem_contradictorsOf.mp hsecond, isLiveRecord_iff.mpr ⟨row, hread, hactive, hlive⟩,
        hother⟩
  rw [mem_unordered]
  constructor
  · rintro (hmem | hmem)
    · exact hsound _ hmem
    · obtain ⟨⟨d, hd, hrel, hends⟩, hb, ha⟩ := hsound _ hmem
      exact ⟨⟨d, hd, hrel, hends.symm.imp And.symm And.symm⟩, ha, hb⟩
  · rintro ⟨hcontradict, ha, hb⟩
    obtain ⟨row, hread, hactive, hlive⟩ := isLiveRecord_iff.mp ha
    obtain rfl := Db.readOne_id hread
    have hselected : row ∈ select db {} := mem_select.mpr ⟨hread, by simp [Query.selects, hlive]⟩
    exact audited_cover hselected hactive hlive (mem_contradictorsOf.mpr hcontradict) hb

def propose (w : World Memory) (p : RecordId × RecordId) : World Memory :=
  (addProposal (clarifyProposal p.1 p.2 w.operationIds)).final (apply .newOperationId w)

@[simp] theorem propose_operationIds (w : World Memory) (p : RecordId × RecordId) :
    (propose w p).operationIds = w.operationIds + 1 := rfl

theorem propose_get? (w : World Memory) (p : RecordId × RecordId) (id : OpId) :
    (propose w p).memory.proposals.get? id =
      if w.operationIds = id then some (clarifyProposal p.1 p.2 w.operationIds)
      else w.memory.proposals.get? id :=
  Table.get?_set _ _ _ _

theorem proposed_db (made : List (RecordId × RecordId)) (w : World Memory) :
    (made.foldl propose w).db = w.db :=
  List.foldlRecOn (motive := fun t : World Memory => t.db = w.db) _ _ rfl fun _ h _ _ => h

theorem proposed_operationIds (made : List (RecordId × RecordId)) (w : World Memory) :
    (made.foldl propose w).operationIds = w.operationIds + made.length := by
  induction made generalizing w with
  | nil => rfl
  | cons p made ih =>
    rw [List.foldl_cons, ih, propose_operationIds, List.length_cons, Nat.add_assoc,
      Nat.add_comm 1]

theorem proposed_other {made : List (RecordId × RecordId)} {w : World Memory} {id : OpId}
    (h : id ∉ List.range' w.operationIds made.length) :
    (made.foldl propose w).memory.proposals.get? id = w.memory.proposals.get? id := by
  induction made generalizing w with
  | nil => rfl
  | cons p made ih =>
    rw [List.length_cons, List.range'_succ, List.mem_cons, not_or] at h
    rw [List.foldl_cons, ih h.2, propose_get?, if_neg (Ne.symm h.1)]

theorem proposed_get? {made : List (RecordId × RecordId)} {w : World Memory} {i : ℕ}
    {p : RecordId × RecordId} (h : made[i]? = some p) :
    (made.foldl propose w).memory.proposals.get? (w.operationIds + i) =
      some (clarifyProposal p.1 p.2 (w.operationIds + i)) := by
  induction made generalizing w i with
  | nil => cases h
  | cons q made ih =>
    cases i with
    | zero =>
      obtain rfl : q = p := by simpa using h
      have hfresh : w.operationIds ∉ List.range' (propose w q).operationIds made.length := by
        simp [List.mem_range'_1]
      rw [List.foldl_cons, Nat.add_zero, proposed_other hfresh, propose_get?, if_pos rfl]
    | succ i =>
      rw [List.getElem?_cons_succ] at h
      have hrest := ih (w := propose w q) h
      rwa [propose_operationIds, Nat.add_right_comm] at hrest

theorem auditPairs_run (a : RecordId) (others : List RecordId) (seen : List (RecordId × RecordId))
    (w : World Memory) : ∃ made : List (RecordId × RecordId),
      others.foldl (note w.db a) seen = made.reverse ++ seen ∧
      (auditPairs a others seen).run w =
        (.ok (List.range' w.operationIds made.length, made.reverse ++ seen),
          made.foldl propose w) := by
  induction others generalizing seen w with
  | nil => exact ⟨[], rfl, rfl⟩
  | cons b rest ih =>
    rw [List.foldl_cons]
    unfold auditPairs
    rw [note_eq, Proc.run_bind_ok (run_query _ w)]
    split
    · exact ih seen w
    · split
      · exact ih seen w
      · obtain ⟨made, hseen, hrun⟩ := ih ((a, b) :: seen) (propose w (a, b))
        have hreverse : made.reverse ++ (a, b) :: seen = ((a, b) :: made).reverse ++ seen := by
          simp
        rw [hreverse] at hseen hrun
        refine ⟨(a, b) :: made, hseen, ?_⟩
        rw [Proc.run_bind_ok (run_newOperationId w),
          Proc.run_bind_ok (t := propose w (a, b)) rfl, Proc.run_bind_ok hrun]
        rfl

/-- The pairs that the audit notes are those that it makes proposals for, in the order in which
it draws their ids. -/
theorem auditRecords_run (records : List MemoryRecord) (seen : List (RecordId × RecordId))
    (w : World Memory) : ∃ made : List (RecordId × RecordId),
      records.foldl (noteAll w.db) seen = made.reverse ++ seen ∧
      (auditRecords records seen).run w =
        (.ok (List.range' w.operationIds made.length), made.foldl propose w) := by
  induction records generalizing seen w with
  | nil => exact ⟨[], rfl, rfl⟩
  | cons r rest ih =>
    rw [List.foldl_cons]
    unfold auditRecords CanonicalStore.isTombstoned
    rw [Proc.run_bind_ok (run_query _ w), noteAll]
    split
    · exact ih seen w
    · obtain ⟨first, hseen, hrun⟩ := auditPairs_run r.id (contradictorsOf w.db r.id) seen w
      obtain ⟨more, hrest, hmore⟩ := ih (first.reverse ++ seen) (first.foldl propose w)
      rw [proposed_db] at hrest
      rw [proposed_operationIds] at hmore
      refine ⟨first ++ more, ?_, ?_⟩
      · rw [hseen, hrest, List.reverse_append, List.append_assoc]
      · rw [Proc.run_bind_ok (run_query _ w), Proc.run_bind_ok hrun, Proc.run_bind_ok hmore,
          List.foldl_append, List.length_append, ← List.range'_append_1]
        rfl

theorem mem_drawn {made : List (RecordId × RecordId)} {start id : OpId} :
    id ∈ List.range' start made.length ↔ ∃ i p, start + i = id ∧ made[i]? = some p := by
  rw [List.mem_range']
  constructor
  · rintro ⟨i, hi, rfl⟩
    exact ⟨i, made[i], by rw [Nat.one_mul], List.getElem?_eq_getElem hi⟩
  · rintro ⟨i, p, rfl, hp⟩
    exact ⟨i, (List.getElem?_eq_some_iff.mp hp).1, by rw [Nat.one_mul]⟩

theorem names_both {a b : RecordId} (hne : a ≠ b) {p : RecordId × RecordId} {id : OpId} :
    (clarifyProposal p.1 p.2 id).names a = true ∧ (clarifyProposal p.1 p.2 id).names b = true ↔
      unordered p = s(a, b) := by
  rw [names_clarify, names_clarify, ← Sym2.mem_iff, ← Sym2.mem_iff]
  exact Sym2.mem_and_mem_iff hne

theorem Distinct.index_eq {made : List (RecordId × RecordId)} (h : Distinct made) {i j : ℕ}
    {p q : RecordId × RecordId} (hp : made[i]? = some p) (hq : made[j]? = some q)
    (hsame : unordered p = unordered q) : i = j := by
  have hi : (made.map unordered)[i]? = some (unordered p) := by
    rw [List.getElem?_map, hp, Option.map_some]
  have hj : (made.map unordered)[j]? = some (unordered p) := by
    rw [List.getElem?_map, hq, Option.map_some, hsame]
  have hbound := (List.getElem?_eq_some_iff.mp hi).1
  exact (List.getElem?_inj hbound h).mp (hi.trans hj.symm)

/-- What one audit of a world did: the ids it returned and the world it left. -/
structure AuditExact (w : World Memory) (ids : List OpId) (t : World Memory) : Prop where
  records : t.db = w.db
  drawn : ids.Nodup ∧ ∀ id ∈ ids, w.operationIds ≤ id
  others : ∀ id, id ∉ ids → t.memory.proposals.get? id = w.memory.proposals.get? id
  sound : ∀ id ∈ ids, ∃ a b, t.memory.proposals.get? id = some (clarifyProposal a b id) ∧
    Contradict w.db a b ∧ isLiveRecord w.db a = true ∧ isLiveRecord w.db b = true
  complete : ∀ a b, a ≠ b → Contradict w.db a b → isLiveRecord w.db a = true →
    isLiveRecord w.db b = true → ∃! id, id ∈ ids ∧ ∃ p, t.memory.proposals.get? id = some p ∧
      p.kind = .clarifyConflict ∧ p.names a = true ∧ p.names b = true

/-- The audit of any store proposes one clarification for each pair of live records that
contradict each other, no other one, and leaves the store as it is. -/
theorem contradictionAudit_exact (w : World Memory) :
    ∃ ids t, contradictionAudit.run w = (.ok ids, t) ∧ AuditExact w ids t := by
  obtain ⟨made, hnoted, hrun⟩ := auditRecords_run (select w.db {}) [] w
  rw [List.append_nil] at hnoted
  have hdistinct : Distinct made := by
    have hall : Distinct ((select w.db {}).foldl (noteAll w.db) []) := distinct_audited _
    unfold Distinct at hall ⊢
    rwa [hnoted, List.map_reverse, List.nodup_reverse] at hall
  have hpair : ∀ a b, s(a, b) ∈ made.map unordered ↔
      Contradict w.db a b ∧ isLiveRecord w.db a = true ∧ isLiveRecord w.db b = true := by
    intro a b
    rw [← mem_audited_iff, hnoted, List.map_reverse, List.mem_reverse]
  refine ⟨_, _, (Proc.run_bind_ok (run_query _ w)).trans hrun, ?_⟩
  refine ⟨proposed_db made w, ⟨List.nodup_range', fun id hid => ?_⟩,
    fun id hid => proposed_other hid, fun id hid => ?_, fun a b hne hcontradict ha hb => ?_⟩
  · exact (List.mem_range'_1.mp hid).1
  · obtain ⟨i, p, rfl, hp⟩ := mem_drawn.mp hid
    refine ⟨p.1, p.2, proposed_get? hp, (hpair p.1 p.2).mp ?_⟩
    exact List.mem_map.mpr ⟨p, List.mem_of_getElem? hp, rfl⟩
  · obtain ⟨p, hmem, hsame⟩ := List.mem_map.mp ((hpair a b).mpr ⟨hcontradict, ha, hb⟩)
    obtain ⟨i, hp⟩ := List.mem_iff_getElem?.mp hmem
    refine ⟨w.operationIds + i, ⟨mem_drawn.mpr ⟨i, p, rfl, hp⟩, _, proposed_get? hp, rfl,
      (names_both hne).mpr hsame⟩, ?_⟩
    rintro id ⟨hid, proposal, hget, _, hnames⟩
    obtain ⟨j, q, rfl, hq⟩ := mem_drawn.mp hid
    obtain rfl := Option.some.inj ((proposed_get? hq).symm.trans hget)
    rw [hdistinct.index_eq hq hp (((names_both hne).mp hnames).trans hsame.symm)]

end StrataMemory.ContradictionAudit
