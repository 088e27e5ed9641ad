import StrataMemory.AtomicCorrections

set_option autoImplicit false

namespace StrataMemory.IdCollisions
open KeyedTables Records Tables Procedures Worlds CommitEffects CanonicalStore FlowInvariants
open IndexAgreement IdleFlows CrashedCalls Histories FlowAuthority AtomicCorrections Engine
open Gateway NodeRuns

def Unused (w : World Memory) (id : RecordId) : Prop :=
  w.db.readOne id = none ∧ w.db.isTombstoned id = false

/-- What was stored under the id keeps its content and its hash. -/
def Keeps (w t : World Memory) (id : RecordId) : Prop :=
  ∀ row, w.db.readOne id = some row → ∃ kept, t.db.readOne id = some kept ∧
    kept.content = row.content ∧ kept.contentHash = row.contentHash

/-- A call that creates a record overwrites none, and a record that it returns is a new one. -/
structure Harmless (w : World Memory) (out : Except PyError MemoryRecord × World Memory) :
    Prop where
  keeps : ∀ id, Keeps w out.2 id
  unused : ∀ r, out.1 = .ok r → Unused w r.id

structure Creates (w : World Memory) (out : Except PyError MemoryRecord × World Memory) :
    Prop extends Harmless w out where
  returns : out.1.isOk = true

section Rows
variable {w t u : World Memory} {id : RecordId}

theorem keeps_of_eq (h : t.db.readOne id = w.db.readOne id) : Keeps w t id :=
  fun row hrow => ⟨row, h.trans hrow, rfl, rfl⟩

theorem Keeps.content {text : String} (h : Keeps w t id)
    (hrow : (w.db.readOne id).map MemoryRecord.content = some text) :
    (t.db.readOne id).map MemoryRecord.content = some text := by
  obtain ⟨row, hread, rfl⟩ := Option.map_eq_some_iff.mp hrow
  obtain ⟨kept, hkept, hcontent, _⟩ := h row hread
  rw [hkept, Option.map_some, hcontent]

theorem Keeps.of_db (h : u.db = w.db) (hkeeps : Keeps u t id) : Keeps w t id := by
  unfold Keeps at hkeeps ⊢
  rwa [h] at hkeeps

theorem keeps_write {r : MemoryRecord} (hne : id ≠ r.id) : Keeps w (apply (.write r) w) id :=
  keeps_of_eq (readOne_write_of_ne (Ne.symm hne))

end Rows

/-- A call touches the content of the id drawn only, and what it returns has that id. -/
structure Confined (w : World Memory) (drawn : RecordId)
    (out : Except PyError MemoryRecord × World Memory) : Prop where
  others : ∀ id, id ≠ drawn → Keeps w out.2 id
  id : ∀ r, out.1 = .ok r → r.id = drawn

section Calls
variable {s : Strata} {w : World Memory}

namespace Confined
variable {drawn : RecordId} {out : Except PyError MemoryRecord × World Memory}

theorem harmless (h : Confined w drawn out) (hunused : Unused w drawn) : Harmless w out where
  keeps id := by
    by_cases hid : id = drawn
    · intro row hrow
      rw [hid, hunused.1] at hrow
      cases hrow
    · exact h.others id hid
  unused r hr := h.id r hr ▸ hunused

theorem creates_iff (h : Confined w drawn out) :
    Creates w out ↔ Unused w drawn ∧ out.1.isOk = true := by
  constructor
  · rintro ⟨hharmless, hreturns⟩
    refine ⟨?_, hreturns⟩
    cases hout : out.1 with
    | ok r => exact h.id r hout ▸ hharmless.unused r hout
    | error _ =>
      rw [hout] at hreturns
      cases hreturns
  · rintro ⟨hunused, hreturns⟩
    exact ⟨h.harmless hunused, hreturns⟩

end Confined

theorem writeMemory_run (e : MemoryEngine) (r : MemoryRecord) (generation : Option ℤ)
    (w : World Memory) : ∃ row, row.id = r.id ∧
      (e.writeMemory r generation).run w = (.ok row, (e.writeMemory r generation).final w) := by
  obtain ⟨row, hrun, _, hid, _⟩ := write_row r w
  have hwritten : (e.writeMemory r generation).run w = (.ok row,
      (afterWrite e row (generation.getD w.memory.activeGeneration)).final
        (apply (.indexPosting row.id row.content) (apply (.write r) w))) := by
    unfold MemoryEngine.writeMemory
    rw [Proc.run_bind_ok (Proc.run_read _ w), Proc.run_bind_ok hrun]
    exact afterWrite_run row _ _
  refine ⟨row, hid, ?_⟩
  rw [hwritten, Proc.final_of_run hwritten]

theorem confined_created (content : String) (fields : Fields) :
    Confined w (createdId fields w) ((create s.engine.platform content fields >>= fun r =>
        s.engine.writeMemory r : Prog Memory MemoryRecord).run w) ∧
      ((create s.engine.platform content fields >>= fun r =>
        s.engine.writeMemory r : Prog Memory MemoryRecord).run w).1.isOk = true := by
  obtain ⟨r, u, hrun, hmade, hdb⟩ := made s.engine.platform content fields w
  obtain ⟨row, hid, hwritten⟩ := writeMemory_run s.engine r none u
  rw [Proc.run_bind_ok hrun, hwritten]
  refine ⟨⟨fun other hne => ?_, fun reply hreply => ?_⟩, rfl⟩
  · rw [← hmade.id] at hne
    refine Keeps.of_db hdb ?_
    unfold Keeps
    rw [readOne_of_authority (authority_writeMemory s.engine r none u)]
    exact keeps_write hne
  · obtain rfl : row = reply := Except.ok.inj hreply
    exact hid.trans hmade.id

theorem keeps_correct (e : MemoryEngine) (oldId : RecordId) {r : MemoryRecord} {id : RecordId}
    (hne : id ≠ r.id) : Keeps w ((e.correct oldId r).final w) id := by
  obtain ⟨row, _, hrows, _⟩ := write_row r w
  intro old hold
  have hwritten : Function.update w.db.readOne r.id (some row) id = some old := by
    rw [Function.update_of_ne hne, hold]
  rw [readOne_correct e oldId hrows, Function.update_apply]
  split
  · rename_i hsame
    rw [← hsame, hwritten]
    exact ⟨_, rfl, rfl, rfl⟩
  · exact ⟨old, hwritten, rfl, rfl⟩

theorem confined_supersede (oldId : RecordId) (content : String) (fields : Fields) :
    Confined w (createdId fields w) ((s.supersedeMemory oldId content fields).run w) ∧
      (((s.supersedeMemory oldId content fields).run w).1.isOk = true ↔
        Correctable w oldId (createdId fields w)) := by
  obtain ⟨r, u, hrun, hmade, hdb⟩ := made s.engine.platform content fields w
  have hcall : (s.supersedeMemory oldId content fields).run w = (s.engine.correct oldId r).run u :=
    Proc.run_bind_ok hrun
  have hcorrectable : Correctable u oldId r.id ↔ Correctable w oldId (createdId fields w) := by
    unfold Correctable
    rw [hdb, hmade.id]
  have hothers : ∀ id, id ≠ createdId fields w → Keeps w ((s.engine.correct oldId r).run u).2 id := by
    intro id hne
    rw [← hmade.id] at hne
    exact .of_db hdb (keeps_correct s.engine oldId hne)
  rw [hcall, ← hcorrectable]
  by_cases hlink : Correctable u oldId r.id
  · obtain ⟨row, _, hsame, _, hcorrect⟩ := correct_linked (e := s.engine) hlink
    refine ⟨⟨hothers, fun reply hreply => ?_⟩, iff_of_true (by rw [hcorrect]; rfl) hlink⟩
    rw [hcorrect] at hreply
    obtain rfl : row = reply := Except.ok.inj hreply
    exact (fields_of_supplied hsame).1.trans hmade.id
  · have hrefused := correct_refused (e := s.engine) hlink
    have hraises : ¬ ((s.engine.correct oldId r).run u).1.isOk = true := by
      rw [hrefused]
      exact Bool.false_ne_true
    refine ⟨⟨hothers, fun reply hreply => ?_⟩, iff_of_false hraises hlink⟩
    rw [hrefused] at hreply
    cases hreply

end Calls

/-- `P` of how the call ends, where it creates a record and leaves the id to the allocator. -/
def Creation (s : Strata) (P : Except PyError MemoryRecord × World Memory → Prop)
    (w : World Memory) : Call → Prop
  | .writeEvent content recordType fields =>
    fields.id = none → P ((s.writeEvent content recordType fields).run w)
  | .writeMemory content fields => fields.id = none → P ((s.writeMemory content fields).run w)
  | .supersedeMemory oldId content fields =>
    fields.id = none → P ((s.supersedeMemory oldId content fields).run w)
  | _ => True

def DrawsUnused (w : World Memory) : Call → Prop
  | .writeEvent _ _ fields | .writeMemory _ fields | .supersedeMemory _ _ fields =>
    fields.id = none → Unused w (createdId fields w)
  | _ => True

/-- The record to be superseded has a row, or has the id that is drawn for the new one. -/
def FindsOld (w : World Memory) : Call → Prop
  | .supersedeMemory oldId _ fields => fields.id = none → Correctable w oldId (createdId fields w)
  | _ => True

section Runs
variable {s : Strata} {w : World Memory}

theorem creates_call_iff (c : Call) :
    Creation s (Creates w) w c ↔ DrawsUnused w c ∧ FindsOld w c := by
  cases c with
  | writeEvent content recordType fields =>
    obtain ⟨hconfined, hreturns⟩ := confined_created (s := s) (w := w) content
      { fields with recordType := recordType, tier := .l0 }
    have hcreates := hconfined.creates_iff.trans (and_iff_left hreturns)
    exact (imp_congr_right fun _ => hcreates).trans (and_iff_left trivial).symm
  | writeMemory content fields =>
    obtain ⟨hconfined, hreturns⟩ := confined_created (s := s) (w := w) content fields
    have hcreates := hconfined.creates_iff.trans (and_iff_left hreturns)
    exact (imp_congr_right fun _ => hcreates).trans (and_iff_left trivial).symm
  | supersedeMemory oldId content fields =>
    obtain ⟨hconfined, hreturns⟩ := confined_supersede (s := s) (w := w) oldId content fields
    have hcreates := hconfined.creates_iff.trans (and_congr_right fun _ => hreturns)
    exact (imp_congr_right fun _ => hcreates).trans imp_and
  | _ => exact iff_of_true trivial ⟨trivial, trivial⟩

theorem harmless_call {c : Call} (h : DrawsUnused w c) : Creation s (Harmless w) w c := by
  cases c with
  | writeEvent content recordType fields =>
    exact fun hid => (confined_created content
      { fields with recordType := recordType, tier := .l0 }).1.harmless (h hid)
  | writeMemory content fields => exact fun hid => (confined_created content fields).1.harmless (h hid)
  | supersedeMemory oldId content fields =>
    exact fun hid => (confined_supersede oldId content fields).1.harmless (h hid)
  | _ => trivial

/-- A run creates new records and overwrites none if and only if each id is drawn unused and
each record to be superseded is found. Where only the draws are right, no call does harm. -/
theorem creations_iff (s : Strata) (w : World Memory) (calls : List Call) :
    (Along (after s) (fun t => Creation s (Creates t) t) w calls ↔
      Along (after s) (fun t c => DrawsUnused t c ∧ FindsOld t c) w calls) ∧
    (Along (after s) DrawsUnused w calls →
      Along (after s) (fun t => Creation s (Harmless t) t) w calls) :=
  ⟨along_iff (J := fun _ => True) (fun _ c _ _ => creates_call_iff c) (fun _ _ _ _ _ => trivial)
    trivial, fun h => h.imp fun _ _ => harmless_call⟩

/-- The allocator draws the same id twice: the second memory replaces the first. -/
theorem second_draw_overwrites :
    let start : World Memory := { plainWorld with recordIds := fun _ => 5 }
    let w := runCalls plainStrata start [.writeMemory "tea" {}]
    let out := (plainStrata.writeMemory "milk").run w
    Reachable plainStrata w ∧ (w.db.readOne 5).map MemoryRecord.content = some "tea" ∧
      (out.2.db.readOne 5).map MemoryRecord.content = some "milk" ∧
      ¬ Creation plainStrata (Creates w) w (.writeMemory "milk" {}) := by
  intro start w out
  have hbefore : (w.db.readOne 5).map MemoryRecord.content = some "tea" := by decide
  have hafter : (out.2.db.readOne 5).map MemoryRecord.content = some "milk" := by decide
  refine ⟨⟨start, _, ⟨rfl, rfl, rfl, rfl⟩, rfl⟩, hbefore, hafter, fun hcreates => ?_⟩
  have hcreated : Creates w out := hcreates rfl
  have hkept := (hcreated.keeps 5).content hbefore
  exact absurd (hafter.symm.trans hkept) (by decide)

end Runs

end StrataMemory.IdCollisions
