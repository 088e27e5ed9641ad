import StrataMemory.AtomicCorrections
import StrataMemory.HttpRoutes

set_option autoImplicit false

namespace StrataMemory.ProtectedCorrections
open KeyedTables Records Tables Procedures Worlds CommitEffects CanonicalStore DeletionFlows
open FlowInvariants IdleFlows FlowAuthority AtomicCorrections HttpRoutes Resolver Engine Gateway
open NodeRuns

/-- Corrections over HTTP, each of the record that the one before it has made: the rows of the
replacements when they have been made, and the world after the last. -/
inductive Chain (s : Strata) : World Memory → RecordId → List MemoryRecord → World Memory → Prop where
  | nil (w : World Memory) (oldId : RecordId) : Chain s w oldId [] w
  | post {w u t : World Memory} {oldId : RecordId} {body : Body} {content : String}
      {reply row : MemoryRecord} {rows : List MemoryRecord}
      (request : dispatch "/supersede_memory" body =
        .ok ⟨.supersedeMemory, [.int oldId, .str content], []⟩)
      (replied : (s.supersedeMemory oldId content).run w = (.ok reply, u))
      (stored : u.db.readOne reply.id = some row) (tail : Chain s u reply.id rows t) :
      Chain s w oldId (row :: rows) t

/-- Each replacement is at least as restricted as the record it replaces, and no recall shows
a correction of a sensitive or secret record. -/
structure KeepsProtection (s : Strata) (start : MemoryRecord) (rows : List MemoryRecord)
    (t : World Memory) : Prop where
  restricted : (start :: rows).IsChain fun old new =>
    Sensitivity.order old.sensitivity ≤ Sensitivity.order new.sensitivity
  hidden : start.sensitivity = .sensitive ∨ start.sensitivity = .secret →
    ∀ query topK diversity c, ∀ e ∈ (s.recall t query topK diversity).entries c,
      e.id ∉ rows.map MemoryRecord.id

section Posts
variable {s : Strata} {w : World Memory} {oldId : RecordId}

theorem supersede_stores (hold : (w.db.readOne oldId).isSome = true) (content : String) :
    ∃ reply row, (s.supersedeMemory oldId content).run w =
        (.ok reply, after s w (.supersedeMemory oldId content {})) ∧
      reply.id = createdId {} w ∧
      (after s w (.supersedeMemory oldId content {})).db.readOne reply.id = some row ∧
      row.content = content ∧ row.sensitivity = .normal := by
  obtain ⟨r, u, hcreate, hmade, hdb⟩ := made s.engine.platform content {} w
  have hcorrectable : Correctable u oldId r.id := .inr (hdb ▸ hold)
  obtain ⟨reply, z, hsame, _, hrun⟩ := correct_linked (e := s.engine) hcorrectable
  obtain ⟨found, _, _, hfound, hrows⟩ := write_supplied r u
  have hafter : after s w (.supersedeMemory oldId content {}) = (s.engine.correct oldId r).final u :=
    after_supersede oldId hcreate
  have hreply : (s.supersedeMemory oldId content).run w =
      (.ok reply, after s w (.supersedeMemory oldId content {})) := by
    rw [hafter, Proc.final_of_run hrun]
    exact (Proc.run_bind_ok hcreate).trans hrun
  obtain ⟨hid, _, _⟩ := fields_of_supplied hsame
  obtain ⟨_, hcontent, hsensitivity⟩ := fields_of_supplied hfound
  have hread : (after s w (.supersedeMemory oldId content {})).db.readOne =
      Function.update (Function.update u.db.readOne r.id (some found)) oldId
        ((Function.update u.db.readOne r.id (some found) oldId).map fun old =>
          { old with status := .superseded, updatedAt := (apply (.write r) u).now }) := by
    rw [hafter, readOne_correct s.engine oldId hrows]
  have hrow : ∃ row, (after s w (.supersedeMemory oldId content {})).db.readOne r.id = some row ∧
      row.content = found.content ∧ row.sensitivity = found.sensitivity := by
    rw [hread]
    by_cases hself : r.id = oldId
    · rw [← hself, Function.update_self, Function.update_self]
      exact ⟨_, rfl, rfl, rfl⟩
    · rw [Function.update_of_ne hself, Function.update_self]
      exact ⟨_, rfl, rfl, rfl⟩
  obtain ⟨row, hstored, htext, hclass⟩ := hrow
  refine ⟨reply, row, hreply, hid.trans hmade.id, hid ▸ hstored, ?_, ?_⟩
  · rw [htext, hcontent, hmade.content]
  · rw [hclass, hsensitivity, hmade.sensitivity]

def correctionBody (oldId : RecordId) (content : String) : Body :=
  (Table.set ∅ "old_id" (.int oldId)).set "content" (.str content)

theorem dispatch_correctionBody (oldId : RecordId) (content : String) :
    dispatch "/supersede_memory" (correctionBody oldId content) =
      .ok ⟨.supersedeMemory, [.int oldId, .str content], []⟩ :=
  dispatch_supersede.mpr ⟨_, _, (Table.get?_set_of_ne _ _ (by decide)).trans
    (Table.get?_set_self _ _ _), Table.get?_set_self _ _ _, rfl⟩

theorem chain_exists (contents : List String) (hold : (w.db.readOne oldId).isSome = true) :
    ∃ rows t, Chain s w oldId rows t ∧ rows.map MemoryRecord.content = contents := by
  induction contents generalizing w oldId with
  | nil => exact ⟨[], w, .nil w oldId, rfl⟩
  | cons content contents ih =>
    obtain ⟨reply, row, hreplied, _, hstored, hcontent, _⟩ := supersede_stores (s := s) hold content
    obtain ⟨rows, t, htail, hcontents⟩ := ih (Option.isSome_iff_exists.mpr ⟨row, hstored⟩)
    refine ⟨row :: rows, t, ?_, ?_⟩
    · exact .post (dispatch_correctionBody oldId content) hreplied hstored htail
    · rw [List.map_cons, hcontent, hcontents]

theorem chain_normal {rows : List MemoryRecord} {t : World Memory} (h : Chain s w oldId rows t)
    (hold : (w.db.readOne oldId).isSome = true) : ∀ row ∈ rows, row.sensitivity = .normal := by
  induction h with
  | nil => exact List.forall_mem_nil _
  | @post w u t oldId body content reply row rows request replied stored tail ih =>
    obtain ⟨_, found, hreplied, _, hstored, _, hnormal⟩ := supersede_stores (s := s) hold content
    cases replied.symm.trans hreplied
    cases stored.symm.trans hstored
    exact List.forall_mem_cons.mpr ⟨hnormal, ih (Option.isSome_iff_exists.mpr ⟨row, stored⟩)⟩

end Posts

theorem order_le_normal {c : Sensitivity} :
    Sensitivity.order c ≤ Sensitivity.order .normal ↔ c = .normal := by
  cases c <;> decide

theorem restricted_iff {start : MemoryRecord} {rows : List MemoryRecord} (hrows : rows ≠ [])
    (hnormal : ∀ row ∈ rows, row.sensitivity = .normal) :
    ((start :: rows).IsChain fun old new =>
      Sensitivity.order old.sensitivity ≤ Sensitivity.order new.sensitivity) ↔
      start.sensitivity = .normal := by
  constructor
  · intro h
    cases rows with
    | nil => exact absurd rfl hrows
    | cons row rows =>
      have hstep := (List.isChain_cons_cons.mp h).1
      rwa [hnormal row List.mem_cons_self, order_le_normal] at hstep
  · intro hstart
    have hall : ∀ row ∈ start :: rows, row.sensitivity = .normal :=
      List.forall_mem_cons.mpr ⟨hstart, hnormal⟩
    refine (List.pairwise_of_forall_mem_list fun old hold new hnew => ?_).isChain
    rw [hall old hold, hall new hnew]

/-- A chain of corrections keeps the protection of the record it starts at if and only if that
record has none; each replacement passes the filter of recall. -/
theorem corrections_protected_iff (s : Strata) {w t : World Memory} {oldId : RecordId}
    {start : MemoryRecord} {rows : List MemoryRecord} (hstart : w.db.readOne oldId = some start)
    (hrows : rows ≠ []) (hchain : Chain s w oldId rows t) :
    (KeepsProtection s start rows t ↔ start.sensitivity = .normal) ∧
      ∀ row ∈ rows, s.engine.policy.canRecall row = true := by
  have hnormal := chain_normal hchain (Option.isSome_iff_exists.mpr ⟨start, hstart⟩)
  refine ⟨⟨fun h => (restricted_iff hrows hnormal).mp h.restricted, fun h => ?_⟩, fun row hrow => ?_⟩
  · refine ⟨(restricted_iff hrows hnormal).mpr h, fun hclass => ?_⟩
    rw [h] at hclass
    rcases hclass with hclass | hclass <;> cases hclass
  · unfold SensitivityPolicy.canRecall
    rw [hnormal row hrow]
    exact decide_eq_true (Nat.zero_le _)

theorem corrections_protected_normal :
    let w := runCalls plainStrata plainWorld [.writeMemory "tea" {}]
    ∃ start rows t, w.db.readOne 1 = some start ∧ rows.map MemoryRecord.content = ["milk", "water"] ∧
      KeepsProtection plainStrata start rows t := by
  intro w
  have hclass : (w.db.readOne 1).map MemoryRecord.sensitivity = some .normal := by decide
  obtain ⟨start, hstart, hnormal⟩ := Option.map_eq_some_iff.mp hclass
  obtain ⟨rows, t, hchain, hcontents⟩ := chain_exists (s := plainStrata) ["milk", "water"]
    (Option.isSome_iff_exists.mpr ⟨start, hstart⟩ : (w.db.readOne 1).isSome = true)
  have hrows : rows ≠ [] := by
    rintro rfl
    cases hcontents
  refine ⟨start, rows, t, hstart, hcontents, ?_⟩
  exact (corrections_protected_iff plainStrata hstart hrows hchain).1.mpr hnormal

/-- A secret is corrected over HTTP, and the next recall shows the correction. -/
theorem corrected_secret_recalled :
    let w := runCalls plainStrata plainWorld [.writeMemory "tea" { sensitivity := .secret }]
    let t := after plainStrata w (.supersedeMemory 1 "milk" {})
    ∃ start row, w.db.readOne 1 = some start ∧ start.sensitivity = .secret ∧
      Chain plainStrata w 1 [row] t ∧
      ((plainStrata.recall t "milk").currentBeliefs.map fun e => (e.id, e.claim)) =
        [(row.id, "milk")] ∧ ¬ KeepsProtection plainStrata start [row] t := by
  intro w t
  have hclass : (w.db.readOne 1).map MemoryRecord.sensitivity = some .secret := by decide
  obtain ⟨start, hstart, hsecret⟩ := Option.map_eq_some_iff.mp hclass
  have hold : (w.db.readOne 1).isSome = true := Option.isSome_iff_exists.mpr ⟨start, hstart⟩
  obtain ⟨reply, row, hreplied, hid, hstored, _, _⟩ := supersede_stores (s := plainStrata) hold "milk"
  have hrow : row.id = 2 := by
    rw [Db.readOne_id hstored, hid]
    decide
  have hchain : Chain plainStrata w 1 [row] t :=
    .post (dispatch_correctionBody 1 "milk") hreplied hstored (.nil t reply.id)
  have hshown : ((plainStrata.recall t "milk").currentBeliefs.map fun e => (e.id, e.claim)) =
      [(2, "milk")] := by decide +kernel
  refine ⟨start, row, hstart, hsecret, hchain, hrow ▸ hshown, fun h => ?_⟩
  have hentry : (plainStrata.recall t "milk").currentBeliefs.map BundleEntry.id = [2] := by
    decide +kernel
  obtain ⟨e, he, heid⟩ := List.mem_map.mp (hentry ▸ List.mem_singleton_self (2 : RecordId))
  refine h.hidden (.inr hsecret) "milk" 10 false .currentBelief e he ?_
  rw [heid, List.map_singleton, hrow]
  exact List.mem_singleton_self _

end StrataMemory.ProtectedCorrections
