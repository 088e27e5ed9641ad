import StrataMemory.FlowInvariants
import StrataMemory.WaitingQueue

set_option autoImplicit false

/-! The indexes hold what the rows say. A row that has just been written is ahead of its
posting and of its vectors; posting it and upserting it bring them level again, and
nothing else puts a text anywhere. -/
namespace StrataMemory.IndexAgreement
open KeyedTables Records Tables Procedures Worlds CommitEffects Coordinator CanonicalStore
open ManagedSurfaces DeletionFlows DeletionMachine DeletionInvariants FlowInvariants
open Reorderings StoreRefinement WaitingQueue VectorStore Engine Gateway NodeRuns

abbrev Texts := RecordId → Option (String × String)

def textOf (db : Db) : Texts := fun id => (db.readOne id).map fun r => (r.content, r.contentHash)

/-- The postings of rows hold their content, but for the ids in `P`. -/
def PostingsAgree (P : RecordId → Prop) (texts : Texts) (postings : Table RecordId String) : Prop :=
  ∀ id, ¬ P id → ∀ text posted, texts id = some text → postings.get? id = some posted →
    posted = text.1

/-- The live entries of rows have their hash, but for the stores and ids in `V`. -/
def VectorsAgree (V : String → RecordId → Prop) (texts : Texts) (generation : ℤ)
    (stores : String → Contents) : Prop :=
  ∀ name id, ¬ V name id → ∀ text rec, texts id = some text →
    (stores name).entries (id, generation) = some rec → (stores name).deleted id = false →
    rec.contentHash = text.2

section Agreement
variable {P Q : RecordId → Prop} {V U : String → RecordId → Prop} {texts others : Texts}
  {postings posted : Table RecordId String} {generation : ℤ} {stores : String → Contents}

theorem PostingsAgree.recede (h : PostingsAgree P texts postings)
    (htexts : ∀ id x, others id = some x → texts id = some x)
    (hposted : ∀ id x, posted.get? id = some x → postings.get? id = some x) :
    PostingsAgree P others posted := fun id hid text x htext hx =>
  h id hid text x (htexts id text htext) (hposted id x hx)

theorem PostingsAgree.post (h : PostingsAgree P texts postings) {id : RecordId}
    {text : String × String} (hrow : texts id = some text) :
    PostingsAgree (fun i => P i ∧ i ≠ id) texts (postings.set id text.1) := by
  intro i hi other x htext hx
  rw [Table.get?_set] at hx
  split at hx
  · rename_i hsame
    subst hsame
    cases hrow.symm.trans htext
    cases hx
    rfl
  · rename_i hne
    exact h i (fun hp => hi ⟨hp, fun hsame => hne hsame.symm⟩) other x htext hx

theorem VectorsAgree.recede (h : VectorsAgree V texts generation stores)
    (htexts : ∀ id x, others id = some x → texts id = some x) :
    VectorsAgree V others generation stores := fun name id hid text rec htext =>
  h name id hid text rec (htexts id text htext)

theorem VectorsAgree.remove (h : VectorsAgree V texts generation stores) {op : Operation}
    (hop : op.opType = .removeIndex) {target : String} (htarget : op.target = some target) :
    VectorsAgree V texts generation (act op stores) := by
  rw [act_target htarget]
  intro name id hid text rec htext hentry hlive
  by_cases hname : name = target
  · subst hname
    rw [Function.update_self] at hentry hlive
    simp only [applied, hop, Contents.remove, Bool.or_eq_false_iff] at hentry hlive
    exact h name id hid text rec htext hentry hlive.2
  · rw [Function.update_of_ne hname] at hentry hlive
    exact h name id hid text rec htext hentry hlive

theorem VectorsAgree.upsert (h : VectorsAgree V texts generation stores) {op : Operation}
    (hop : op.opType = .upsertIndex) {target : String} (htarget : op.target = some target)
    {rec : VectorRecord} (hrecords : op.records = [rec])
    (hgeneration : rec.embeddingGeneration = generation) {text : String × String}
    (hrow : texts rec.id = some text) (hhash : rec.contentHash = text.2) :
    VectorsAgree (fun name id => V name id ∧ ¬ (name = target ∧ id = rec.id)) texts generation
      (act op stores) := by
  have happlied : applied op (stores target) = (stores target).upsert [rec] := by
    unfold applied
    rw [hop, hrecords]
  rw [act_target htarget, happlied]
  intro name id hid other found htext hentry hlive
  by_cases hname : name = target
  · subst hname
    rw [Function.update_self] at hentry hlive
    by_cases hsame : id = rec.id
    · subst hsame
      cases hrow.symm.trans htext
      have hkey : key rec = (rec.id, generation) := by rw [← hgeneration]; rfl
      have hfound : rec = found := by simpa [Contents.upsert, hkey] using hentry
      rw [← hfound]
      exact hhash
    · have hkey : key rec ≠ (id, generation) := fun hk => hsame (congrArg Prod.fst hk).symm
      simp only [Contents.upsert, List.reverse_singleton, List.find?_singleton, List.any_cons,
        List.any_nil] at hentry hlive
      rw [if_neg (by simpa using hkey)] at hentry
      have hid' : rec.id ≠ id := fun hk => hsame hk.symm
      exact h name id (fun hv => hid ⟨hv, fun hboth => hsame hboth.2⟩) other found htext hentry
        (by simpa [hid'] using hlive)
  · rw [Function.update_of_ne hname] at hentry hlive
    exact h name id (fun hv => hid ⟨hv, fun hboth => hname hboth.1⟩) other found htext hentry hlive

end Agreement

structure Agrees (e : MemoryEngine) (P : RecordId → Prop) (V : String → RecordId → Prop)
    (w : World Memory) : Prop where
  ready : Ready e w
  posting : PostingsAgree P (textOf w.db) w.db.postings
  vector : VectorsAgree V (textOf w.db) w.memory.activeGeneration (pending w)

structure Level (e : MemoryEngine) (P : RecordId → Prop) (V : String → RecordId → Prop)
    (w : World Memory) : Prop extends Agrees e P V w where
  idle : backlog w = 0

/-- All that the engine looks after agrees. -/
abbrev Settled (e : MemoryEngine) : World Memory → Prop :=
  Level e (fun _ => False) fun name _ => name ∉ e.vectorNames

section Worlds
variable {e : MemoryEngine} {P : RecordId → Prop} {V : String → RecordId → Prop}
  {w t : World Memory}

theorem textOf_same (h : t.db.canonical = w.db.canonical) : textOf t.db = textOf w.db := by
  unfold textOf Db.readOne
  rw [h]

theorem Agrees.advance (h : Agrees e P V w) {n : ℕ} (hn : backlog w ≤ n)
    (hadvanced : Advanced e n w t) : Level e P V t where
  ready := hadvanced.ready
  posting := by
    rw [textOf_same hadvanced.tables.canonical, hadvanced.tables.postings]
    exact h.posting
  vector := by
    rw [textOf_same hadvanced.tables.canonical, hadvanced.tables.generation, hadvanced.pending]
    exact h.vector
  idle := by rw [hadvanced.backlog, Nat.sub_eq_zero_of_le hn]

theorem Level.recede (h : Level e P V w) (hqueue : SameQueue w t)
    (hgeneration : t.memory.activeGeneration = w.memory.activeGeneration)
    (htexts : ∀ id x, textOf t.db id = some x → textOf w.db id = some x)
    (hposted : ∀ id x, t.db.postings.get? id = some x → w.db.postings.get? id = some x) :
    Level e P V t where
  ready := hqueue.ready h.ready
  posting := h.posting.recede htexts hposted
  vector := by
    rw [hgeneration, hqueue.pending]
    exact h.vector.recede htexts
  idle := hqueue.backlog.trans h.idle

theorem textOf_update {db : Db} {id : RecordId} {f : MemoryRecord → MemoryRecord}
    (hf : ∀ r, (f r).content = r.content ∧ (f r).contentHash = r.contentHash) (other : RecordId) :
    ((db.canonical.records.modify id f).get? other).map (fun r => (r.content, r.contentHash)) =
      textOf db other := by
  rw [Table.get?_modify]
  unfold textOf Db.readOne
  split
  · rename_i h
    subst h
    rw [Option.map_map]
    refine congrArg (fun g => Option.map g _) (funext fun r => ?_)
    exact Prod.ext (hf r).1 (hf r).2
  · rfl

theorem textOf_setStatus (id : RecordId) (status : Status) (w : World Memory) :
    textOf (apply (.setStatus id status) w).db = textOf w.db :=
  funext (textOf_update fun _ => ⟨rfl, rfl⟩)

theorem textOf_tombstone (id : RecordId) (mode : DeletionMode) (jobId : OpId)
    (state : DeletionState) (w : World Memory) :
    textOf (apply (.tombstone id mode jobId state) w).db = textOf w.db :=
  funext (textOf_update fun _ => ⟨rfl, rfl⟩)

theorem textOf_addDependency (parentId childId : RecordId) (rel : Relation) (w : World Memory) :
    textOf (apply (.addDependency parentId childId rel) w).db = textOf w.db := by
  unfold textOf
  rw [readOne_addDependency]

theorem textOf_hardDelete {id other : RecordId} {x : String × String}
    (h : textOf (apply (.hardDelete id) w).db other = some x) : textOf w.db other = some x := by
  change ((w.db.canonical.records.erase id).get? other).map _ = some x at h
  rw [Table.get?_erase] at h
  split at h
  · cases h
  · exact h

theorem textOf_row {db : Db} {r : MemoryRecord} (h : db.readOne r.id = some r) :
    textOf db r.id = some (r.content, r.contentHash) :=
  congrArg (Option.map fun r : MemoryRecord => (r.content, r.contentHash)) h

theorem write_row (r : MemoryRecord) (w : World Memory) :
    ∃ row, (CanonicalStore.write r : Prog Memory MemoryRecord).run w = (.ok row, apply (.write r) w) ∧
      (apply (.write r) w).db.readOne = Function.update w.db.readOne r.id (some row) ∧
      row.id = r.id ∧ row.status = r.status ∧ row.contentHash = r.contentHash := by
  obtain ⟨row, hrun, hrow, hid⟩ := write_run r w
  rw [hid] at hrow
  obtain ⟨_, hstatus, hsame⟩ := readOne_write_self w r
  obtain ⟨_, htext, hcontent⟩ := readOne_write_text w r
  cases hrow.symm.trans hstatus
  cases hrow.symm.trans htext
  refine ⟨row, hrun, funext fun id => ?_, hid, hsame, congrArg Prod.snd hcontent⟩
  by_cases h : id = r.id
  · subst h
    rw [Function.update_self]
    exact hrow
  · rw [Function.update_of_ne h]
    exact readOne_write_of_ne (Ne.symm h)

theorem edgeAllowed_corrected (r : MemoryRecord) (oldId : RecordId) (status : Status)
    (w : World Memory) :
    (apply (.setStatus oldId status) (apply (.write r) w)).db.canonical.edgeAllowed r.id oldId =
      (decide (oldId = r.id) || (w.db.readOne oldId).isSome) := by
  obtain ⟨row, _, hrows, _⟩ := write_row r w
  rw [edgeAllowed_setStatus]
  change (((apply (.write r) w).db.readOne r.id).isSome &&
    ((apply (.write r) w).db.readOne oldId).isSome) = _
  rw [hrows, Function.update_self, Option.isSome_some, Bool.true_and]
  by_cases hsame : oldId = r.id
  · rw [hsame, Function.update_self, decide_eq_true rfl, Option.isSome_some, Bool.true_or]
  · rw [Function.update_of_ne hsame, decide_eq_false hsame, Bool.false_or]

theorem Settled.write (h : Settled e w) (r : MemoryRecord) :
    Level e (· = r.id) (fun name id => name ∉ e.vectorNames ∨ id = r.id) (apply (.write r) w) where
  ready := (⟨rfl, Nat.le_refl _, rfl, rfl⟩ : SameQueue w (apply (.write r) w)).ready h.ready
  posting id hid text posted htext hposted := by
    have hother : textOf w.db id = some text := by
      unfold textOf at htext ⊢
      rwa [readOne_write_of_ne (Ne.symm hid)] at htext
    exact h.posting id (fun hfalse => hfalse) text posted hother hposted
  vector name id hid text rec htext hentry hlive := by
    have hother : textOf w.db id = some text := by
      unfold textOf at htext ⊢
      rwa [readOne_write_of_ne fun hsame => hid (.inr hsame.symm)] at htext
    exact h.vector name id (fun hname => hid (.inl hname)) text rec hother hentry hlive
  idle := h.idle

theorem Level.index (h : Level e P V w) {r : MemoryRecord}
    (hrow : textOf w.db r.id = some (r.content, r.contentHash)) :
    Level e (fun id => P id ∧ id ≠ r.id) V (apply (.indexPosting r.id r.content) w) where
  ready := ⟨h.ready.waiting, h.ready.fresh, h.ready.faultless⟩
  posting := h.posting.post hrow
  vector := h.vector
  idle := h.idle

theorem Level.rebuild (h : Level e P V w) : Level e P V (apply .rebuildPostings w) where
  ready := ⟨h.ready.waiting, h.ready.fresh, h.ready.faultless⟩
  posting id _ text posted htext hposted := by
    have hposted' : (w.db.canonical.records.mapValues MemoryRecord.content).get? id = some posted :=
      hposted
    rw [Table.get?_mapValues] at hposted'
    obtain ⟨r, hr, rfl⟩ := Option.map_eq_some_iff.mp hposted'
    have hrow : textOf w.db id = some (r.content, r.contentHash) :=
      congrArg (Option.map fun r : MemoryRecord => (r.content, r.contentHash)) hr
    cases hrow.symm.trans htext
    rfl
  vector := h.vector
  idle := h.idle

end Worlds
end StrataMemory.IndexAgreement
