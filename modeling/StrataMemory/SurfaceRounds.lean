import StrataMemory.CommitEffects
import StrataMemory.CoordinatorRuns
import StrataMemory.DeletionFlows

set_option autoImplicit false

namespace StrataMemory.SurfaceRounds
open KeyedTables Records Tables Procedures Worlds CommitEffects Coordinator CoordinatorRuns
open ManagedSurfaces DeletionFlows

variable {V : Type}

structure IndexOnly (s : ManagedSurface V) : Prop where
  remove_uses : ∀ ids, (s.remove ids).Uses fun c => isIndexWork c = true
  absent_uses : ∀ id, (s.absent id).Uses fun c => isIndexWork c = true

/-- It also answers for each id and does not raise. -/
structure Lawful (s : ManagedSurface V) : Prop extends IndexOnly s where
  remove_answers : ∀ ids w, ∃ b : RecordId → Bool,
    ((s.remove ids).run w).1 = .ok (ids.map fun i => (i, b i))
  absent_answers : ∀ id w, ∃ b, ((s.absent id).run w).1 = .ok b

theorem Lawful.remove_returns {s : ManagedSurface V} (hs : Lawful s) (ids : List RecordId) :
    (s.remove ids).Returns :=
  fun w => (hs.remove_answers ids w).imp' _ fun _ h => h

theorem Lawful.absent_returns {s : ManagedSurface V} (hs : Lawful s) (id : RecordId) :
    (s.absent id).Returns :=
  hs.absent_answers id

theorem Lawful.absent_run {s : ManagedSurface V} (hs : Lawful s) (id : RecordId) (w : World V) :
    ∃ b u, (s.absent id).run w = (.ok b, u) ∧ authority u = authority w := by
  obtain ⟨b, hb⟩ := hs.absent_answers id w
  exact ⟨b, _, Prod.ext hb rfl, authority_final (hs.absent_uses id) w⟩

theorem removePostings_uses (ids : List RecordId) :
    (CanonicalStore.removePostings ids : Prog V Unit).Uses fun c => isIndexWork c = true := by
  unfold CanonicalStore.removePostings
  split
  · trivial
  · exact (uses_commit _ _).mpr rfl

theorem removePostings_returns (ids : List RecordId) :
    (CanonicalStore.removePostings ids : Prog V Unit).Returns := by
  unfold CanonicalStore.removePostings
  split
  · exact Proc.Returns.pure _
  · exact returns_commit _

theorem lawful_lexical : Lawful (lexicalSurface : ManagedSurface V) where
  remove_uses ids := (removePostings_uses ids).bind fun _ => uses_query _ _
  absent_uses id := uses_query _ fun db => !db.hasPosting id
  remove_answers ids w := by
    obtain ⟨_, h⟩ := (removePostings_returns ids).run w
    change ∃ b, ((CanonicalStore.removePostings ids >>= fun _ => query _ : Prog V Acks).run w).1 = _
    rw [Proc.run_bind_ok h]
    exact ⟨_, rfl⟩
  absent_answers _ _ := ⟨_, rfl⟩

theorem lawful_memory (name : String) (remove : List RecordId → V → V)
    (contains : V → RecordId → Bool) : Lawful (memorySurface name remove contains) where
  remove_uses _ := Proc.Uses.bind ((uses_commit _ _).mpr rfl) fun _ => Proc.uses_read _ _
  absent_uses _ := Proc.uses_read _ _
  remove_answers _ _ := ⟨_, rfl⟩
  absent_answers _ _ := ⟨_, rfl⟩

/-- A removal through the queue drains it, and then looks at what is left. -/
theorem coordinated_remove_run (coord : WriteCoordinator V) (name : String)
    (contains : V → RecordId → Bool) (ids : List RecordId) (w : World V) :
    let queued := apply (.enqueue ⟨.removeIndex, ids, some name, none, none, w.operationIds⟩)
      (apply .newOperationId w)
    let t := (drain coord maxSteps).final queued
    ((coordinatedVectorSurface coord name contains).remove ids).run w =
      (.ok (ids.map fun i => (i, !contains t.memory i)), t) := by
  intro queued t
  obtain ⟨_, h⟩ := (drain_returns coord maxSteps).run queued
  refine (Proc.run_bind_ok (run_newOperationId w)).trans ?_
  refine (Proc.run_bind_ok (t := queued) rfl).trans ?_
  exact (Proc.run_bind_ok h).trans (Proc.run_read _ t)

theorem lawful_coordinated (coord : WriteCoordinator V) (name : String)
    (contains : V → RecordId → Bool) : Lawful (coordinatedVectorSurface coord name contains) where
  remove_uses ids := by
    refine Proc.Uses.bind ((uses_newOperationId _).mpr rfl) fun opId => ?_
    refine Proc.Uses.bind ((uses_enqueue _ _).mpr rfl) fun _ => ?_
    refine Proc.Uses.bind ?_ fun applied => Proc.uses_read _ _
    exact (drain_uses coord maxSteps).mono fun c => isIndexWork_of_isQueueWork
  absent_uses _ := Proc.uses_read _ _
  remove_answers ids w := ⟨_, congrArg Prod.fst (coordinated_remove_run coord name contains ids w)⟩
  absent_answers _ _ := ⟨_, rfl⟩

theorem coordinated_remove_final (coord : WriteCoordinator V) (name : String)
    (contains : V → RecordId → Bool) (ids : List RecordId) (w : World V) :
    ((coordinatedVectorSurface coord name contains).remove ids).final w =
      (drain coord maxSteps).final
        (apply (.enqueue ⟨.removeIndex, ids, some name, none, none, w.operationIds⟩)
          (apply .newOperationId w)) :=
  Proc.final_of_run (coordinated_remove_run coord name contains ids w)

def isPurgeWork : Commit V → Bool
  | .surfaceRemove _ => true
  | c => isIndexWork c

theorem isPurgeWork_of_isIndexWork {c : Commit V} (h : isIndexWork c = true) :
    isPurgeWork c = true := by
  cases c <;> first | rfl | exact h

theorem purgeInto_uses {registry : Registry V} (hr : ∀ s ∈ registry, Lawful s)
    (ids : List RecordId) (report : Report) :
    (purgeInto ids registry report).Uses fun c => isPurgeWork c = true := by
  induction registry generalizing report with
  | nil => trivial
  | cons s rest ih =>
    refine Proc.Uses.bind ((Proc.uses_perform _ _).mpr rfl) fun _ => ?_
    refine Proc.Uses.bind ?_ fun perId => ih (fun t ht => hr t (List.mem_cons_of_mem _ ht)) _
    exact ((hr s List.mem_cons_self).remove_uses ids).mono fun _ => isPurgeWork_of_isIndexWork

theorem authority_purgeWork {α : Type} {p : Prog V α} (hp : p.Uses fun c => isPurgeWork c = true)
    (w : World V) : authority (p.final w) = authority w := by
  refine hp.run (R := fun s t => authority t = authority s) (fun _ => rfl)
    (fun _ _ _ h h' => h'.trans h) (fun c s hc => ?_) w
  cases c <;> first | rfl | cases hc

theorem authority_purge {registry : Registry V} (hr : ∀ s ∈ registry, Lawful s)
    (ids : List RecordId) (w : World V) :
    authority ((purge registry ids).final w) = authority w :=
  authority_purgeWork (purgeInto_uses hr ids ∅) w

theorem purgeInto_returns {registry : Registry V} (hr : ∀ s ∈ registry, Lawful s)
    (ids : List RecordId) (report : Report) : (purgeInto ids registry report).Returns := by
  induction registry generalizing report with
  | nil => exact Proc.Returns.pure _
  | cons s rest ih =>
    refine Proc.Returns.bind (returns_commit _) fun _ => ?_
    exact ((hr s List.mem_cons_self).remove_returns ids).bind fun perId =>
      ih (fun t ht => hr t (List.mem_cons_of_mem _ ht)) _

/-- Each surface in turn is asked about each id and answers that it is absent. -/
inductive AnswersAbsent : List (ManagedSurface V × RecordId) → World V → World V → Prop where
  | nil (w : World V) : AnswersAbsent [] w w
  | cons {s : ManagedSurface V} {id : RecordId} {rest : List (ManagedSurface V × RecordId)}
      {w v u : World V} (answer : (s.absent id).run w = (.ok true, v))
      (tail : AnswersAbsent rest v u) : AnswersAbsent ((s, id) :: rest) w u

theorem AnswersAbsent.append {xs ys : List (ManagedSurface V × RecordId)} {w v u : World V}
    (hx : AnswersAbsent xs w v) (hy : AnswersAbsent ys v u) : AnswersAbsent (xs ++ ys) w u := by
  induction hx with
  | nil w => exact hy
  | cons answer _ ih => exact .cons answer (ih hy)

def questions (registry : Registry V) (ids : List RecordId) : List (ManagedSurface V × RecordId) :=
  registry.flatMap fun s => ids.map fun i => (s, i)

theorem absences_run {s : ManagedSurface V} (hs : Lawful s) (ids : List RecordId) (w : World V) :
    ∃ acks u, (absences s ids).run w = (.ok acks, u) ∧ authority u = authority w ∧
      (acks.all Prod.snd = true → AnswersAbsent (ids.map fun i => (s, i)) w u) := by
  induction ids generalizing w with
  | nil => exact ⟨[], w, rfl, rfl, fun _ => .nil w⟩
  | cons id rest ih =>
    obtain ⟨b, v, hv, hauth⟩ := hs.absent_run id w
    obtain ⟨acks, u, hu, hauth', hall⟩ := ih v
    refine ⟨(id, b) :: acks, u, ?_, hauth'.trans hauth, ?_⟩
    · change ((s.absent id) >>= fun answer => absences s rest >>= fun answers =>
        pure ((id, answer) :: answers)).run w = _
      rw [Proc.run_bind_ok hv, Proc.run_bind_ok hu]
      rfl
    · intro h
      rw [List.all_cons, Bool.and_eq_true] at h
      obtain ⟨hb, hrest⟩ := h
      have hb' : b = true := hb
      subst hb'
      exact .cons hv (hall hrest)

theorem verifyInto_run {registry : Registry V} (hr : ∀ s ∈ registry, Lawful s)
    (hnames : (registry.map ManagedSurface.name).Nodup) (ids : List RecordId) (report : Report)
    (hfresh : ∀ s ∈ registry, report.contains s.name = false) (w : World V) :
    ∃ out u, (verifyInto ids registry report).run w = (.ok out, u) ∧ authority u = authority w ∧
      (out.allTrue = true → report.allTrue = true ∧ AnswersAbsent (questions registry ids) w u) := by
  induction registry generalizing report w with
  | nil => exact ⟨report, w, rfl, rfl, fun h => ⟨h, .nil w⟩⟩
  | cons s rest ih =>
    rw [List.map_cons, List.nodup_cons] at hnames
    obtain ⟨acks, v, hv, hauth, hall⟩ := absences_run (hr s List.mem_cons_self) ids w
    have hfresh' : ∀ t ∈ rest, (report.set s.name acks).contains t.name = false := by
      intro t ht
      have hne : ¬ s.name = t.name := fun h => hnames.1 (h ▸ List.mem_map_of_mem ht)
      rw [Table.contains_set, hfresh t (List.mem_cons_of_mem _ ht)]
      simpa using hne
    obtain ⟨out, u, hu, hauth', hout⟩ :=
      ih (fun t ht => hr t (List.mem_cons_of_mem _ ht)) hnames.2 _ hfresh' v
    refine ⟨out, u, ?_, hauth'.trans hauth, fun h => ?_⟩
    · change ((absences s ids) >>= fun perId =>
        verifyInto ids rest (report.set s.name perId)).run w = _
      rw [Proc.run_bind_ok hv, hu]
    · obtain ⟨hset, hrest⟩ := hout h
      unfold Report.allTrue at hset
      rw [Table.values_set_of_not_contains _ _ _ (hfresh s List.mem_cons_self),
        List.all_append, Bool.and_eq_true] at hset
      refine ⟨hset.1, ?_⟩
      exact (hall (by simpa using hset.2)).append hrest

theorem absences_uses {P : Commit V → Prop} {s : ManagedSurface V}
    (habsent : ∀ id, (s.absent id).Uses P) (ids : List RecordId) : (absences s ids).Uses P := by
  induction ids with
  | nil => trivial
  | cons id ids ih => exact (habsent id).bind fun answer => ih.bind fun answers => trivial

theorem verifyInto_uses {P : Commit V → Prop} {registry : Registry V}
    (habsent : ∀ s ∈ registry, ∀ id, (s.absent id).Uses P) (ids : List RecordId)
    (report : Report) : (verifyInto ids registry report).Uses P := by
  induction registry generalizing report with
  | nil => trivial
  | cons s rest ih =>
    exact (absences_uses (habsent s List.mem_cons_self) ids).bind fun perId =>
      ih (fun t ht => habsent t (List.mem_cons_of_mem _ ht)) _

theorem absences_returns {s : ManagedSurface V} (hs : Lawful s) (ids : List RecordId) :
    (absences s ids).Returns := by
  induction ids with
  | nil => exact Proc.Returns.pure _
  | cons id ids ih =>
    exact (hs.absent_returns id).bind fun answer => ih.bind fun answers => Proc.Returns.pure _

theorem verifyInto_returns {registry : Registry V} (hr : ∀ s ∈ registry, Lawful s)
    (ids : List RecordId) (report : Report) : (verifyInto ids registry report).Returns := by
  induction registry generalizing report with
  | nil => exact Proc.Returns.pure _
  | cons s rest ih =>
    exact (absences_returns (hr s List.mem_cons_self) ids).bind fun perId =>
      ih (fun t ht => hr t (List.mem_cons_of_mem _ ht)) _

/-- No row of any canonical table is left for the id. -/
structure Erased (c : Canonical) (id : RecordId) : Prop where
  record : c.records.contains id = false
  version : ∀ v ∈ c.versions, v.recordId ≠ id
  dependency : ∀ d ∈ c.dependencies, d.parentId ≠ id ∧ d.childId ≠ id
  span : ∀ s ∈ c.sourceSpans, s.recordId ≠ id

theorem erased_of_missing {c : Canonical} {id : RecordId} (h : c.records.contains id = false) :
    Erased c id where
  record := h
  version v hv he := by
    rw [← he, c.version_fk v hv] at h
    cases h
  dependency d hd := by
    constructor
    · intro he
      rw [← he, (c.dependency_fk d hd).1] at h
      cases h
    · intro he
      rw [← he, (c.dependency_fk d hd).2] at h
      cases h
  span s hs he := by
    rw [← he, c.span_fk s hs] at h
    cases h

/-- What `canonicallyGone` checks of one id. -/
def isGone (db : Db) (mode : DeletionMode) (id : RecordId) : Bool :=
  db.isTombstoned id && !(decide (mode = .hard) && (db.readOne id).isSome)

theorem canonicallyGone_run (mode : DeletionMode) (ids : List RecordId) (w : World V) :
    (canonicallyGone mode ids : Prog V Bool).run w = (.ok (ids.all (isGone w.db mode)), w) := by
  induction ids with
  | nil => rfl
  | cons id rest ih =>
    unfold canonicallyGone
    rw [Proc.run_bind]
    change (if (!w.db.isTombstoned id) = true then _ else _ : Prog V Bool).run w = _
    by_cases ht : w.db.isTombstoned id = true
    · by_cases hm : mode = .hard
      · by_cases hr : (w.db.readOne id).isSome = true
        · subst hm
          simp only [ht, Bool.not_true, Bool.false_eq_true, ↓reduceIte]
          rw [Proc.run_bind]
          change (if (w.db.readOne id).isSome = true then _ else _ : Prog V Bool).run w = _
          simp [hr, isGone]
        · subst hm
          simp only [ht, Bool.not_true, Bool.false_eq_true, ↓reduceIte]
          rw [Proc.run_bind]
          change (if (w.db.readOne id).isSome = true then _ else _ : Prog V Bool).run w = _
          simp [hr, isGone, ht, ih]
      · simp [ht, hm, isGone, ih]
    · simp [ht, isGone]

theorem canonicallyGone_uses (P : Commit V → Prop) (mode : DeletionMode) (ids : List RecordId) :
    (canonicallyGone mode ids : Prog V Bool).Uses P := by
  induction ids with
  | nil => trivial
  | cons id rest ih =>
    unfold canonicallyGone
    refine Proc.Uses.bind (Proc.uses_read _ _) fun b => ?_
    split
    · trivial
    · split
      · refine Proc.Uses.bind (Proc.uses_read _ _) fun r => ?_
        split
        · trivial
        · exact ih
      · exact ih

theorem verifyNotRetrievable_run {registry : Registry V} (hr : ∀ s ∈ registry, Lawful s)
    (hnames : (registry.map ManagedSurface.name).Nodup) (ids : List RecordId)
    (mode : DeletionMode) (w : World V) :
    ∃ b u, (verifyNotRetrievable registry ids mode).run w = (.ok b, u) ∧
      authority u = authority w ∧
      (b = true → AnswersAbsent (questions registry ids) w u ∧
        ids.all (isGone u.db mode) = true) := by
  obtain ⟨out, u, hu, hauth, hout⟩ :=
    verifyInto_run hr hnames ids ∅ (fun _ _ => rfl) w
  unfold verifyNotRetrievable verify
  by_cases h : out.allTrue = true
  · refine ⟨ids.all (isGone u.db mode), u, ?_, hauth, fun hb => ⟨(hout h).2, hb⟩⟩
    rw [Proc.run_bind_ok hu]
    simp only [h, Bool.not_true, Bool.false_eq_true, ↓reduceIte]
    exact canonicallyGone_run mode ids u
  · refine ⟨false, u, ?_, hauth, nofun⟩
    rw [Proc.run_bind_ok hu]
    simp [h]

end StrataMemory.SurfaceRounds
