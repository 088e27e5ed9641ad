import StrataMemory.DeletionInvariants

set_option autoImplicit false

namespace StrataMemory.VerifiedDeletions
open KeyedTables Records Tables Procedures Worlds ManagedSurfaces DeletionFlows
open SurfaceRounds DeletionMachine DeletionInvariants Engine

theorem engine_lawful (e : MemoryEngine) : ∀ s ∈ e.registry, Lawful s := by
  intro s hs
  rcases List.mem_append.mp hs with hs | hs
  · rcases List.mem_cons.mp hs with rfl | hs
    · exact lawful_lexical
    · obtain ⟨name, _, rfl⟩ := List.mem_map.mp hs
      exact lawful_coordinated _ _ _
  · cases List.mem_singleton.mp hs
    exact lawful_memory _ _ _

theorem engine_indexOnly (e : MemoryEngine) : ∀ s ∈ e.registry, IndexOnly s :=
  fun s hs => (engine_lawful e s hs).toIndexOnly

theorem answers_silent {e : MemoryEngine} {qs : List (ManagedSurface Memory × RecordId)}
    (hqs : ∀ q ∈ qs, q.1 ∈ e.registry) {w u : World Memory} (h : AnswersAbsent qs w u) : u = w := by
  induction h with
  | nil w => rfl
  | @cons s id rest w v u answer tail ih =>
    have hv : v = w := by
      have hs := hqs (s, id) List.mem_cons_self
      rcases List.mem_append.mp hs with hs | hs
      · rcases List.mem_cons.mp hs with hs | hs
        · subst hs
          exact (congrArg Prod.snd answer).symm
        · obtain ⟨name, _, rfl⟩ := List.mem_map.mp hs
          exact (congrArg Prod.snd answer).symm
      · cases List.mem_singleton.mp hs
        exact (congrArg Prod.snd answer).symm
    rw [ih fun q hq => hqs q (List.mem_cons_of_mem _ hq), hv]

theorem questions_registry {e : MemoryEngine} {ids : List RecordId} :
    ∀ q ∈ questions e.registry ids, q.1 ∈ e.registry := by
  intro q hq
  obtain ⟨s, hs, hq⟩ := List.mem_flatMap.mp hq
  obtain ⟨id, _, rfl⟩ := List.mem_map.mp hq
  exact hs

theorem engine_names (e : MemoryEngine) :
    (e.deletion.registry.map ManagedSurface.name).Nodup := by
  change (e.registry.map ManagedSurface.name).Nodup
  rw [e.registry_names]
  exact e.names_nodup

theorem verified_of_loop (e : MemoryEngine) (jobId : OpId) {ids : List RecordId} (hids : ids ≠ [])
    (mode : DeletionMode) (w : World Memory) (htombstoned : ∀ id ∈ ids, w.db.isTombstoned id = true)
    (hverified : EndsIn ids .verified
      ((purgeAndVerify e.deletion jobId ids mode e.deletion.maxRetries).final w)) :
    ∃ v, Verified e.deletion ids mode v
      ((purgeAndVerify e.deletion jobId ids mode e.deletion.maxRetries).final w) := by
  obtain ⟨u, hrun, hcase⟩ := purgeAndVerify_run (engine_lawful e) (engine_names e) jobId ids mode
    e.deletion.maxRetries w htombstoned
  have hu : (purgeAndVerify e.deletion jobId ids mode e.deletion.maxRetries).final w = u :=
    congrArg Prod.snd hrun
  rw [hu] at hverified ⊢
  rcases hcase with ⟨v, _, _, _, hv⟩ | hmanual
  · exact ⟨v, hv⟩
  · obtain ⟨id, rest, rfl⟩ := List.exists_cons_of_ne_nil hids
    have hstate := (hverified id List.mem_cons_self).symm.trans (hmanual id List.mem_cons_self)
    cases hstate

theorem verified_of_request (e : MemoryEngine) (recordId : RecordId) (mode : DeletionMode)
    (includeDependents : Bool) (w : World Memory)
    (hverified : EndsIn (covered w.db recordId includeDependents) .verified
      ((requestDeletion e.deletion recordId mode includeDependents).final w)) :
    ∃ v, Verified e.deletion (covered w.db recordId includeDependents) mode v
      ((requestDeletion e.deletion recordId mode includeDependents).final w) := by
  rw [requestDeletion_final] at hverified ⊢
  exact verified_of_loop e _ (List.cons_ne_nil _ _) mode _ (tombstoneAll_tombstones _ _ _ _) hverified

theorem absent_of_answers {e : MemoryEngine} {qs : List (ManagedSurface Memory × RecordId)}
    (hqs : ∀ q ∈ qs, q.1 ∈ e.registry) {w u : World Memory} (h : AnswersAbsent qs w u) :
    ∀ q ∈ qs, ((q.1.absent q.2).run w).1 = .ok true := by
  induction h with
  | nil w => exact fun _ hq => nomatch hq
  | @cons s id rest w v u answer tail ih =>
    intro q hq
    have hv : v = w := answers_silent (fun q hq => hqs q (by
      cases List.mem_singleton.mp hq
      exact List.mem_cons_self)) (.cons answer (.nil v))
    rcases List.mem_cons.mp hq with rfl | hq
    · exact congrArg Prod.fst answer
    · rw [← hv]
      exact ih (fun q hq => hqs q (List.mem_cons_of_mem _ hq)) q hq

structure Absent (e : MemoryEngine) (ids : List RecordId) (w : World Memory) : Prop where
  posting : ∀ id ∈ ids, w.db.hasPosting id = false
  vector : ∀ id ∈ ids, ∀ name ∈ e.vectorNames, Memory.vectorContains name w.memory id = false
  artifact : ∀ id ∈ ids, w.memory.artifacts.contains id = false

theorem absent_of_verified {e : MemoryEngine} {ids : List RecordId} {mode : DeletionMode}
    {v u : World Memory} (h : Verified e.deletion ids mode v u) : Absent e ids u := by
  obtain ⟨v', hanswers, hu⟩ := h.answers
  obtain ⟨_, hmarks⟩ := markAll_final ids .verified (some v'.now) (apply .readClock v')
  have hv : v' = v := answers_silent questions_registry hanswers
  have hall : ∀ s ∈ e.registry, ∀ id ∈ ids, ((s.absent id).run v).1 = .ok true :=
    fun s hs id hid => absent_of_answers questions_registry hanswers (s, id)
      (List.mem_flatMap.mpr ⟨s, hs, List.mem_map_of_mem hid⟩)
  have hno : ∀ b : Bool, (Except.ok (!b) : Except PyError Bool) = .ok true → b = false := by
    intro b hb
    cases b
    · rfl
    · cases hb
  rw [hu, hmarks, hv]
  refine ⟨fun id hid => ?_, fun id hid name hname => ?_, fun id hid => ?_⟩
  · exact hno _ (hall lexicalSurface (List.mem_append_left _ List.mem_cons_self) id hid)
  · exact hno _ (hall (e.vectorSurface name) (List.mem_append_left _ (List.mem_cons_of_mem _
      (List.mem_map_of_mem hname))) id hid)
  · exact hno _ (hall MemoryEngine.artifactSurface
      (List.mem_append_right _ List.mem_cons_self) id hid)

end StrataMemory.VerifiedDeletions
