import StrataMemory.DeletionMachine
import StrataMemory.PurgeFacts

set_option autoImplicit false

namespace StrataMemory.PurgeInFlight
open KeyedTables Records Tables Procedures Worlds Coordinator
open ManagedSurfaces DeletionFlows DeletionMachine
open Engine Interleavings SharedViews SharedQueue PurgeFacts

variable {base : OpId} {x : RecordId} {ids : List RecordId}

abbrev DeletionOutline {α : Type} (base : OpId) (x : RecordId) (P : Shared → Prop)
    (p : Prog Memory α) (Q : α → Shared → Prop) : Prop :=
  Outline (May base x) .deletion (fun _ => False) P p Q

theorem deletion_reads {α : Type} {f : World Memory → α} {P : View → Prop} {Q : α → View → Prop}
    (hP : Closed x .deletion P) (hQ : ∀ a, Closed x .deletion (Q a))
    (h : ∀ m, P (view x m) → Q (f m.state) (view x m)) :
    DeletionOutline base x (At base x P) (Proc.read f) fun a => At base x (Q a) :=
  Outline.read (stable_at hP) (fun m hm => ⟨hm.1, h m hm.2⟩) fun a => stable_at (hQ a)

theorem deletion_returns {α : Type} {a : α} {P : View → Prop} {Q : α → View → Prop}
    (hQ : Closed x .deletion (Q a)) (h : ∀ v, P v → Q a v) :
    DeletionOutline base x (At base x P) (pure a) fun b => At base x (Q b) :=
  Outline.pure (stable_at hQ) fun _ hm => ⟨hm.1, h _ hm.2⟩

theorem deletion_exists {α γ : Type} {P : γ → View → Prop} {p : Prog Memory α}
    {Q : α → Shared → Prop} (h : ∀ k, DeletionOutline base x (At base x (P k)) p Q) :
    DeletionOutline base x (At base x fun v => ∃ k, P k v) p Q := by
  rintro m ⟨hm, k, hk⟩
  exact h k m ⟨hm, hk⟩

theorem closed_exists {γ : Type} {P : γ → View → Prop} (h : ∀ k, Closed x .deletion (P k)) :
    Closed x .deletion fun v => ∃ k, P k v := by
  rintro v u hvu ⟨k, hk⟩
  exact ⟨k, h k v u hvu hk⟩

theorem closed_const (q : Prop) : Closed x .deletion fun _ => q := fun _ _ _ hv => hv

theorem deletion_markAll {P : View → Prop} (hP : Closed x .deletion P) (ids : List RecordId)
    (state : DeletionState) (verifiedAt : Option Time) :
    DeletionOutline base x (At base x P) (markAll ids state verifiedAt) fun _ => At base x P :=
  Outline.forM (I := fun _ => At base x P)
    (fun id _ => outline_unseen hP fun _ _ _ =>
      ⟨DeletionStep.mark id state verifiedAt, view_setTombstoneState id state verifiedAt⟩)
    (stable_at hP) ids

theorem deletion_recordReport {P : View → Prop} (hP : Closed x .deletion P) (jobId : OpId)
    (report : Report) :
    DeletionOutline base x (At base x P) (recordReport jobId report) fun _ => At base x P := by
  have hacks : ∀ (name : String) (acks : Acks), DeletionOutline base x (At base x P)
      (acks.forM fun ack => commit (.recordIndexAck ack.1 name jobId ack.2))
      fun _ => At base x P := fun name acks =>
    Outline.forM (I := fun _ => At base x P)
      (fun ack _ => outline_unseen hP fun _ _ _ => ⟨may_writer (.ack ack.1 name jobId ack.2), rfl⟩)
      (stable_at hP) acks
  exact Outline.forM (I := fun _ => At base x P) (fun e _ => hacks e.1 e.2) (stable_at hP) _

theorem guarded_tombstone {mode : DeletionMode} {r : ℕ} {m : Shared}
    (h : Guarded x ids mode r (view x m)) (id : RecordId) (jobId : OpId) (state : DeletionState) :
    Guarded x (ids ++ [id]) mode r (view x (m.commit .deletion (.tombstone id mode jobId state))) := by
  have hold : id ≠ x → x ∈ ids ++ [id] → x ∈ ids := fun hid hx =>
    (List.mem_append.mp hx).resolve_right fun h => hid (List.mem_singleton.mp h).symm
  rw [view_tombstone]
  refine ⟨fun j hj => ?_, h.removals, fun hx hmarked row hrow => ?_, fun hx hmode hmarked => ?_⟩
  · rcases List.mem_append.mp hj with hj | hj
    · exact Bool.or_eq_true_iff.mpr (.inr (h.tombstoned j hj))
    · exact Bool.or_eq_true_iff.mpr (.inl (decide_eq_true (List.mem_singleton.mp hj).symm))
  · dsimp only at hrow
    by_cases hid : id = x
    · rw [if_pos hid] at hrow
      obtain ⟨_, _, rfl⟩ := Option.map_eq_some_iff.mp hrow
      rfl
    · rw [if_neg hid] at hrow
      refine h.marked (hold hid hx) ?_ row hrow
      exact (Bool.or_eq_true_iff.mp hmarked).resolve_left fun h => hid (of_decide_eq_true h)
  · obtain ⟨hid, hmarked⟩ := Bool.or_eq_false_iff.mp hmarked
    have hne : id ≠ x := of_decide_eq_false hid
    obtain ⟨hone, row, hrow, hstatus⟩ := h.rewritten (hold hne hx) hmode hmarked
    exact ⟨hone, row, (if_neg hne).trans hrow, hstatus⟩

theorem deletion_tombstoneAll {r : ℕ} (rest : List RecordId) (mode : DeletionMode) (jobId : OpId) :
    DeletionOutline base x (At base x (Guarded x ids mode r)) (tombstoneAll rest mode jobId)
      fun _ => At base x (Guarded x (ids ++ rest) mode r) := by
  induction rest generalizing ids with
  | nil =>
    rw [List.append_nil]
    exact Outline.pure (stable_at (closed_guarded mode r)) fun _ hm => hm
  | cons id rest ih =>
    have hone : DeletionOutline base x (At base x (Guarded x ids mode r))
        (commit (.tombstone id mode jobId .canonicalTombstoned))
        fun _ => At base x (Guarded x (ids ++ [id]) mode r) :=
      outline_commit (closed_guarded mode r) (closed_guarded mode r) fun m _ hv _ =>
        ⟨DeletionStep.tombstone _ _ _ _, guarded_tombstone hv id jobId _⟩
    have hrest := @ih (ids ++ [id])
    rw [List.append_assoc, List.singleton_append] at hrest
    exact hone.bind fun _ => hrest

/-- A round has queued its removal when `n₁` pieces of content had been written, after it
dropped the postings when `n₀` had been. -/
structure Queued (x : RecordId) (ids : List RecordId) (mode : DeletionMode) (n r n₀ n₁ : ℕ)
    (v : View) : Prop where
  first : n ≤ n₀
  ordered : n₀ ≤ n₁
  guarded : Guarded x ids mode r v
  answer : Answer n₁ v
  unposted : Since n₀ (Unposted ids) v

structure Swept (x : RecordId) (ids : List RecordId) (mode : DeletionMode) (n r n₀ n₁ : ℕ)
    (v : View) : Prop extends Queued x ids mode n r n₀ n₁ v where
  emptied : Since n₁ (Emptied ids) v
  dropped : Dropped ids v

section Purging
variable {mode : DeletionMode} {n r n₀ n₁ : ℕ}

theorem closed_queued : Closed x .deletion (Queued x ids mode n r n₀ n₁) := fun v u hvu hv =>
  { first := hv.first
    ordered := hv.ordered
    guarded := closed_guarded mode r v u hvu hv.guarded
    answer := closed_answer n₁ v u hvu hv.answer
    unposted := closed_since kept_unposted n₀ v u hvu hv.unposted }

theorem Queued.queue {v u : View} (h : Queued x ids mode n r n₀ n₁ v) (hvu : QueueMove v u) :
    Queued x ids mode n r n₀ n₁ u where
  first := h.first
  ordered := h.ordered
  guarded := h.guarded.queue hvu
  answer := h.answer.queue hvu
  unposted := h.unposted.queue (kept_unposted (x := x)) hvu

theorem closed_swept : Closed x .deletion (Swept x ids mode n r n₀ n₁) := fun v u hvu hv =>
  { closed_queued v u hvu hv.toQueued with
    emptied := closed_since (kept_settled false) n₁ v u hvu hv.emptied
    dropped := closed_dropped v u hvu hv.dropped }

theorem settles_removal {f : ℕ} {v : View} {row : OpRow}
    (htype : row.operation.opType = .removeIndex) (hids : row.operation.targetIds = ids)
    (hlength : v.live.length + 1 < f) :
    Settles ids false f
      { v with live := v.live ++ [row], removals := v.removals + 1, removed := true } := by
  refine ⟨fun id hid => ?_, ?_⟩
  · rw [outcome_concat]
    unfold HandlerEffects.presentAfter
    rw [htype, hids]
    simp [hid]
  · change (v.live ++ [row]).length < f
    rw [List.length_append]
    exact hlength

theorem purgeInto_cons {s : ManagedSurface Memory} {rest : Registry Memory} {report : Report}
    {P : View → Prop} {M : Acks → View → Prop} {Q : Report → Shared → Prop}
    (hP : Closed x .deletion P)
    (hremove : DeletionOutline base x (At base x P) (s.remove ids) fun acks => At base x (M acks))
    (hrest : ∀ acks, DeletionOutline base x (At base x (M acks))
      (purgeInto ids rest (report.set s.name acks)) Q) :
    DeletionOutline base x (At base x P) (purgeInto ids (s :: rest) report) Q := by
  have henter : DeletionOutline base x (At base x P) (commit (.surfaceRemove s.name))
      fun _ => At base x P :=
    outline_unseen hP fun _ _ _ => ⟨DeletionStep.enter s.name, rfl⟩
  exact henter.bind fun _ => hremove.bind hrest

def yes (acks : Acks) : Prop := acks.all Prod.snd = true

theorem yes_map {f : RecordId → Bool} (h : ∀ id ∈ ids, f id = false) :
    yes (ids.map fun i => (i, !f i)) := by
  unfold yes
  rw [List.all_map, List.all_eq_true]
  intro id hid
  change (!f id) = true
  rw [h id hid]
  rfl

theorem deletion_lexical (hids : ids ≠ []) :
    DeletionOutline base x (At base x fun v => Guarded x ids mode r v ∧ n ≤ v.contents)
      ((lexicalSurface : ManagedSurface Memory).remove ids) fun acks =>
      At base x fun v => ∃ n₀, (Guarded x ids mode r v ∧ n ≤ n₀) ∧
        Since n₀ (fun v => Unposted ids v ∧ yes acks) v := by
  have hstart : Closed x .deletion fun v => Guarded x ids mode r v ∧ n ≤ v.contents :=
    (closed_guarded mode r).and fun v u hvu hv => hv.trans (UpdateMove.contents_le hvu)
  have hunposted : ∀ k, Closed x .deletion fun v =>
      (Guarded x ids mode r v ∧ n ≤ k) ∧ Since k (Unposted ids) v := fun k =>
    ((closed_guarded mode r).and (closed_const _)).and (closed_since kept_unposted k)
  have hremove : DeletionOutline base x (At base x fun v => Guarded x ids mode r v ∧ n ≤ v.contents)
      (CanonicalStore.removePostings ids)
      fun _ => At base x fun v => ∃ k, (Guarded x ids mode r v ∧ n ≤ k) ∧ Since k (Unposted ids) v := by
    unfold CanonicalStore.removePostings
    rw [if_neg (by simpa using hids)]
    refine outline_commit hstart (closed_exists hunposted) fun m _ hv _ => ?_
    refine ⟨DeletionStep.unpost ids, contents m.history, ?_⟩
    rw [view_removePostings]
    refine ⟨⟨⟨hv.1.tombstoned, hv.1.removals, hv.1.marked, hv.1.rewritten⟩, hv.2⟩, le_rfl, fun _ id hid => ?_⟩
    dsimp only
    rw [decide_eq_true hid]
    rfl
  have hacks : ∀ acks : Acks, Closed x .deletion fun v => ∃ k, (Guarded x ids mode r v ∧ n ≤ k) ∧
      Since k (fun v => Unposted ids v ∧ yes acks) v := fun acks => closed_exists fun k =>
    ((closed_guarded mode r).and (closed_const _)).and
      (closed_since (kept_unposted.and (Kept.const _)) k)
  refine hremove.bind fun _ => deletion_reads (closed_exists hunposted) hacks fun m hv => ?_
  obtain ⟨k, hk, hsince⟩ := hv
  exact ⟨k, hk, hsince.mono fun h => ⟨h, yes_map h⟩⟩

theorem deletion_vectors {e : MemoryEngine} (hnames : e.vectorNames = ["hot"]) (hr : r ≤ 3)
    {q : Prop} :
    DeletionOutline base x (At base x fun v => ∃ n₀, (Guarded x ids mode r v ∧ n ≤ n₀) ∧
        Since n₀ (fun v => Unposted ids v ∧ q) v)
      ((e.vectorSurface "hot").remove ids) fun acks =>
      At base x fun v => ∃ n₀ n₁, (Queued x ids mode n (r + 1) n₀ n₁ v ∧ Since n₀ (fun _ => q) v) ∧
        Since n₁ (fun v => Emptied ids v ∧ yes acks) v := by
  refine deletion_exists fun n₀ => ?_
  have hstart : Closed x .deletion fun v => (Guarded x ids mode r v ∧ n ≤ n₀) ∧
      Since n₀ (fun v => Unposted ids v ∧ q) v :=
    ((closed_guarded mode r).and (closed_const _)).and
      (closed_since (kept_unposted.and (Kept.const _)) n₀)
  let K : ℕ → View → Prop := fun n₁ v =>
    Queued x ids mode n (r + 1) n₀ n₁ v ∧ Since n₀ (fun _ => q) v
  have hK : ∀ n₁, Closed x .deletion (K n₁) := fun n₁ =>
    closed_queued.and (closed_since (Kept.const _) n₀)
  have hfacts : ∀ n₁, DrainFacts x .deletion (fun f v => K n₁ v ∧ Since n₁ (Settles ids false f) v)
      fun v => K n₁ v ∧ Since n₁ (Emptied ids) v := fun n₁ =>
    drainFacts_settles (hK n₁)
      (fun v u hvu hv => ⟨hv.1.queue hvu, hv.2.queue (Kept.const (x := x) q) hvu⟩)
      (fun _ _ _ _ heq _ hFG hv => hv.move heq hFG)
      (fun f => closed_since (kept_settles false f) n₁) (closed_since (kept_settled false) n₁)
  have hqueued : ∀ f, Closed x .deletion fun v => ∃ n₁, K n₁ v ∧ Since n₁ (Settles ids false f) v :=
    fun f => closed_exists fun n₁ => (hfacts n₁).closed f
  have hqueue : ∀ a, DeletionOutline base x (fun m => Drawn base .deletion a m ∧
      At base x (fun v => (Guarded x ids mode r v ∧ n ≤ n₀) ∧
        Since n₀ (fun v => Unposted ids v ∧ q) v) m)
      (enqueue ⟨.removeIndex, ids, some "hot", none, none, a⟩)
      fun _ => At base x fun v => ∃ n₁, K n₁ v ∧ Since n₁ (Settles ids false maxSteps) v := by
    intro a
    let op : Operation := ⟨.removeIndex, ids, some "hot", none, none, a⟩
    refine outline_enqueue op hstart (hqueued maxSteps) fun m hsound hdrawn hv => ?_
    obtain ⟨⟨hguarded, hn⟩, hunposted⟩ := hv
    obtain ⟨row, hrow, hview⟩ := view_enqueue (x := x) hdrawn.unused
    have hremovals : removals m.history = r := hguarded.removals
    have hroom : (view x m).live.length + 7 < maxSteps + contents m.history + removals m.history :=
      hsound.room
    have hbound : contents m.history ≤ 3 := hsound.bound
    have hlength : (view x m).live.length + 1 < maxSteps := by omega
    have hremoved := settles_removal (v := view x m) (by rw [hrow]) (by rw [hrow]) hlength
    have hdropped : Since n₀ (Unposted ids) (view x m) := hunposted.mono And.left
    have hq : Since n₀ (fun _ => q) (view x m) := hunposted.mono And.right
    refine ⟨DeletionStep.enqueue (by omega) ⟨rfl, .inl rfl⟩ hdrawn, (view x m).contents, ?_⟩
    rw [hview]
    exact ⟨⟨⟨hn, hunposted.1, ⟨hguarded.tombstoned, congrArg (· + 1) hremovals, hguarded.marked,
      hguarded.rewritten⟩, fun _ h => h, hdropped⟩, hq⟩, le_rfl, fun _ => hremoved⟩
  have hdrain : DeletionOutline base x
      (At base x fun v => ∃ n₁, K n₁ v ∧ Since n₁ (Settles ids false maxSteps) v)
      (runUntilIdle e.coordinator)
      fun _ => At base x fun v => ∃ n₁, K n₁ v ∧ Since n₁ (Emptied ids) v :=
    deletion_exists fun n₁ => ((hfacts n₁).drain hnames maxSteps).mono fun _ m hm =>
      ⟨hm.1, n₁, hm.2⟩
  have hacks : ∀ acks : Acks, Closed x .deletion fun v => ∃ n₀ n₁, (Queued x ids mode n (r + 1) n₀ n₁ v ∧
      Since n₀ (fun _ => q) v) ∧ Since n₁ (fun v => Emptied ids v ∧ yes acks) v := fun acks =>
    closed_exists fun n₀ => closed_exists fun n₁ =>
      (closed_queued.and (closed_since (Kept.const _) n₀)).and
        (closed_since ((kept_settled false).and (Kept.const _)) n₁)
  refine (outline_draw hstart).bind fun a => (hqueue a).bind fun _ => hdrain.bind fun _ => ?_
  refine deletion_reads (closed_exists fun n₁ => (hfacts n₁).closedEmpty) hacks fun m hv => ?_
  obtain ⟨n₁, hk, hsince⟩ := hv
  exact ⟨n₀, n₁, hk, hsince.mono fun h => ⟨h, yes_map h.2⟩⟩

theorem deletion_artifacts {q p : Prop} :
    DeletionOutline base x (At base x fun v => ∃ n₀ n₁, (Queued x ids mode n r n₀ n₁ v ∧
        Since n₀ (fun _ => q) v) ∧ Since n₁ (fun v => Emptied ids v ∧ p) v)
      (MemoryEngine.artifactSurface.remove ids) fun acks =>
      At base x fun v => ∃ n₀ n₁, Swept x ids mode n r n₀ n₁ v ∧
        Since n₀ (fun _ => (q ∧ p) ∧ yes acks) v := by
  have hstart : Closed x .deletion fun v => ∃ n₀ n₁, (Queued x ids mode n r n₀ n₁ v ∧
      Since n₀ (fun _ => q) v) ∧ Since n₁ (fun v => Emptied ids v ∧ p) v :=
    closed_exists fun n₀ => closed_exists fun n₁ =>
      (closed_queued.and (closed_since (Kept.const _) n₀)).and
        (closed_since ((kept_settled false).and (Kept.const _)) n₁)
  have hswept : ∀ q : Prop, Closed x .deletion fun v =>
      ∃ n₀ n₁, Swept x ids mode n r n₀ n₁ v ∧ Since n₀ (fun _ => q) v := fun q =>
    closed_exists fun n₀ => closed_exists fun n₁ =>
      closed_swept.and (closed_since (Kept.const _) n₀)
  have hdrop : DeletionOutline base x (At base x fun v => ∃ n₀ n₁, (Queued x ids mode n r n₀ n₁ v ∧
      Since n₀ (fun _ => q) v) ∧ Since n₁ (fun v => Emptied ids v ∧ p) v)
      (commit (.memory fun v => { v with artifacts := v.artifacts.eraseAll ids }))
      fun _ => At base x fun v =>
        ∃ n₀ n₁, Swept x ids mode n r n₀ n₁ v ∧ Since n₀ (fun _ => q ∧ p) v := by
    refine outline_commit hstart (hswept _) fun m _ hv _ => ⟨DeletionStep.dropArtifacts ids, ?_⟩
    obtain ⟨n₀, n₁, ⟨hqueued, hq⟩, hemptied⟩ := hv
    have hempty : Since n₁ (Emptied ids) (view x m) := hemptied.mono And.left
    have hp : Since n₁ (fun _ => p) (view x m) := hemptied.mono And.right
    have hguarded := hqueued.guarded
    rw [view_dropArtifacts]
    refine ⟨n₀, n₁, { hqueued with
      guarded := ⟨hguarded.tombstoned, hguarded.removals, hguarded.marked, hguarded.rewritten⟩
      emptied := hempty
      dropped := fun id hid => ?_ }, (hq.and (hp.earlier hqueued.ordered) :)⟩
    dsimp only
    rw [decide_eq_true hid]
    rfl
  refine hdrop.bind fun _ => deletion_reads (hswept _) (fun _ => hswept _) fun m hv => ?_
  obtain ⟨n₀, n₁, hv, hq⟩ := hv
  exact ⟨n₀, n₁, hv, hq.mono fun h => ⟨h, yes_map hv.dropped⟩⟩

theorem allTrue_set {report : Report} {name : String} {acks : Acks}
    (hfresh : report.contains name = false) :
    Report.allTrue (report.set name acks) = (report.allTrue && acks.all Prod.snd) := by
  unfold Report.allTrue
  rw [Table.values_set_of_not_contains _ _ _ hfresh, List.all_append, List.all_cons, List.all_nil,
    Bool.and_true]

def answers (lexical vectors artifacts : Acks) : Report :=
  (((∅ : Report).set "fts5" lexical).set "hot" vectors).set "derived_artifacts" artifacts

theorem allTrue_answers {lexical vectors artifacts : Acks} :
    (answers lexical vectors artifacts).allTrue = true ↔
      (yes lexical ∧ yes vectors) ∧ yes artifacts := by
  have hhot : ((∅ : Report).set "fts5" lexical).contains "hot" = false := by
    rw [Table.contains_set, Table.contains_empty]
    decide
  have hartifacts : (((∅ : Report).set "fts5" lexical).set "hot" vectors).contains
      "derived_artifacts" = false := by
    rw [Table.contains_set, Table.contains_set, Table.contains_empty]
    decide
  unfold answers
  rw [allTrue_set hartifacts, allTrue_set hhot, allTrue_set (Table.contains_empty _),
    Bool.and_eq_true, Bool.and_eq_true, Bool.and_eq_true]
  exact ⟨fun h => ⟨⟨h.1.1.2, h.1.2⟩, h.2⟩, fun h => ⟨⟨⟨rfl, h.1.1⟩, h.1.2⟩, h.2⟩⟩

theorem registry_eq {e : MemoryEngine} (hnames : e.vectorNames = ["hot"]) :
    e.registry = [lexicalSurface, e.vectorSurface "hot", MemoryEngine.artifactSurface] := by
  unfold MemoryEngine.registry
  rw [hnames]
  rfl

theorem deletion_purge {e : MemoryEngine} (hnames : e.vectorNames = ["hot"]) (hr : r ≤ 3)
    (hids : ids ≠ []) :
    DeletionOutline base x (At base x fun v => Guarded x ids mode r v ∧ n ≤ v.contents)
      (purge e.registry ids) fun report => At base x fun v =>
        ∃ n₀ n₁, Swept x ids mode n (r + 1) n₀ n₁ v ∧ Since n₀ (fun _ => report.allTrue = true) v := by
  have hstart : Closed x .deletion fun v => Guarded x ids mode r v ∧ n ≤ v.contents :=
    (closed_guarded mode r).and fun v u hvu hv => hv.trans (UpdateMove.contents_le hvu)
  have hlexical : ∀ acks : Acks, Closed x .deletion fun v => ∃ n₀, (Guarded x ids mode r v ∧ n ≤ n₀) ∧
      Since n₀ (fun v => Unposted ids v ∧ yes acks) v := fun acks => closed_exists fun n₀ =>
    ((closed_guarded mode r).and (closed_const _)).and
      (closed_since (kept_unposted.and (Kept.const _)) n₀)
  have hvectors : ∀ lexical vectors : Acks, Closed x .deletion fun v => ∃ n₀ n₁,
      (Queued x ids mode n (r + 1) n₀ n₁ v ∧ Since n₀ (fun _ => yes lexical) v) ∧
        Since n₁ (fun v => Emptied ids v ∧ yes vectors) v := fun lexical vectors =>
    closed_exists fun n₀ => closed_exists fun n₁ =>
      (closed_queued.and (closed_since (Kept.const _) n₀)).and
        (closed_since ((kept_settled false).and (Kept.const _)) n₁)
  unfold purge
  rw [registry_eq hnames]
  refine purgeInto_cons hstart (deletion_lexical hids) fun lexical => ?_
  refine purgeInto_cons (hlexical lexical) (deletion_vectors hnames hr) fun vectors => ?_
  refine purgeInto_cons (hvectors lexical vectors) deletion_artifacts fun artifacts => ?_
  refine deletion_returns (P := fun v => ∃ n₀ n₁, Swept x ids mode n (r + 1) n₀ n₁ v ∧
    Since n₀ (fun _ => (yes lexical ∧ yes vectors) ∧ yes artifacts) v)
    (a := answers lexical vectors artifacts) ?_ fun v hv => ?_
  · exact closed_exists fun n₀ => closed_exists fun n₁ =>
      closed_swept.and (closed_since (Kept.const _) n₀)
  · obtain ⟨n₀, n₁, hv, hsince⟩ := hv
    exact ⟨n₀, n₁, hv, hsince.mono allTrue_answers.mpr⟩

def ErasedIn (mode : DeletionMode) (ids : List RecordId) (v : View) : Prop :=
  mode = .hard → Erased ids v

theorem kept_erasedIn (mode : DeletionMode) : Kept x (ErasedIn mode ids) := kept_erased.imp _

theorem swept_hardDelete {m : Shared} (h : Swept x ids .hard n r n₀ n₁ (view x m)) (id : RecordId) :
    Swept x ids .hard n r n₀ n₁ (view x (m.commit .deletion (.hardDelete id))) := by
  have hguarded := h.guarded
  rw [view_hardDelete]
  refine { h with guarded := ⟨hguarded.tombstoned, hguarded.removals, ?_, fun _ => nofun⟩ }
  intro hx hmarked row hrow
  refine hguarded.marked hx hmarked row ?_
  dsimp only at hrow
  split at hrow
  · cases hrow
  · exact hrow

theorem swept_rebuild {m : Shared} (h : Swept x ids mode n r n₀ n₁ (view x m))
    (herased : Since n₁ (Erased ids) (view x m)) :
    Swept x ids mode n r n₀ n₁ (view x (m.commit .deletion .rebuildPostings)) := by
  have hguarded := h.guarded
  rw [view_rebuildPostings]
  refine { h with
    guarded := ⟨hguarded.tombstoned, hguarded.removals, hguarded.marked, hguarded.rewritten⟩
    unposted := ?_ }
  refine (herased.earlier h.ordered).move rfl fun hrows id hid => ?_
  dsimp only
  rw [hrows id hid]
  rfl

theorem deletion_erase {svc : DeletionService Memory} (mode : DeletionMode) :
    DeletionOutline base x (At base x (Swept x ids mode n r n₀ n₁)) (eraseWhenHard svc ids mode)
      fun _ => At base x fun v => Swept x ids mode n r n₀ n₁ v ∧ Since n₁ (ErasedIn mode ids) v := by
  have hend : ∀ F, Kept x F → Closed x .deletion fun v => Swept x ids mode n r n₀ n₁ v ∧ Since n₁ F v :=
    fun F hF => closed_swept.and (closed_since hF n₁)
  cases mode with
  | logical =>
    refine deletion_returns (hend _ (kept_erasedIn .logical)) fun v hv => ⟨hv, hv.emptied.1, ?_⟩
    exact fun _ hmode => by cases hmode
  | hard =>
    have hrest : ∀ rest : List RecordId,
        Kept x fun v => ∀ id ∈ ids, id ∈ rest ∨ v.row id = none := fun rest =>
      { queue := fun v u hvu hv => by cases hvu <;> exact hv
        unpost := fun _ hv => hv }
    have hone : ∀ id rest, DeletionOutline base x
        (At base x fun v => Swept x ids .hard n r n₀ n₁ v ∧
          Since n₁ (fun v => ∀ j ∈ ids, j ∈ id :: rest ∨ v.row j = none) v)
        (commit (.hardDelete id))
        fun _ => At base x fun v => Swept x ids .hard n r n₀ n₁ v ∧
          Since n₁ (fun v => ∀ j ∈ ids, j ∈ rest ∨ v.row j = none) v := by
      refine fun id rest => outline_commit (hend _ (hrest _)) (hend _ (hrest _)) fun m _ hv _ => ?_
      refine ⟨DeletionStep.erase id, swept_hardDelete hv.1 id, ?_⟩
      rw [view_hardDelete]
      refine hv.2.move rfl fun hrows j hj => ?_
      by_cases hid : j = id
      · exact .inr (if_pos hid)
      · refine (hrows j hj).imp (fun hmem => (List.mem_cons.mp hmem).resolve_left hid) fun hrow => ?_
        exact (if_neg hid).trans hrow
    have hrebuild : DeletionOutline base x
        (At base x fun v => Swept x ids .hard n r n₀ n₁ v ∧ Since n₁ (Erased ids) v)
        CanonicalStore.rebuild
        fun _ => At base x fun v => Swept x ids .hard n r n₀ n₁ v ∧ Since n₁ (ErasedIn .hard ids) v :=
      outline_commit (hend _ kept_erased) (hend _ (kept_erasedIn .hard)) fun m _ hv _ =>
        ⟨DeletionStep.rebuild, swept_rebuild hv.1 hv.2, hv.2.move rfl fun hrows _ => hrows⟩
    have hloop : DeletionOutline base x (At base x (Swept x ids .hard n r n₀ n₁))
        (ids.forM fun id => commit (.hardDelete id)) fun _ => At base x fun v =>
          Swept x ids .hard n r n₀ n₁ v ∧ Since n₁ (fun v => ∀ j ∈ ids, j ∈ [] ∨ v.row j = none) v :=
      (Outline.forM (I := fun rest => At base x fun v => Swept x ids .hard n r n₀ n₁ v ∧
        Since n₁ (fun v => ∀ j ∈ ids, j ∈ rest ∨ v.row j = none) v) hone
        (stable_at (hend _ (hrest []))) ids).weaken
        fun m hm => ⟨hm.1, hm.2, hm.2.emptied.1, fun _ _ hid => .inl hid⟩
    have herased : ∀ v, (Swept x ids .hard n r n₀ n₁ v ∧
        Since n₁ (fun v => ∀ j ∈ ids, j ∈ [] ∨ v.row j = none) v) →
        Swept x ids .hard n r n₀ n₁ v ∧ Since n₁ (Erased ids) v := fun v hv =>
      ⟨hv.1, hv.2.mono fun hrows j hj => (hrows j hj).resolve_left List.not_mem_nil⟩
    have hend : DeletionOutline base x
        (At base x fun v => Swept x ids .hard n r n₀ n₁ v ∧ Since n₁ (Erased ids) v)
        (if svc.lexical = true then CanonicalStore.rebuild else pure ())
        fun _ => At base x fun v => Swept x ids .hard n r n₀ n₁ v ∧ Since n₁ (ErasedIn .hard ids) v := by
      split
      · exact hrebuild
      · exact deletion_returns (hend _ (kept_erasedIn .hard)) fun v hv =>
          ⟨hv.1, hv.2.mono fun hrows _ => hrows⟩
    exact hloop.bind fun _ => hend.weaken fun m hm => ⟨hm.1, herased _ hm.2⟩

end Purging
end StrataMemory.PurgeInFlight
