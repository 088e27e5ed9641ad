import StrataMemory.PurgeInFlight

set_option autoImplicit false

namespace StrataMemory.DeletionInFlight
open KeyedTables Records Tables Procedures Worlds Coordinator
open ManagedSurfaces DeletionFlows DeletionMachine
open Engine Gateway Interleavings SharedViews SharedQueue PurgeFacts PurgeInFlight

variable {base : OpId} {x : RecordId} {ids : List RecordId}

section Rounds
variable {mode : DeletionMode} {n r n₀ n₁ : ℕ}

/-- What the answers of one surface tell: they are all yes if nothing has been written
since `n₀`, and when they are, `B` holds of the ids. -/
def Asked (n₀ n₁ : ℕ) (ids : List RecordId) (B : View → RecordId → Prop) (acks : Acks)
    (v : View) : Prop :=
  Since n₀ (fun _ => yes acks) v ∧ Since n₁ (fun v => yes acks → ∀ id ∈ ids, B v id) v

theorem closed_asked {B : View → RecordId → Prop}
    (hB : ∀ ids : List RecordId, Kept x fun v => ∀ id ∈ ids, B v id) (ids : List RecordId) (acks : Acks) :
    Closed x .deletion (Asked n₀ n₁ ids B acks) :=
  (closed_since (Kept.const _) n₀).and (closed_since ((hB ids).imp _) n₁)

theorem yes_cons {id : RecordId} {answer : Bool} {acks : Acks} :
    yes ((id, answer) :: acks) ↔ answer = true ∧ yes acks := by
  unfold yes
  rw [List.all_cons, Bool.and_eq_true]

theorem Asked.cons {B : View → RecordId → Prop} {id : RecordId} {answer : Bool} {acks : Acks}
    {v : View} (hone : Asked n₀ n₁ [id] B [(id, answer)] v) (h : Asked n₀ n₁ ids B acks v) :
    Asked n₀ n₁ (id :: ids) B ((id, answer) :: acks) v := by
  refine ⟨(hone.1.and h.1).mono fun hyes => ?_, (hone.2.and h.2).mono fun hall hyes j hj => ?_⟩
  · exact yes_cons.mpr ⟨(yes_cons.mp hyes.1).1, hyes.2⟩
  · obtain ⟨hanswer, hacks⟩ := yes_cons.mp hyes
    rcases List.mem_cons.mp hj with rfl | hj
    · exact hall.1 (yes_cons.mpr ⟨hanswer, rfl⟩) j List.mem_cons_self
    · exact hall.2 hacks j hj

theorem deletion_absences {s : ManagedSurface Memory} {A : View → RecordId → Bool}
    {g : World Memory → RecordId → Bool} {B : View → RecordId → Prop}
    (habsent : ∀ id, s.absent id = Proc.read fun w => !g w id)
    (hview : ∀ m : Shared, g m.state = A (view x m))
    (hB : ∀ ids : List RecordId, Kept x fun v => ∀ id ∈ ids, B v id) (hAB : ∀ v id, A v id = false → B v id)
    (ids : List RecordId) {K : View → Prop} (hK : Closed x .deletion K)
    (hclear : ∀ v, K v → n₁ ≤ v.contents ∧ Since n₀ (fun v => ∀ id ∈ ids, A v id = false) v) :
    DeletionOutline base x (At base x K) (absences s ids) fun acks => At base x fun v =>
      K v ∧ Asked n₀ n₁ ids B acks v := by
  induction ids generalizing K with
  | nil =>
    refine deletion_returns (hK.and (closed_asked hB [] [])) fun v hv => ⟨hv, ?_, ?_⟩
    · exact (hclear v hv).2.mono fun _ => rfl
    · exact ⟨(hclear v hv).1, fun _ _ _ h => absurd h List.not_mem_nil⟩
  | cons id ids ih =>
    have hone : ∀ answer, Closed x .deletion fun v =>
        K v ∧ Asked n₀ n₁ [id] B [(id, answer)] v := fun answer =>
      hK.and (closed_asked hB [id] _)
    have hread : DeletionOutline base x (At base x K) (s.absent id) fun answer =>
        At base x fun v => K v ∧ Asked n₀ n₁ [id] B [(id, answer)] v := by
      rw [habsent]
      refine deletion_reads hK hone fun m hv => ⟨hv, ?_, ?_⟩
      · rw [hview]
        refine (hclear _ hv).2.mono fun hall => ?_
        rw [hall id List.mem_cons_self]
        rfl
      · rw [hview]
        refine ⟨(hclear _ hv).1, fun _ hyes j hj => ?_⟩
        cases List.mem_singleton.mp hj
        refine hAB _ _ ?_
        simpa using (yes_cons.mp hyes).1
    refine hread.bind fun answer => ?_
    have hrest := ih (hone answer) fun v hv => ⟨(hclear v hv.1).1, (hclear v hv.1).2.mono
      fun hall j hj => hall j (List.mem_cons_of_mem _ hj)⟩
    refine hrest.bind fun answers => ?_
    exact deletion_returns (hK.and (closed_asked hB _ _)) fun v hv => ⟨hv.1.1, hv.1.2.cons hv.2⟩

def Clean (x : RecordId) (ids : List RecordId) (mode : DeletionMode) (n r n₀ n₁ : ℕ)
    (v : View) : Prop :=
  Swept x ids mode n r n₀ n₁ v ∧ Since n₁ (ErasedIn mode ids) v

theorem closed_clean (mode : DeletionMode) : Closed x .deletion (Clean x ids mode n r n₀ n₁) :=
  closed_swept.and (closed_since (kept_erasedIn mode) n₁)

theorem deletion_verify {e : MemoryEngine} (hnames : e.vectorNames = ["hot"])
    (mode : DeletionMode) :
    DeletionOutline base x (At base x (Clean x ids mode n r n₀ n₁)) (verify e.registry ids)
      fun results => At base x fun v => (Clean x ids mode n r n₀ n₁ v ∧
        Since n₀ (fun _ => results.allTrue = true) v) ∧
          Since n₁ (fun v => results.allTrue = true → Unposted ids v) v := by
  let B : View → RecordId → Prop := fun v id => v.posting id = false
  let T : View → RecordId → Prop := fun _ _ => True
  have hB : ∀ ids : List RecordId, Kept x fun v => ∀ id ∈ ids, B v id := fun _ => kept_unposted
  have hT : ∀ ids : List RecordId, Kept x fun v => ∀ id ∈ ids, T v id := fun ids =>
    Kept.const (∀ id ∈ ids, True)
  let K₀ := Clean x ids mode n r n₀ n₁
  let K₁ : Acks → View → Prop := fun lexical v => K₀ v ∧ Asked n₀ n₁ ids B lexical v
  let K₂ : Acks → Acks → View → Prop := fun lexical vectors v =>
    K₁ lexical v ∧ Asked n₀ n₁ ids T vectors v
  have hK₀ : Closed x .deletion K₀ := closed_clean mode
  have hK₁ : ∀ lexical, Closed x .deletion (K₁ lexical) := fun lexical =>
    hK₀.and (closed_asked hB ids lexical)
  have hK₂ : ∀ lexical vectors, Closed x .deletion (K₂ lexical vectors) := fun lexical vectors =>
    (hK₁ lexical).and (closed_asked hT ids vectors)
  have hlexical : DeletionOutline base x (At base x K₀) (absences lexicalSurface ids)
      fun acks => At base x (K₁ acks) :=
    deletion_absences (fun _ => rfl) (fun _ => rfl) hB (fun _ _ h => h) ids hK₀ fun v hv =>
      ⟨hv.1.emptied.1, hv.1.unposted⟩
  have hvectors : ∀ lexical, DeletionOutline base x (At base x (K₁ lexical))
      (absences (e.vectorSurface "hot") ids) fun acks => At base x (K₂ lexical acks) := fun _ =>
    deletion_absences (fun _ => rfl) (fun _ => rfl) hT (fun _ _ _ => trivial) ids (hK₁ _)
      fun v hv => ⟨hv.1.1.emptied.1, (hv.1.1.emptied.earlier hv.1.1.ordered).mono And.right⟩
  have hartifacts : ∀ lexical vectors, DeletionOutline base x (At base x (K₂ lexical vectors))
      (absences MemoryEngine.artifactSurface ids) fun acks => At base x fun v =>
        K₂ lexical vectors v ∧ Asked n₀ n₁ ids T acks v := fun _ _ =>
    deletion_absences (fun _ => rfl) (fun _ => rfl) hT (fun _ _ _ => trivial) ids (hK₂ _ _)
      fun v hv => ⟨hv.1.1.1.emptied.1, hv.1.1.1.unposted.mono fun _ => hv.1.1.1.dropped⟩
  have hend : ∀ q : Prop, Closed x .deletion fun v => (K₀ v ∧ Since n₀ (fun _ => q) v) ∧
      Since n₁ (fun v => q → Unposted ids v) v := fun q =>
    (hK₀.and (closed_since (Kept.const _) n₀)).and (closed_since (kept_unposted.imp q) n₁)
  unfold verify
  rw [registry_eq hnames]
  refine hlexical.bind fun lexical => (hvectors lexical).bind fun vectors =>
    (hartifacts lexical vectors).bind fun artifacts => ?_
  refine deletion_returns (a := answers lexical vectors artifacts) (hend _) fun v hv => ?_
  obtain ⟨⟨⟨hv, hfirst⟩, hsecond⟩, hthird⟩ := hv
  refine ⟨⟨hv, ((hfirst.1.and hsecond.1).and hthird.1).mono allTrue_answers.mpr⟩, ?_⟩
  exact hfirst.2.mono fun hrows hall => hrows (allTrue_answers.mp hall).1.1

theorem deletion_canonicallyGone (mode : DeletionMode) (rest : List RecordId)
    (hrest : ∀ id ∈ rest, id ∈ ids) {K : View → Prop} (hK : Closed x .deletion K)
    (hclean : ∀ v, K v → Clean x ids mode n r n₀ n₁ v) :
    DeletionOutline base x (At base x K) (canonicallyGone mode rest) fun b =>
      At base x fun v => K v ∧ Since n₁ (fun _ => b = true) v := by
  have hend : ∀ q : Prop, Closed x .deletion fun v => K v ∧ Since n₁ (fun _ => q) v := fun q =>
    hK.and (closed_since (Kept.const q) n₁)
  induction rest with
  | nil => exact deletion_returns (hend _) fun v hv => ⟨hv, (hclean v hv).2.mono fun _ => rfl⟩
  | cons id rest ih =>
    have hnext := ih fun j hj => hrest j (List.mem_cons_of_mem _ hj)
    have htombstoned : DeletionOutline base x (At base x K) (CanonicalStore.isTombstoned id)
        fun b => At base x fun v => b = true ∧ K v :=
      deletion_reads hK (fun _ => (closed_const _).and hK) fun m hv =>
        ⟨(hclean _ hv).1.guarded.tombstoned id (hrest id List.mem_cons_self), hv⟩
    have hrow : DeletionOutline base x (At base x K) (CanonicalStore.readOne id)
        fun found => At base x fun v => K v ∧ Since n₁ (fun _ => mode = .hard → found = none) v :=
      deletion_reads hK (fun _ => hend _) fun m hv => ⟨hv, (hclean _ hv).2.mono
        fun herased hmode => herased hmode id (hrest id List.mem_cons_self)⟩
    unfold canonicallyGone
    refine htombstoned.bind fun b => ?_
    have htail : DeletionOutline base x (At base x K)
        (if mode = .hard then CanonicalStore.readOne id >>= fun found =>
          if found.isSome = true then pure false else canonicallyGone mode rest
        else canonicallyGone mode rest)
        fun b => At base x fun v => K v ∧ Since n₁ (fun _ => b = true) v := by
      split
      · rename_i hmode
        refine hrow.bind fun found => ?_
        split
        · rename_i hfound
          refine deletion_returns (hend _) fun v hv => ⟨hv.1, hv.2.mono fun hnone => ?_⟩
          rw [hnone hmode] at hfound
          cases hfound
        · exact hnext.weaken fun m hm => ⟨hm.1, hm.2.1⟩
      · exact hnext
    rintro m ⟨hm, rfl, hk⟩
    exact htail m ⟨hm, hk⟩

/-- Nothing of the ids is left, unless the update has written since the last removal. -/
def Removed (ids : List RecordId) (mode : DeletionMode) (v : View) : Prop :=
  ∃ k, Answer k v ∧ Since k (fun v => (Emptied ids v ∧ Unposted ids v) ∧ ErasedIn mode ids v) v

/-- A round that fails has met content that was written after its start. -/
def RoundOver (x : RecordId) (ids : List RecordId) (mode : DeletionMode) (n r : ℕ) :
    Bool → View → Prop
  | true, v => Guarded x ids mode r v ∧ Removed ids mode v
  | false, v => Guarded x ids mode r v ∧ n < v.contents

theorem closed_removed (mode : DeletionMode) : Closed x .deletion (Removed ids mode) :=
  closed_exists fun k => (closed_answer k).and
    (closed_since (((kept_settled false).and kept_unposted).and (kept_erasedIn mode)) k)

theorem closed_roundOver (mode : DeletionMode) (b : Bool) :
    Closed x .deletion (RoundOver x ids mode n r b) := by
  cases b with
  | true => exact (closed_guarded mode r).and (closed_removed mode)
  | false => exact (closed_guarded mode r).and fun v u hvu hv => hv.trans_le (UpdateMove.contents_le hvu)

theorem roundOver_false {mode : DeletionMode} {v : View} (h : Swept x ids mode n r n₀ n₁ v)
    (hlater : n₀ < v.contents) : RoundOver x ids mode n r false v :=
  ⟨h.guarded, h.first.trans_lt hlater⟩

theorem deletion_confirm {e : MemoryEngine} (hnames : e.vectorNames = ["hot"])
    (mode : DeletionMode) :
    DeletionOutline base x (At base x (Clean x ids mode n r n₀ n₁)) (confirm e.deletion ids mode)
      fun b => At base x (RoundOver x ids mode n r b) := by
  let K : View → Prop := fun v => Clean x ids mode n r n₀ n₁ v ∧ Since n₁ (Unposted ids) v
  have hK : Closed x .deletion K := (closed_clean mode).and (closed_since kept_unposted n₁)
  have hgone : DeletionOutline base x (At base x K) (canonicallyGone mode ids)
      fun b => At base x (RoundOver x ids mode n r b) := by
    refine (deletion_canonicallyGone mode ids (fun _ h => h) hK fun _ hv => hv.1).mono
      fun b m hm => ⟨hm.1, ?_⟩
    obtain ⟨⟨⟨hswept, herased⟩, hunposted⟩, hb⟩ := hm.2
    cases b with
    | true =>
      exact ⟨hswept.guarded, n₁, hswept.answer, (hswept.emptied.and hunposted).and herased⟩
    | false =>
      exact roundOver_false hswept (hswept.ordered.trans_lt (hb.undone Bool.false_ne_true))
  have hverify : DeletionOutline base x (At base x (Clean x ids mode n r n₀ n₁))
      (verifyNotRetrievable e.registry ids mode)
      fun b => At base x (RoundOver x ids mode n r b) := by
    refine (deletion_verify hnames mode).bind fun results => ?_
    by_cases hall : results.allTrue = true
    · rw [hall]
      exact hgone.weaken fun m hm => ⟨hm.1, hm.2.1.1, hm.2.2.mono fun h => h rfl⟩
    · rw [Bool.eq_false_iff.mpr hall]
      exact deletion_returns (closed_roundOver mode false) fun v hv =>
        roundOver_false hv.1.1.1 (hv.1.2.undone Bool.false_ne_true)
  have hmark : DeletionOutline base x (At base x (RoundOver x ids mode n r true))
      (nowMs >>= fun now => markAll ids .verified (some now) >>= fun _ => pure true)
      fun b => At base x (RoundOver x ids mode n r b) := by
    refine (outline_clock (closed_roundOver mode true)).bind fun now => ?_
    refine (deletion_markAll (closed_roundOver mode true) ids .verified (some now)).bind fun _ => ?_
    exact deletion_returns (closed_roundOver mode true) fun _ hv => hv
  refine hverify.bind fun b => ?_
  cases b with
  | true => exact hmark
  | false => exact deletion_returns (closed_roundOver mode false) fun _ hv => hv

theorem deletion_round {e : MemoryEngine} (hnames : e.vectorNames = ["hot"]) (hr : r ≤ 3)
    (hids : ids ≠ []) (jobId : OpId) (mode : DeletionMode) :
    DeletionOutline base x (At base x fun v => Guarded x ids mode r v ∧ n ≤ v.contents)
      (purgeRound e.deletion jobId ids mode)
      fun b => At base x (RoundOver x ids mode n (r + 1) b) := by
  have hstart : Closed x .deletion fun v => Guarded x ids mode r v ∧ n ≤ v.contents :=
    (closed_guarded mode r).and fun v u hvu hv => hv.trans (UpdateMove.contents_le hvu)
  have hpurged : ∀ report : Report, Closed x .deletion fun v => ∃ n₀ n₁,
      Swept x ids mode n (r + 1) n₀ n₁ v ∧ Since n₀ (fun _ => report.allTrue = true) v := fun report =>
    closed_exists fun n₀ => closed_exists fun n₁ =>
      closed_swept.and (closed_since (Kept.const _) n₀)
  rw [purgeRound_eq]
  refine (deletion_markAll hstart ids .indexDeleting none).bind fun _ => ?_
  refine (deletion_purge hnames hr hids).bind fun report => ?_
  refine (deletion_recordReport (hpurged report) jobId report).bind fun _ => ?_
  refine deletion_exists fun n₀ => deletion_exists fun n₁ => ?_
  by_cases hall : report.allTrue = true
  · rw [if_pos hall]
    have hclose : DeletionOutline base x (At base x (Swept x ids mode n (r + 1) n₀ n₁))
        (eraseWhenHard e.deletion ids mode >>= fun _ => confirm e.deletion ids mode)
        fun b => At base x (RoundOver x ids mode n (r + 1) b) :=
      (deletion_erase mode).bind fun _ => deletion_confirm hnames mode
    exact hclose.weaken fun m hm => ⟨hm.1, hm.2.1⟩
  · rw [if_neg hall]
    exact deletion_returns (closed_roundOver mode false) fun v hv =>
      roundOver_false hv.1 (hv.2.undone hall)

end Rounds

/-- What a deletion of `x` has established when it returns. -/
def DeletedIn (x : RecordId) (mode : DeletionMode) (v : View) : Prop :=
  ∃ ids r, (x ∈ ids ∧ Guarded x ids mode r v) ∧ Removed ids mode v

theorem closed_deletedIn (mode : DeletionMode) : Closed x .deletion (DeletedIn x mode) :=
  closed_exists fun _ => closed_exists fun r =>
    ((closed_const _).and (closed_guarded mode r)).and (closed_removed mode)

/-- With a round for each piece of content that is still to come, some round succeeds. -/
theorem deletion_loop {e : MemoryEngine} (hnames : e.vectorNames = ["hot"]) (hx : x ∈ ids)
    (jobId : OpId) (mode : DeletionMode) (retries : ℕ) {n r : ℕ} (hn : 3 ≤ n + retries)
    (hr : r + retries ≤ 3) :
    DeletionOutline base x (At base x fun v => Guarded x ids mode r v ∧ n ≤ v.contents)
      (purgeAndVerify e.deletion jobId ids mode retries)
      fun _ => At base x (DeletedIn x mode) := by
  have hround : DeletionOutline base x (At base x fun v => Guarded x ids mode r v ∧ n ≤ v.contents)
      (purgeRound e.deletion jobId ids mode)
      fun b => At base x (RoundOver x ids mode n (r + 1) b) :=
    deletion_round hnames (by omega) (List.ne_nil_of_mem hx) jobId mode
  have hdone : DeletionOutline base x (At base x (RoundOver x ids mode n (r + 1) true)) (pure ())
      fun _ => At base x (DeletedIn x mode) :=
    deletion_returns (closed_deletedIn mode) fun v hv => ⟨ids, r + 1, ⟨hx, hv.1⟩, hv.2⟩
  induction retries generalizing n r with
  | zero =>
    rw [purgeAndVerify_zero]
    refine hround.bind fun b => ?_
    cases b with
    | true => exact hdone
    | false =>
      -- the update has written all it can write before the last round
      intro m hm
      have hbound : contents m.history ≤ 3 := hm.1.bound
      have hlater : n < contents m.history := hm.2.2
      omega
  | succ retries ih =>
    rw [purgeAndVerify_succ]
    refine hround.bind fun b => ?_
    cases b with
    | true => exact hdone
    | false =>
      have hfailed : Closed x .deletion (RoundOver x ids mode n (r + 1) false) :=
        closed_roundOver mode false
      refine (deletion_markAll hfailed ids .partialFailure none).bind fun _ => ?_
      exact ih (by omega) (by omega) (deletion_round hnames (by omega) (List.ne_nil_of_mem hx)
        jobId mode) (deletion_returns (closed_deletedIn mode) fun v hv =>
          ⟨ids, r + 1 + 1, ⟨hx, hv.1⟩, hv.2⟩)

theorem deletion_outline {s : Strata} (hnames : s.engine.vectorNames = ["hot"])
    (mode : DeletionMode) :
    DeletionOutline base x (At base x (Guarded x [] mode 0)) (discard (s.deleteMemory x mode))
      fun _ => At base x (DeletedIn x mode) := by
  have hstart : Closed x .deletion (Guarded x [] mode 0) := closed_guarded mode 0
  have hdone : ∀ jobId : OpId, DeletionOutline base x (At base x (DeletedIn x mode)) (pure jobId)
      fun _ => At base x (DeletedIn x mode) := fun _ =>
    deletion_returns (closed_deletedIn mode) fun _ hv => hv
  have hcovered : DeletionOutline base x (At base x (Guarded x [] mode 0))
      (query fun db => covered db x true) fun ids => At base x fun v => x ∈ ids ∧ Guarded x [] mode 0 v :=
    deletion_reads hstart (fun _ => (closed_const _).and hstart) fun m hv =>
      ⟨List.mem_cons_self, hv⟩
  have hdelete : DeletionOutline base x (At base x (Guarded x [] mode 0)) (s.deleteMemory x mode)
      fun _ => At base x (DeletedIn x mode) := by
    refine ((outline_draw hstart).mono fun _ m hm => hm.2).bind fun jobId => ?_
    refine hcovered.bind fun ids => ?_
    rintro m ⟨hm, hx, hv⟩
    refine ((deletion_tombstoneAll ids mode jobId).bind fun _ => ?_) m ⟨hm, hv⟩
    refine Outline.bind (Outline.weaken (deletion_loop (n := 0) (r := 0) hnames hx jobId mode 3
      (by omega) (by omega)) fun m hm => ⟨hm.1, hm.2, Nat.zero_le _⟩) fun _ => hdone jobId
  exact hdelete.bind fun _ => deletion_returns (closed_deletedIn mode) fun _ hv => hv

end StrataMemory.DeletionInFlight
