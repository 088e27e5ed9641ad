import StrataMemory.Applications
import StrataMemory.HandlerEffects
import StrataMemory.DeletionMachine

set_option autoImplicit false

/-! The queued operations that a run carries out, read off its commits. They alone move a
record in the vector stores: a store has it after the run just when the operations, taken in
their order, leave it there. -/
namespace StrataMemory.CarriedOperations
open KeyedTables Records Tables Procedures Worlds Coordinator Applications HandlerEffects
open ManagedSurfaces DeletionFlows DeletionMachine Engine

/-- The operation that a commit takes up, with the memory its adapter finds. -/
def begun (c : Commit Memory) (w : World Memory) : List (Operation × Memory) :=
  match c with
  | .setOpState seq _ =>
    (w.db.opLog.rows.filter fun row => row.seq = seq).map fun row => (row.operation, w.memory)
  | _ => []

/-- The operations that commits carry out from `w` on. -/
def applied : List (Commit Memory) → World Memory → List (Operation × Memory)
  | [], _ => []
  | c :: cs, w => begun c w ++ applied cs (apply c w)

/-- An operation on the store takes effect unless the adapter refuses the call. -/
def carry (name : String) (x : RecordId) (present : Bool) (a : Operation × Memory) : Bool :=
  if a.1.target = some name ∧ a.2.faults a.2.calls = false then presentAfter a.1 x present
  else present

theorem applied_append (cs ds : List (Commit Memory)) (w : World Memory) :
    applied (cs ++ ds) w = applied cs w ++ applied ds (cs.foldl (fun t c => apply c t) w) := by
  induction cs generalizing w with
  | nil => rfl
  | cons c cs ih =>
    change begun c w ++ applied (cs ++ ds) (apply c w) =
      begun c w ++ applied cs (apply c w) ++ applied ds (cs.foldl (fun t c => apply c t) (apply c w))
    rw [ih, List.append_assoc]

theorem applied_eq_nil {cs : List (Commit Memory)} (h : ∀ c ∈ cs, ∀ w, begun c w = [])
    (w : World Memory) : applied cs w = [] := by
  induction cs generalizing w with
  | nil => rfl
  | cons c cs ih =>
    change begun c w ++ applied cs (apply c w) = []
    rw [h c List.mem_cons_self, ih fun d hd => h d (List.mem_cons_of_mem _ hd)]
    rfl

/-- What the run of a procedure does to the presence of the record is what the operations
do that it carries out. -/
def Carries {α : Type} (e : MemoryEngine) (x : RecordId) (p : Prog Memory α) (w : World Memory) :
    Prop :=
  ∀ name ∈ e.vectorNames, Memory.vectorContains name (p.final w).memory x =
    (applied (p.trace w) w).foldl (carry name x) (Memory.vectorContains name w.memory x)

structure Silent (x : RecordId) (c : Commit Memory) : Prop where
  begins : ∀ w, begun c w = []
  moves : ∀ w name, Memory.vectorContains name (apply c w).memory x =
    Memory.vectorContains name w.memory x

section Rules
variable {α β : Type} {e : MemoryEngine} {x : RecordId} {w : World Memory}

theorem silent_of_kept {c : Commit Memory} (hbegins : ∀ w, begun c w = [])
    (hkept : touchesMemory c = false) : Silent x c :=
  ⟨hbegins, fun w name => by rw [memory_apply hkept w]⟩

theorem Carries.bind {p : Prog Memory α} {f : α → Prog Memory β} (hp : Carries e x p w)
    (hf : ∀ a t, p.run w = (.ok a, t) → Carries e x (f a) t) : Carries e x (p >>= f) w := by
  intro name hname
  rcases hrun : p.run w with ⟨_ | a, t⟩
  · have hfinal : (p >>= f).final w = p.final w := by
      unfold Proc.final
      rw [Proc.run_bind, hrun]
    rw [hfinal, Proc.trace_bind_error hrun]
    exact hp name hname
  · have ht : p.final w = t := Proc.final_of_run hrun
    have hp' := hp name hname
    rw [ht] at hp'
    have hfold : (p.trace w).foldl (fun t c => apply c t) w = t :=
      (Proc.final_eq_foldl p w).symm.trans ht
    rw [Proc.final_bind_ok hrun, Proc.trace_bind_ok hrun, applied_append, List.foldl_append, ← hp',
      hfold]
    exact hf a t hrun name hname

theorem carries_of_silent {p : Prog Memory α} (hp : p.Uses (Silent x)) (w : World Memory) :
    Carries e x p w := by
  intro name _
  rw [applied_eq_nil fun c hc => (hp.trace w c hc).begins]
  let view (t : World Memory) : Bool := Memory.vectorContains name t.memory x
  exact hp.run (R := fun s t => view t = view s) (fun _ => rfl) (fun _ _ _ h h' => h'.trans h)
    (fun c s hc => hc.moves s name) w

theorem carries_pure (a : α) : Carries e x (pure a) w := fun _ _ => rfl

theorem carries_read (f : World Memory → α) : Carries e x (Proc.read f) w := fun _ _ => rfl

theorem carries_commit {c : Commit Memory} (hc : Silent x c) : Carries e x (commit c) w :=
  carries_of_silent ((uses_commit _ _).mpr hc) w

end Rules

section Queue
variable {e : MemoryEngine} {x : RecordId} {w : World Memory}

theorem memory_runOp (c : WriteCoordinator Memory) (row : OpRow) (w : World Memory) :
    ((runOp c row).final w).memory = (answer c row.operation w.memory).2 := by
  rw [runOp_eq, Proc.final_bind_ok (callHandler_answer c row.operation w)]
  let result := (answer c row.operation w.memory).1
  let u : World Memory := { w with memory := (answer c row.operation w.memory).2 }
  obtain ⟨v, hv, acks, tick, rfl⟩ := recordAcks_run row.operation (reported row.operation result) u
  obtain ⟨_, _, hmemory, _⟩ := closing_verdict c row result
    ({ u with db := { u.db with indexAcks := acks }, tick := tick } : World Memory)
  rw [Proc.final_bind_ok hv]
  exact hmemory

theorem begun_closing (c : WriteCoordinator Memory) (row : OpRow) (result : Except String Acks)
    (w : World Memory) : begun (closing c row result) w = [] := by
  have hsetback : ∀ reason, begun (setback c row reason) w = [] := by
    intro reason
    unfold setback
    dsimp only
    split <;> rfl
  cases result with
  | error reason => exact hsetback reason
  | ok acks =>
    dsimp only [closing]
    split
    · rfl
    · exact hsetback _

theorem applied_runOp (c : WriteCoordinator Memory) (row : OpRow) (w : World Memory) :
    applied ((runOp c row).trace w) w = [] := by
  have huses : (runOp c row).Uses fun b => ∀ w, begun b w = [] := by
    rw [runOp_eq]
    refine Proc.Uses.bind ?_ fun result => Proc.Uses.bind ?_ fun _ => ?_
    · unfold callHandler
      split
      · trivial
      · exact (Proc.uses_performing _ _ _).mpr fun _ => rfl
    · exact Proc.Uses.forM _ _ fun _ _ => (uses_commit _ _).mpr fun _ => rfl
    · exact (uses_commit _ _).mpr (begun_closing c row result)
  exact applied_eq_nil (huses.trace w) w

theorem vectorContains_answer (op : Operation) (m : Memory) {name : String}
    (hname : name ∈ e.vectorNames) :
    Memory.vectorContains name (answer e.coordinator op m).2 x =
      carry name x (Memory.vectorContains name m x) (op, m) := by
  unfold answer carry
  cases htarget : op.target with
  | none => simp
  | some target =>
    dsimp only [Option.bind_some]
    cases hhandler : e.coordinator.handlers target with
    | none =>
      have hne : target ≠ name := by
        rintro rfl
        have hsome : e.coordinator.handlers target = some (makeHandler target) := if_pos hname
        rw [hsome] at hhandler
        cases hhandler
      simp [hne]
    | some handler =>
      rw [(handler_eq hhandler).2]
      refine (vectorContains_makeHandler target name op m x).trans ?_
      by_cases hsame : target = name
      · rw [hsame]
        simp
      · simp [hsame]

theorem carries_applySelected {row : OpRow} (hrow : row ∈ w.db.opLog.rows) :
    Carries e x (applySelected e.coordinator (some row)) w := by
  have hfilter : w.db.opLog.rows.filter (fun r => r.seq = row.seq) = [row] := by
    have hnodup : w.db.opLog.rows.Nodup :=
      .of_map OpRow.seq (w.db.opLog.seq_increasing.imp Nat.ne_of_lt)
    have hequal : w.db.opLog.rows.filter (fun r => r.seq = row.seq) =
        w.db.opLog.rows.filter fun r => r = row := by
      refine List.filter_congr fun r hr => decide_eq_decide.mpr ?_
      exact ⟨CoordinatorRuns.seq_unique hrow hr, congrArg OpRow.seq⟩
    rw [hequal, List.filter_eq, List.count_eq_one_of_mem hnodup hrow]
    rfl
  let t := apply (.setOpState row.seq .inProgress) w
  have htrace : applied ((applySelected e.coordinator (some row)).trace w) w =
      [(row.operation, w.memory)] := by
    obtain ⟨_, hrun⟩ := (CoordinatorRuns.runOp_returns e.coordinator row).run t
    change begun (.setOpState row.seq .inProgress) w ++ applied ((runOp e.coordinator row >>= fun _ =>
      pure (some row.operation.opId)).trace t) t = _
    rw [Proc.trace_bind_ok hrun, applied_append, applied_runOp]
    change (w.db.opLog.rows.filter fun r => r.seq = row.seq).map _ ++ ([] ++ []) = _
    rw [hfilter]
    rfl
  have hmemory : ((applySelected e.coordinator (some row)).final w).memory =
      (answer e.coordinator row.operation w.memory).2 := by
    refine Eq.trans ?_ (memory_runOp e.coordinator row t)
    exact congrArg World.memory (Proc.final_bind_pure _ _ t)
  intro name hname
  rw [htrace, hmemory]
  exact vectorContains_answer row.operation w.memory hname

theorem carries_applyNext (e : MemoryEngine) (x : RecordId) (w : World Memory) :
    Carries e x (applyNext e.coordinator) w := by
  have hkept : ∀ {c : Commit Memory}, (∀ w, begun c w = []) → touchesMemory c = false →
      ∀ t, Carries e x (commit c) t := fun hbegins hkept t => carries_commit (silent_of_kept hbegins hkept)
  refine (hkept (fun _ => rfl) rfl w).bind fun _ w _ => ?_
  refine (carries_of_silent ((uses_nowMs _).mpr (silent_of_kept (fun _ => rfl) rfl)) w).bind
    fun now w _ => ?_
  refine (carries_read _).bind fun selected t hselected => ?_
  cases hselected
  refine Carries.bind ?_ fun applied t _ => (hkept (fun _ => rfl) rfl t).bind fun _ _ _ =>
    carries_pure _
  change Carries e x (applySelected e.coordinator (selectEligible w.db.opLog now)) w
  cases hsel : selectEligible w.db.opLog now with
  | none => exact carries_pure _
  | some row => exact carries_applySelected (CoordinatorRuns.live_of_selectEligible hsel).1

theorem carries_drain (e : MemoryEngine) (x : RecordId) (steps : ℕ) (w : World Memory) :
    Carries e x (drain e.coordinator steps) w := by
  induction steps generalizing w with
  | zero => exact carries_pure _
  | succ steps ih =>
    refine (carries_applyNext e x w).bind fun applied t _ => ?_
    cases applied with
    | none => exact carries_pure _
    | some _ => exact (ih t).bind fun _ _ _ => carries_pure _

end Queue

section Deletions
variable {e : MemoryEngine} {x : RecordId} {w : World Memory}

theorem carries_remove {s : ManagedSurface Memory} (hs : s ∈ e.registry) (ids : List RecordId)
    (w : World Memory) : Carries e x (s.remove ids) w := by
  rcases List.mem_append.mp hs with hs | hs
  · rcases List.mem_cons.mp hs with rfl | hs
    · refine Carries.bind (carries_of_silent ?_ w) fun _ _ _ => carries_read _
      unfold CanonicalStore.removePostings
      split
      · trivial
      · exact (uses_commit _ _).mpr (silent_of_kept (fun _ => rfl) rfl)
    · obtain ⟨name, _, rfl⟩ := List.mem_map.mp hs
      refine (carries_of_silent ((uses_newOperationId _).mpr (silent_of_kept (fun _ => rfl) rfl))
        w).bind fun opId t _ => ?_
      refine (carries_of_silent ((uses_enqueue _ _).mpr (silent_of_kept (fun _ => rfl) rfl))
        t).bind fun _ t _ => ?_
      exact (carries_drain e x maxSteps t).bind fun _ _ _ => carries_read _
  · cases List.mem_singleton.mp hs
    exact (carries_commit ⟨fun _ => rfl, fun _ _ => rfl⟩).bind fun _ _ _ => carries_read _

theorem carries_purgeInto {registry : Registry Memory} (h : ∀ s ∈ registry, s ∈ e.registry)
    (ids : List RecordId) (report : Report) (w : World Memory) :
    Carries e x (purgeInto ids registry report) w := by
  induction registry generalizing report w with
  | nil => exact carries_pure _
  | cons s rest ih =>
    refine (carries_commit (silent_of_kept (fun _ => rfl) rfl)).bind fun _ t _ => ?_
    exact (carries_remove (h s List.mem_cons_self) ids t).bind fun perId t _ =>
      ih (fun r hr => h r (List.mem_cons_of_mem _ hr)) _ t

theorem absent_uses (e : MemoryEngine) (P : Commit Memory → Prop) :
    ∀ s ∈ e.registry, ∀ id, (s.absent id).Uses P := by
  intro s hs id
  rcases List.mem_append.mp hs with hs | hs
  · rcases List.mem_cons.mp hs with rfl | hs
    · exact uses_query P fun db => !db.hasPosting id
    · obtain ⟨name, _, rfl⟩ := List.mem_map.mp hs
      exact Proc.uses_read _ _
  · cases List.mem_singleton.mp hs
    exact Proc.uses_read _ _

theorem silent_mark (x id : RecordId) (state : DeletionState) (verifiedAt : Option Time) :
    Silent x (.setTombstoneState id state verifiedAt) :=
  silent_of_kept (fun _ => rfl) rfl

theorem carries_purgeRound (jobId : OpId) (ids : List RecordId) (mode : DeletionMode)
    (w : World Memory) : Carries e x (purgeRound e.deletion jobId ids mode) w := by
  rw [purgeRound_eq]
  refine (carries_of_silent (markAll_uses ids _ _ fun id _ => silent_mark x id _ _) w).bind
    fun _ t _ => ?_
  refine (carries_purgeInto (fun _ hs => hs) ids ∅ t).bind fun report t _ => ?_
  refine (carries_of_silent ?_ t).bind fun _ t _ => ?_
  · exact Proc.Uses.forM _ _ fun _ _ => Proc.Uses.forM _ _ fun _ _ =>
      (uses_commit _ _).mpr (silent_of_kept (fun _ => rfl) rfl)
  · split
    · refine carries_of_silent (Proc.Uses.bind ?_ fun _ => ?_) t
      · exact eraseWhenHard_uses _ ids mode (fun _ _ => silent_of_kept (fun _ => rfl) rfl)
          (silent_of_kept (fun _ => rfl) rfl)
      · exact confirm_uses (absent_uses e _) ids mode (silent_of_kept (fun _ => rfl) rfl)
          fun id _ now => silent_mark x id _ _
    · exact carries_pure _

theorem carries_purgeAndVerify (jobId : OpId) (ids : List RecordId) (mode : DeletionMode)
    (retries : ℕ) (w : World Memory) :
    Carries e x (purgeAndVerify e.deletion jobId ids mode retries) w := by
  have hmark : ∀ state t, Carries e x (markAll ids state) t := fun state t =>
    carries_of_silent (markAll_uses ids _ _ fun id _ => silent_mark x id _ _) t
  induction retries generalizing w with
  | zero =>
    rw [purgeAndVerify_zero]
    refine (carries_purgeRound jobId ids mode w).bind fun b t _ => ?_
    split
    · exact carries_pure _
    · exact hmark _ t
  | succ retries ih =>
    rw [purgeAndVerify_succ]
    refine (carries_purgeRound jobId ids mode w).bind fun b t _ => ?_
    split
    · exact carries_pure _
    · exact (hmark _ t).bind fun _ t _ => ih t

theorem carries_requestDeletion (recordId : RecordId) (mode : DeletionMode)
    (includeDependents : Bool) (w : World Memory) :
    Carries e x (requestDeletion e.deletion recordId mode includeDependents) w := by
  refine (carries_of_silent ((uses_newOperationId _).mpr (silent_of_kept (fun _ => rfl) rfl))
    w).bind fun jobId t _ => ?_
  refine (carries_read _).bind fun ids t _ => ?_
  refine (carries_of_silent (tombstoneAll_uses ids mode jobId fun _ _ =>
    silent_of_kept (fun _ => rfl) rfl) t).bind fun _ t _ => ?_
  exact (carries_purgeAndVerify jobId ids mode _ t).bind fun _ _ _ => carries_pure _

end Deletions
end StrataMemory.CarriedOperations
