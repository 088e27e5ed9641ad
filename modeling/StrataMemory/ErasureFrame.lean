import StrataMemory.DeletionJobs
import StrataMemory.CarriedOperations

set_option autoImplicit false

/-! What an erasure does to a record it does not cover. Its row, tombstone and versions
stay; but the lexical index is rebuilt from all rows, so its posting stays only if it
had one exactly when it had a row, and the queue is drained, so its vectors go with the
queued operations that the drains carry out. -/
namespace StrataMemory.ErasureFrame
open KeyedTables Records Tables Procedures Worlds CommitEffects CoordinatorRuns HandlerEffects
open ManagedSurfaces SurfaceRounds DeletionFlows DeletionMachine DeletionInvariants
open VerifiedDeletions DeletionJobs
open Engine Gateway NodeRuns CarriedOperations

structure SameRow (x : RecordId) (w u : World Memory) : Prop where
  row : u.db.readOne x = w.db.readOne x
  tombstone : u.db.tombstones.get? x = w.db.tombstones.get? x
  versions : versionsOf u.db.canonical x = versionsOf w.db.canonical x

structure Undisturbed (e : MemoryEngine) (x : RecordId) (w u : World Memory) : Prop
    extends SameRow x w u where
  posting : u.db.hasPosting x = w.db.hasPosting x
  vector : ∀ name ∈ e.vectorNames,
    Memory.vectorContains name u.memory x = Memory.vectorContains name w.memory x

/-- Applied to its store as `w` has it, the operation would not change the presence of
the record. -/
def Harmless (e : MemoryEngine) (x : RecordId) (w : World Memory) (op : Operation) : Prop :=
  ∀ name ∈ e.vectorNames, op.target = some name →
    presentAfter op x (Memory.vectorContains name w.memory x) =
      Memory.vectorContains name w.memory x

theorem harmless_of_not_touched {e : MemoryEngine} {x : RecordId} {w : World Memory}
    {op : Operation} (h : x ∉ touched op) : Harmless e x w op :=
  fun _ _ _ => presentAfter_of_not_touched h _

def Settled (e : MemoryEngine) (x : RecordId) (w : World Memory) : Prop :=
  ∀ row ∈ w.db.opLog.rows, row.isLive = true → Harmless e x w row.operation

theorem settled_of_idle {e : MemoryEngine} {x : RecordId} {w : World Memory}
    (h : ∀ row ∈ w.db.opLog.rows, row.isLive = false) : Settled e x w := by
  intro row hrow hlive
  rw [h row hrow] at hlive
  cases hlive

def PostedAsStored (x : RecordId) (w : World Memory) : Prop :=
  w.db.hasPosting x = (w.db.readOne x).isSome

instance (x : RecordId) (w : World Memory) : Decidable (PostedAsStored x w) :=
  inferInstanceAs (Decidable (_ = _))

def Expected (e : MemoryEngine) (x : RecordId) (w : World Memory) (op : Operation) : Prop :=
  Settled e x w → Harmless e x w op

structure Framed (e : MemoryEngine) (x : RecordId) (w t : World Memory) : Prop
    extends SameRow x w t where
  vector : Settled e x w → ∀ name ∈ e.vectorNames,
    Memory.vectorContains name t.memory x = Memory.vectorContains name w.memory x
  queue : ∀ row ∈ t.db.opLog.rows, row.isLive = true → Expected e x w row.operation

theorem Framed.refl (e : MemoryEngine) (x : RecordId) (w : World Memory) : Framed e x w w where
  row := rfl
  tombstone := rfl
  versions := rfl
  vector _ _ _ := rfl
  queue row hrow hlive hsettled := hsettled row hrow hlive

section Commits
variable {e : MemoryEngine} {ids : List RecordId} {w t : World Memory} {x rid : RecordId}

theorem SameRow.of_authority {u : World Memory} (h : SameRow x w t)
    (hauth : authority u = authority t) : SameRow x w u := by
  obtain ⟨hcanonical, htombstones⟩ := Prod.mk.inj hauth
  refine ⟨?_, ?_, ?_⟩
  · unfold Db.readOne
    rw [hcanonical]
    exact h.row
  · rw [htombstones]
    exact h.tombstone
  · rw [hcanonical]
    exact h.versions

theorem Framed.progress {b : Commit Memory} {seq : ℕ} (h : Framed e x w t)
    (hb : progressSeq b = some seq)
    (hseq : ∀ row ∈ t.db.opLog.rows, row.seq = seq → Expected e x w row.operation) :
    Framed e x w (apply b t) where
  toSameRow := h.toSameRow.of_authority (authority_apply (by cases b <;> first | rfl | cases hb) t)
  vector := by cases b <;> first | exact h.vector | cases hb
  queue := by cases b <;> cases hb <;> exact live_advance h.queue hseq _

theorem Framed.handled (h : Framed e x w t) {name : String} {op : Operation}
    (hname : name ∈ e.vectorNames) (htarget : op.target = some name) (hop : Expected e x w op) :
    Framed e x w (apply (.memory fun m => (makeHandler name op m).2) t) :=
  { h with
    vector := fun hsettled other hother => by
      refine (vectorContains_makeHandler name other op t.memory x).trans ?_
      split
      · rename_i hsame
        rw [h.vector hsettled name hname, hop hsettled name hname htarget, hsame.2]
      · exact h.vector hsettled other hother }

theorem Framed.enqueueRemoval (h : Framed e x w t) (hx : x ∉ ids) (name : String) (opId : OpId) :
    Framed e x w (apply (.enqueue ⟨.removeIndex, ids, some name, none, none, opId⟩) t) :=
  { h with
    queue := by
      refine live_append h.queue (fun _ => harmless_of_not_touched fun hmem => ?_) _
      exact hx ((List.mem_append.mp hmem).resolve_right List.not_mem_nil) }

theorem Framed.tombstoneCommit (h : Framed e x w t) (hne : rid ≠ x) (mode : DeletionMode)
    (jobId : OpId) (state : DeletionState) :
    Framed e x w (apply (.tombstone rid mode jobId state) t) :=
  { h with
    row := by
      refine Eq.trans ?_ h.row
      change (t.db.canonical.records.modify rid _).get? x = _
      rw [Table.get?_modify, if_neg hne]
      rfl
    tombstone := (Table.get?_set_of_ne _ _ hne).trans h.tombstone }

theorem Framed.setTombstoneState (h : Framed e x w t) (hne : rid ≠ x) (state : DeletionState)
    (verifiedAt : Option Time) :
    Framed e x w (apply (.setTombstoneState rid state verifiedAt) t) :=
  { h with
    tombstone := by
      refine Eq.trans ?_ h.tombstone
      change (t.db.tombstones.modify rid _).get? x = _
      rw [Table.get?_modify, if_neg hne] }

theorem Framed.hardDelete (h : Framed e x w t) (hne : rid ≠ x) :
    Framed e x w (apply (.hardDelete rid) t) :=
  { h with
    row := by
      refine Eq.trans ?_ h.row
      change (t.db.canonical.records.erase rid).get? x = _
      rw [Table.get?_erase, if_neg hne.symm]
      rfl
    versions := (kept_deleteRow hne.symm ⟨rfl, rfl⟩).2.trans h.versions }

end Commits

theorem framed_purge (e : MemoryEngine) {ids : List RecordId} (w : World Memory) {x : RecordId}
    (hx : x ∉ ids) :
    PurgeInvariant e ids (Framed e x w) (Expected e x w) where
  live _ ht := ht.queue
  clock _ ht := { ht with }
  ack _ _ _ _ _ ht := { ht with }
  progress _ _ _ hb hseq ht := ht.progress hb hseq
  handled name handler op t hhandler htarget hop ht := by
    obtain ⟨hname, rfl⟩ := handler_eq hhandler
    exact ht.handled hname htarget hop
  unpost _ ht := { ht with }
  draw _ ht := { ht with }
  enqueueRemoval name opId _ ht := ht.enqueueRemoval hx name opId
  dropArtifacts _ ht := { ht with }

theorem framed_by_request (e : MemoryEngine) (recordId : RecordId) (mode : DeletionMode)
    (includeDependents : Bool) (w : World Memory) {x : RecordId}
    (hx : x ∉ covered w.db recordId includeDependents) :
    Framed e x w ((requestDeletion e.deletion recordId mode includeDependents).final w) := by
  have hother : ∀ {rid}, rid ∈ covered w.db recordId includeDependents → rid ≠ x :=
    fun hrid he => hx (he ▸ hrid)
  refine requestDeletion_keeps (I := Framed e x w) ?_ ?_ ?_
  · exact { Framed.refl e x w with }
  · exact fun rid hrid t ht => ht.tombstoneCommit (hother hrid) _ _ _
  · refine (framed_purge e w hx).deletion ?_ ?_ ?_
    · exact fun rid hrid state verifiedAt t ht => ht.setTombstoneState (hother hrid) state verifiedAt
    · exact fun _ rid hrid t ht => ht.hardDelete (hother hrid)
    · exact fun _ t ht => { ht with }

section Reached
variable {V : Type}

/-- A round up to its report: whether every surface acknowledged every id. -/
def purgeOpening (svc : DeletionService V) (jobId : OpId) (ids : List RecordId) : Prog V Bool := do
  markAll ids .indexDeleting
  let report ← purge svc.registry ids
  recordReport jobId report
  return report.allTrue

def acknowledged (svc : DeletionService V) (jobId : OpId) (ids : List RecordId) (w : World V) :
    Bool :=
  match ((purgeOpening svc jobId ids).run w).1 with
  | .ok answer => answer
  | .error _ => false

/-- Some round of the loop is acknowledged, and goes on to `_hard_erase`. -/
def reachesErasure (svc : DeletionService V) (jobId : OpId) (ids : List RecordId) :
    ℕ → World V → Bool
  | 0, w => acknowledged svc jobId ids w
  | retries + 1, w => acknowledged svc jobId ids w || reachesErasure svc jobId ids retries
      ((markAll ids .partialFailure).final ((purgeOpening svc jobId ids).final w))

/-- A hard deletion requested in `w` comes to erase. -/
def erases (svc : DeletionService V) (recordId : RecordId) (includeDependents : Bool)
    (w : World V) : Bool :=
  let ids := covered w.db recordId includeDependents
  reachesErasure svc w.operationIds ids svc.maxRetries
    ((tombstoneAll ids .hard w.operationIds).final (apply .newOperationId w))

theorem purgeRound_opening (svc : DeletionService V) (jobId : OpId) (ids : List RecordId)
    (mode : DeletionMode) : purgeRound svc jobId ids mode =
      (purgeOpening svc jobId ids >>= fun answer =>
        if answer then eraseWhenHard svc ids mode >>= fun _ => confirm svc ids mode
        else pure false) := by
  rw [purgeRound_eq]
  unfold purgeOpening
  simp only [bind_assoc, pure_bind]

theorem opening_run {svc : DeletionService V} (hr : ∀ s ∈ svc.registry, Lawful s) (jobId : OpId)
    (ids : List RecordId) (w : World V) : (purgeOpening svc jobId ids).run w =
      (.ok (acknowledged svc jobId ids w), (purgeOpening svc jobId ids).final w) := by
  have hreturns : (purgeOpening svc jobId ids).Returns :=
    (markAll_returns ids _ _).bind fun _ => (purgeInto_returns hr ids ∅).bind fun report =>
      (recordReport_returns jobId report).bind fun _ => Proc.Returns.pure _
  obtain ⟨answer, hrun⟩ := hreturns.run w
  unfold acknowledged
  rw [hrun]

end Reached

theorem hasPosting_rebuild (t : World Memory) (id : RecordId) :
    (apply .rebuildPostings t).db.hasPosting id = (t.db.readOne id).isSome :=
  Table.contains_mapValues t.db.canonical.records MemoryRecord.content id

structure Shows (x : RecordId) (posted : Bool) (row : Option MemoryRecord) (t : World Memory) :
    Prop where
  posting : t.db.hasPosting x = posted
  stored : t.db.readOne x = row

section Postings
variable {e : MemoryEngine} {ids : List RecordId} {x : RecordId} {posted : Bool}
  {row : Option MemoryRecord}

theorem shows_purge (e : MemoryEngine) (hx : x ∉ ids) :
    PurgeInvariant e ids (Shows x posted row) fun _ => True where
  live _ _ _ _ _ := trivial
  clock _ ht := { ht with }
  ack _ _ _ _ _ ht := { ht with }
  progress b _ _ hb _ ht := by
    cases b <;> first | exact { ht with } | cases hb
  handled _ _ _ _ _ _ _ ht := { ht with }
  unpost t ht := by
    refine ⟨Eq.trans ?_ ht.posting, ht.stored⟩
    change (t.db.postings.eraseAll ids).contains x = _
    rw [Table.contains_eraseAll, decide_eq_false hx]
    rfl
  draw _ ht := { ht with }
  enqueueRemoval _ _ _ ht := { ht with }
  dropArtifacts _ ht := { ht with }

theorem shows_hardDelete {rid : RecordId} (hne : rid ≠ x) {t : World Memory}
    (ht : Shows x posted row t) : Shows x posted row (apply (.hardDelete rid) t) := by
  refine ⟨ht.posting, Eq.trans ?_ ht.stored⟩
  change (t.db.canonical.records.erase rid).get? x = _
  rw [Table.get?_erase, if_neg hne.symm]
  rfl

theorem shows_rebuild {t : World Memory} (ht : Shows x posted row t) :
    Shows x row.isSome row (apply .rebuildPostings t) :=
  ⟨by rw [hasPosting_rebuild, ht.stored], ht.stored⟩

theorem shows_deletion (e : MemoryEngine) (hx : x ∉ ids) (jobId : OpId) :
    DeletionInvariant e.deletion jobId ids .hard (Shows x row.isSome row) :=
  (shows_purge e hx).deletion (fun _ _ _ _ _ ht => { ht with })
    (fun _ _ hid _ ht => shows_hardDelete (ne_of_mem_of_not_mem hid hx) ht)
    fun _ _ ht => shows_rebuild ht

theorem shows_opening (hx : x ∉ ids) (jobId : OpId) :
    (purgeOpening e.deletion jobId ids).Preserves (Shows x posted row) := by
  refine Proc.Preserves.bind (Proc.Preserves.forM _ _ fun _ _ => Proc.Preserves.perform
    fun _ ht => { ht with }) fun _ => ?_
  refine (shows_purge e hx).purge.bind fun report => ?_
  refine Proc.Preserves.bind (Proc.Preserves.forM _ _ fun _ _ => Proc.Preserves.forM _ _
    fun _ _ => Proc.Preserves.perform fun _ ht => { ht with }) fun _ => ?_
  exact Proc.Preserves.pure _

theorem shows_erase (hx : x ∉ ids) {t : World Memory} (ht : Shows x posted row t) :
    Shows x row.isSome row ((eraseWhenHard e.deletion ids .hard).final t) := by
  let deletes : Prog Memory Unit := ids.forM fun rid => commit (.hardDelete rid)
  have hreturns : deletes.Returns := Proc.Returns.forM _ _ fun _ _ => returns_commit _
  have hkeeps : deletes.Preserves (Shows x posted row) := Proc.Preserves.forM _ _ fun rid hrid =>
    Proc.Preserves.perform fun _ ht => shows_hardDelete (ne_of_mem_of_not_mem hrid hx) ht
  obtain ⟨_, hrun⟩ := hreturns.run t
  have hdeleted : Shows x posted row (deletes.final t) := hkeeps t ht
  have hfinal : (eraseWhenHard e.deletion ids .hard).final t =
      apply .rebuildPostings (deletes.final t) := Proc.final_bind_ok hrun
  rw [hfinal]
  exact shows_rebuild hdeleted

/-- A round that is acknowledged posts the record as it is stored; another one leaves it. -/
theorem shows_purgeRound (hx : x ∉ ids) (jobId : OpId) {w : World Memory}
    (hw : Shows x posted row w) :
    (acknowledged e.deletion jobId ids w = true →
      Shows x row.isSome row ((purgeRound e.deletion jobId ids .hard).final w)) ∧
    (acknowledged e.deletion jobId ids w = false →
      (purgeRound e.deletion jobId ids .hard).run w =
        (.ok false, (purgeOpening e.deletion jobId ids).final w)) := by
  have hlawful : ∀ s ∈ e.deletion.registry, Lawful s := engine_lawful e
  have hopening := opening_run hlawful jobId ids w
  have hround : (purgeRound e.deletion jobId ids .hard).run w =
      (if acknowledged e.deletion jobId ids w then
        eraseWhenHard e.deletion ids .hard >>= fun _ => confirm e.deletion ids .hard
      else pure false).run ((purgeOpening e.deletion jobId ids).final w) := by
    rw [purgeRound_opening]
    exact Proc.run_bind_ok hopening
  refine ⟨fun hack => ?_, fun hack => ?_⟩
  · rw [hack, if_pos rfl] at hround
    unfold Proc.final
    rw [hround]
    obtain ⟨_, herase⟩ := (eraseWhenHard_returns e.deletion ids .hard).run
      ((purgeOpening e.deletion jobId ids).final w)
    rw [Proc.run_bind_ok herase]
    have hconfirm : (confirm e.deletion ids .hard).Uses fun c => ∀ t : World Memory,
        Shows x row.isSome row t → Shows x row.isSome row (apply c t) :=
      confirm_uses (absent_uses e _) ids .hard (fun _ ht => { ht with })
        fun _ _ _ _ ht => { ht with }
    exact hconfirm.preserves (fun c t hc ht => hc t ht) _
      (shows_erase hx (shows_opening hx jobId w hw))
  · rw [hround, hack]
    rfl

theorem posting_bind_round (hx : x ∉ ids) (jobId : OpId) {w : World Memory}
    (hw : Shows x posted row w) {f : Bool → Prog Memory Unit}
    (hf : ∀ b, (f b).Preserves (Shows x row.isSome row)) :
    ((purgeRound e.deletion jobId ids .hard >>= f).final w).db.hasPosting x =
      if acknowledged e.deletion jobId ids w then row.isSome
      else ((f false).final ((purgeOpening e.deletion jobId ids).final w)).db.hasPosting x := by
  obtain ⟨hreached, hrefused⟩ := shows_purgeRound (e := e) hx jobId hw
  cases hack : acknowledged e.deletion jobId ids w with
  | true =>
    have hlawful : ∀ s ∈ e.deletion.registry, Lawful s := engine_lawful e
    obtain ⟨b, hround⟩ := (purgeRound_returns hlawful jobId ids .hard).run w
    rw [Proc.final_bind_ok hround]
    exact (hf b _ (hreached hack)).posting
  | false =>
    rw [Proc.final_bind_ok (hrefused hack)]
    rfl

theorem posting_purgeAndVerify (hx : x ∉ ids) (jobId : OpId) (retries : ℕ) {w : World Memory}
    (hw : Shows x posted row w) :
    ((purgeAndVerify e.deletion jobId ids .hard retries).final w).db.hasPosting x =
      if reachesErasure e.deletion jobId ids retries w then row.isSome else posted := by
  have hdeletion : DeletionInvariant e.deletion jobId ids .hard (Shows x row.isSome row) :=
    shows_deletion e hx jobId
  have hmark : ∀ state t, Shows x posted row t →
      Shows x posted row ((markAll ids state).final t) := fun state t ht =>
    Proc.Preserves.forM _ _ (fun _ _ => Proc.Preserves.perform fun _ ht => { ht with }) t ht
  induction retries generalizing w with
  | zero =>
    rw [purgeAndVerify_zero, reachesErasure, posting_bind_round hx jobId hw fun b => ?_]
    · exact congrArg _ (hmark _ _ (shows_opening hx jobId w hw)).posting
    · cases b with
      | true => exact Proc.Preserves.pure _
      | false => exact hdeletion.markAll _ _
  | succ retries ih =>
    rw [purgeAndVerify_succ, reachesErasure, posting_bind_round hx jobId hw fun b => ?_]
    · cases acknowledged e.deletion jobId ids w with
      | true => rfl
      | false =>
        obtain ⟨_, hmarked⟩ := (markAll_returns ids .partialFailure none).run
          ((purgeOpening e.deletion jobId ids).final w)
        refine (congrArg (fun t : World Memory => t.db.hasPosting x)
          (Proc.final_bind_ok hmarked)).trans ?_
        exact ih (hmark _ _ (shows_opening hx jobId w hw))
    · cases b with
      | true => exact Proc.Preserves.pure _
      | false => exact (hdeletion.markAll _ _).bind fun _ => hdeletion.purgeAndVerify retries

theorem posting_requestDeletion (e : MemoryEngine) (w : World Memory) (recordId : RecordId)
    (includeDependents : Bool) (hx : x ∉ covered w.db recordId includeDependents) :
    ((requestDeletion e.deletion recordId .hard includeDependents).final w).db.hasPosting x =
      if erases e.deletion recordId includeDependents w then (w.db.readOne x).isSome
      else w.db.hasPosting x := by
  rw [requestDeletion_final]
  refine posting_purgeAndVerify hx _ _ ?_
  refine Proc.Preserves.forM _ _ (fun id hid => Proc.Preserves.perform fun t ht => ?_)
    (apply .newOperationId w) ⟨rfl, rfl⟩
  refine ⟨ht.posting, Eq.trans ?_ ht.stored⟩
  change (t.db.canonical.records.modify id _).get? x = _
  rw [Table.get?_modify, if_neg (ne_of_mem_of_not_mem hid hx)]
  rfl

end Postings

/-- The operations, taken in their order, leave every store as it is about the record. -/
def Unmoved (e : MemoryEngine) (x : RecordId) (w : World Memory)
    (operations : List (Operation × Memory)) : Prop :=
  ∀ name ∈ e.vectorNames, operations.foldl (carry name x)
    (Memory.vectorContains name w.memory x) = Memory.vectorContains name w.memory x

/-- The adapters refuse every call from the fourth on. -/
def refusingWorld : World Memory :=
  { plainWorld with memory := { plainWorld.memory with faults := fun n => 3 ≤ n } }

end StrataMemory.ErasureFrame
