import StrataMemory.SharedViews

set_option autoImplicit false

namespace StrataMemory.SharedViews
open KeyedTables Records Tables Procedures Worlds CommitEffects Coordinator PendingRows
open HandlerEffects Engine Interleavings

variable {base : OpId} {x : RecordId} {i : Party} {m : Shared} {c : Commit Memory}

theorem notDone_start {log : OpLog} {row : OpRow} {rest : List OpRow}
    (h : notDone log = row :: rest) (now : Time) :
    notDone (log.advance (fun r => r.seq = row.seq)
      fun p => { p with state := .inProgress, updatedAt := now }) =
      { row with progress := { row.progress with state := .inProgress, updatedAt := now } } ::
        rest := by
  rw [notDone_advance h]
  rfl

theorem notDone_finish {log : OpLog} {row : OpRow} {rest : List OpRow}
    (h : notDone log = row :: rest) (acks : Acks) (now : Time) :
    notDone (log.advance (fun r => r.seq = row.seq)
      fun p => { p with state := .done, ackState := some (.acks acks), updatedAt := now }) =
      rest := by
  rw [notDone_advance h]
  rfl

theorem faults_makeHandler (name : String) (op : Operation) (v : Memory) :
    (makeHandler name op v).2.faults = v.faults := by
  unfold makeHandler
  split
  · rfl
  · exact (settings_applyToStore name op v).1

theorem removedLast_aside (henqueue : isEnqueue c = false) :
    removedLast ((i, c) :: m.history) = removedLast m.history := by
  change (isEnqueue c && _ || !(isEnqueue c && _) && removedLast m.history) = _
  rw [henqueue]
  rfl

theorem removals_aside (henqueue : isEnqueue c = false) :
    removals ((i, c) :: m.history) = removals m.history := by
  change removals m.history + (isEnqueue c && _).toNat = _
  rw [henqueue]
  rfl

theorem contents_le_cons (i : Party) (c : Commit Memory) (history : List (Party × Commit Memory)) :
    contents history ≤ contents ((i, c) :: history) :=
  Nat.le_add_right _ _

theorem Sound.of_aside (h : Sound base m)
    (hlog : (apply c m.state).db.opLog = m.state.db.opLog)
    (hids : (apply c m.state).operationIds = m.state.operationIds)
    (hfaults : (apply c m.state).memory.faults = m.state.memory.faults)
    (hdraw : isDraw c = false) (henqueue : isEnqueue c = false)
    (htakes : Locks.takes c = false) (hfrees : Locks.frees c = false)
    (hbound : contents ((i, c) :: m.history) ≤ 3) : Sound base (m.commit i c) where
  faults := hfaults.trans h.faults
  drawn := by
    change (apply c m.state).operationIds = base + (draws m.history + (isDraw c).toNat)
    rw [hids, hdraw]
    exact h.drawn
  known := by
    change ∀ row ∈ (apply c m.state).db.opLog.rows,
      row.operation.opId < (apply c m.state).operationIds
    rw [hlog, hids]
    exact h.known
  served := by
    change ∀ row ∈ notDone (apply c m.state).db.opLog, _
    rw [hlog]
    exact h.served
  free := by
    change (if Locks.takes c = true then some i else if Locks.frees c = true then none
      else m.holder) = none → ∀ row ∈ notDone (apply c m.state).db.opLog, Waiting row
    rw [hlog, htakes, hfrees]
    exact h.free
  room := by
    have hroom := h.room
    have hle := contents_le_cons i c m.history
    change (notDone (apply c m.state).db.opLog).length + 7 <
      maxSteps + contents ((i, c) :: m.history) + removals ((i, c) :: m.history)
    rw [hlog, removals_aside henqueue]
    omega
  bound := hbound
  few := (removals_aside henqueue).trans_le h.few
  late hlate := by
    have hthree := h.late ((removedLast_aside henqueue).symm.trans hlate)
    have hle := contents_le_cons i c m.history
    change contents ((i, c) :: m.history) = 3
    omega

theorem known_advance {log : OpLog} {ids : OpId} (h : ∀ row ∈ log.rows, row.operation.opId < ids)
    (p : OpRow → Bool) (f : Progress → Progress) :
    ∀ row ∈ (log.advance p f).rows, row.operation.opId < ids := by
  intro row hrow
  obtain ⟨old, hold, _, hop, _⟩ := CoordinatorRuns.mem_advance hrow
  rw [hop]
  exact h old hold

theorem Sound.writer (h : Sound base m) (hc : WriterStep i m c) : Sound base (m.commit i c) := by
  have hroom := h.room
  cases hc with
  | acquire => exact { h with free := nofun }
  | clock => exact h.of_aside rfl rfl rfl rfl rfl rfl rfl h.bound
  | ack => exact h.of_aside rfl rfl rfl rfl rfl rfl rfl h.bound
  | @start seq op held front =>
    obtain ⟨row, rest, hfront, rfl, rfl⟩ := front
    have hlive : notDone (m.commit i (.setOpState row.seq .inProgress)).state.db.opLog = _ :=
      notDone_start hfront m.state.now
    refine { h with known := known_advance h.known _ _, served := ?_, free := ?_, room := ?_ }
    · intro r hr
      rw [hlive] at hr
      rcases List.mem_cons.mp hr with rfl | hr
      · exact h.served row (hfront ▸ List.mem_cons_self)
      · exact h.served r (hfront ▸ List.mem_cons_of_mem _ hr)
    · intro hfree
      have hholder : m.holder = none := hfree
      rw [held] at hholder
      cases hholder
    · rw [hlive]
      rw [hfront] at hroom
      exact hroom
  | @handle seq op held front =>
    refine h.of_aside rfl rfl ?_ rfl rfl rfl rfl h.bound
    exact faults_makeHandler "hot" op m.state.memory
  | @finish seq op held front applied acks =>
    obtain ⟨row, rest, hfront, rfl, rfl⟩ := front
    have hlive : notDone (m.commit i (.finish row.seq acks .done)).state.db.opLog = _ :=
      notDone_finish hfront acks m.state.now
    refine { h with known := known_advance h.known _ _, served := ?_, free := ?_, room := ?_ }
    · intro r hr
      rw [hlive] at hr
      exact h.served r (hfront ▸ List.mem_cons_of_mem _ hr)
    · intro hfree
      have hholder : m.holder = none := hfree
      rw [held] at hholder
      cases hholder
    · rw [hlive]
      rw [hfront, List.length_cons] at hroom
      change rest.length + 7 < maxSteps + contents m.history + removals m.history
      omega
  | release held waiting => exact { h with free := fun _ => waiting }

theorem Sound.draw (h : Sound base m) : Sound base (m.commit i .newOperationId) :=
  { h with
    drawn := congrArg (· + 1) h.drawn
    known := fun row hrow => Nat.lt_succ_of_lt (h.known row hrow) }

theorem Sound.enqueue (h : Sound base m) {op : Operation} {j : Party} (served : Served op)
    (drawn : Drawn base j op.opId m) (hbound : contents ((i, .enqueue op) :: m.history) ≤ 3)
    (hfew : removals ((i, .enqueue op) :: m.history) ≤ 4)
    (hroom : contents m.history + removals m.history <
      contents ((i, .enqueue op) :: m.history) + removals ((i, .enqueue op) :: m.history))
    (hlate : removedLast ((i, .enqueue op) :: m.history) = false →
      contents ((i, .enqueue op) :: m.history) = 3) :
    Sound base (m.commit i (.enqueue op)) := by
  have hlive : notDone (m.commit i (.enqueue op)).state.db.opLog = _ := notDone_append drawn.unused
  refine { h with known := ?_, served := ?_, free := ?_, room := ?_, bound := hbound,
                  few := hfew, late := hlate }
  · intro row hrow
    change row ∈ (m.state.db.opLog.append op m.state.now).rows at hrow
    rw [rows_append drawn.unused] at hrow
    rcases List.mem_append.mp hrow with hrow | hrow
    · exact h.known row hrow
    · cases List.mem_singleton.mp hrow
      change op.opId < m.state.operationIds
      rw [h.drawn]
      exact owner_lt drawn.drawn
  · intro row hrow
    rw [hlive] at hrow
    rcases List.mem_append.mp hrow with hrow | hrow
    · exact h.served row hrow
    · cases List.mem_singleton.mp hrow
      exact served
  · intro hfree row hrow
    rw [hlive] at hrow
    rcases List.mem_append.mp hrow with hrow | hrow
    · exact h.free hfree row hrow
    · cases List.mem_singleton.mp hrow
      exact ⟨rfl, rfl⟩
  · rw [hlive, List.length_append, List.length_singleton]
    have hbefore := h.room
    change _ < maxSteps + contents ((i, .enqueue op) :: m.history) +
      removals ((i, .enqueue op) :: m.history)
    omega

theorem Sound.commit (h : Sound base m) (hc : May base x i m c) : Sound base (m.commit i c) := by
  cases i with
  | update =>
    cases (hc : UpdateStep base x m c) with
    | writer hw => exact h.writer hw
    | draw => exact h.draw
    | unpost => exact h.of_aside rfl rfl rfl rfl rfl rfl rfl h.bound
    | write hr first =>
      refine h.of_aside rfl rfl rfl rfl rfl rfl rfl ?_
      change contents m.history + 1 ≤ 3
      omega
    | post content second =>
      refine h.of_aside rfl rfl rfl rfl rfl rfl rfl ?_
      change contents m.history + 1 ≤ 3
      omega
    | @enqueue op third served drawn =>
      have hthree : contents ((.update, .enqueue op) :: m.history) = 3 := congrArg (· + 1) third
      refine h.enqueue served drawn hthree.le h.few ?_ fun _ => hthree
      rw [hthree, third]
      exact Nat.add_lt_add_right (Nat.lt_succ_self 2) _
  | deletion =>
    cases (hc : DeletionStep base m c) with
    | writer hw => exact h.writer hw
    | draw => exact h.draw
    | enqueue few served drawn =>
      exact h.enqueue served drawn h.bound few (Nat.lt_succ_self _) nofun
    | tombstone | mark | erase | rebuild | unpost | enter | dropArtifacts =>
      exact h.of_aside rfl rfl rfl rfl rfl rfl rfl h.bound

theorem view_start {row : OpRow} {rest : List OpRow}
    (front : notDone m.state.db.opLog = row :: rest) :
    view x (m.commit i (.setOpState row.seq .inProgress)) =
      { view x m with
        live := { row with progress :=
          { row.progress with state := .inProgress, updatedAt := m.state.now } } :: rest } :=
  congrArg (fun live => { view x m with live := live }) (notDone_start front m.state.now)

theorem view_finish {row : OpRow} {rest : List OpRow}
    (front : notDone m.state.db.opLog = row :: rest) (acks : Acks) :
    view x (m.commit i (.finish row.seq acks .done)) = { view x m with live := rest } :=
  congrArg (fun live => { view x m with live := live }) (notDone_finish front acks m.state.now)

theorem view_handle (h : Sound base m) (op : Operation) :
    view x (m.commit i (.memory fun v => (makeHandler "hot" op v).2)) =
      { view x m with present := fun id => presentAfter op id ((view x m).present id) } := by
  have hpresent : Memory.vectorContains "hot" (makeHandler "hot" op m.state.memory).2 =
      fun id => presentAfter op id (Memory.vectorContains "hot" m.state.memory id) := by
    funext id
    rw [vectorContains_makeHandler, h.faults, if_pos ⟨rfl, rfl⟩]
  have hartifacts : (makeHandler "hot" op m.state.memory).2.artifacts =
      m.state.memory.artifacts := by
    unfold makeHandler
    split
    · rfl
    · dsimp only [applyToStore]
      cases op.opType <;> rfl
  change View.mk _ _ (Memory.vectorContains "hot" (makeHandler "hot" op m.state.memory).2)
    (makeHandler "hot" op m.state.memory).2.artifacts.contains _ _ _ _ _ _ _ = _
  rw [hpresent, hartifacts]
  rfl

theorem writer_view (h : Sound base m) (hfree : m.blocks c = false) (hc : WriterStep i m c) :
    view x (m.commit i c) = view x m ∨ WriterMove i (view x m) (view x (m.commit i c)) := by
  cases hc with
  | acquire => exact .inr (.acquire (Option.not_isSome_iff_eq_none.mp (Bool.eq_false_iff.mp hfree)))
  | clock => exact .inl rfl
  | ack => exact .inl rfl
  | @start seq op held front =>
    obtain ⟨row, rest, hfront, rfl, rfl⟩ := front
    rw [view_start hfront]
    exact .inr (.start held hfront _)
  | @handle seq op held front =>
    obtain ⟨row, rest, hfront, rfl, rfl⟩ := front
    rw [view_handle h]
    exact .inr (.handle held hfront)
  | @finish seq op held front applied acks =>
    obtain ⟨row, rest, hfront, rfl, rfl⟩ := front
    rw [view_finish hfront]
    exact .inr (.finish held hfront applied)
  | release held waiting => exact .inr (.release held waiting)

theorem update_view (h : Sound base m) (hfree : m.blocks c = false) (hc : UpdateStep base x m c) :
    UpdateMove x (view x m) (view x (m.commit .update c)) := by
  cases hc with
  | writer hw =>
    rcases writer_view (x := x) h hfree hw with hv | hv
    · rw [hv]
      exact .idle
    · exact .writer hv
  | draw => exact .idle
  | unpost =>
    have hview : view x (m.commit .update (.removePostings [x])) =
        { view x m with posting := fun id => id ≠ x && (view x m).posting id } := by
      refine congrArg (fun posting => { view x m with posting := posting }) (funext fun id => ?_)
      refine (Table.contains_eraseAll _ _ _).trans ?_
      simp only [List.mem_singleton, decide_not]
      rfl
    rw [hview]
    exact .unpost
  | @write r hr first =>
    subst hr
    obtain ⟨row, hstatus, hrows⟩ := readOne_write m.state r
    have hview : view r.id (m.commit .update (.write r)) =
        { view r.id m with
          row := Function.update (view r.id m).row r.id (some row), contents := 1
          marked := decide (row.status = .deleted) && (view r.id m).marked } := by
      change View.mk _ (apply (.write r) m.state).db.readOne _ _ _ _ _ (contents m.history + 1) _ _
        (false || (!(decide (r.status ≠ .deleted) && true) && tombstonedLast r.id m.history)) = _
      rw [hrows, first, hstatus, Bool.false_or, Bool.and_true, decide_not, Bool.not_not]
      rfl
    rw [hview]
    exact .write row first
  | post content second =>
    have hview : view x (m.commit .update (.indexPosting x content)) =
        { view x m with
          posting := Function.update (view x m).posting x true, contents := 2 } := by
      change View.mk (apply (.indexPosting x content) m.state).db.hasPosting _ _ _ _ _ _
        (contents m.history + 1) _ _ _ = _
      rw [hasPosting_indexPosting, second]
      rfl
    rw [hview]
    exact .post second
  | @enqueue op third served drawn =>
    have hview : view x (m.commit .update (.enqueue op)) =
        { view x m with
          live := (view x m).live ++ [⟨m.state.db.opLog.nextSeq, op, m.state.now,
            ⟨.pending, 0, none, none, m.state.now⟩⟩]
          contents := 3, removed := false } := by
      change View.mk _ _ _ _ _ (notDone (m.state.db.opLog.append op m.state.now)) _
        (contents m.history + 1) _ _ _ = _
      rw [notDone_append drawn.unused, third]
      rfl
    rw [hview]
    exact .enqueue third ⟨rfl, rfl⟩

theorem deletion_view (h : Sound base m) (hfree : m.blocks c = false) (hc : DeletionStep base m c) :
    Around x .update (view x m) (view x (m.commit .deletion c)) := by
  cases hc with
  | writer hw =>
    rcases writer_view (x := x) h hfree hw with hv | hv
    · rw [hv]
      exact ⟨rfl, spares_of_eq rfl rfl rfl, fun hremoved => ⟨hremoved, .inl ⟨rfl, rfl⟩⟩⟩
    · refine ⟨hv.queueMove.contents_eq, hv.spares (by decide), fun hremoved => ?_⟩
      exact ⟨hv.queueMove.removed_eq.symm.trans hremoved, .inr hv.queueMove⟩
  | @enqueue op few served drawn =>
    refine ⟨rfl, fun hi => ⟨hi, rfl, [_], notDone_append drawn.unused, fun row hrow => ?_⟩, nofun⟩
    cases List.mem_singleton.mp hrow
    exact ⟨rfl, rfl⟩
  | draw | tombstone | mark | erase | rebuild | unpost | enter | dropArtifacts =>
    exact ⟨rfl, spares_of_eq rfl rfl rfl, fun hremoved => ⟨hremoved, .inl ⟨rfl, rfl⟩⟩⟩

theorem around_commit (h : Sound base m) {j : Party} (hj : j ≠ i) (hfree : m.blocks c = false)
    (hc : May base x j m c) : Around x i (view x m) (view x (m.commit j c)) := by
  cases i with
  | update =>
    cases j with
    | update => exact absurd rfl hj
    | deletion => exact deletion_view h hfree hc
  | deletion =>
    cases j with
    | update => exact update_view h hfree hc
    | deletion => exact absurd rfl hj

def At (base : OpId) (x : RecordId) (P : View → Prop) (m : Shared) : Prop :=
  Sound base m ∧ P (view x m)

theorem stable_at {P : View → Prop} (hP : ∀ v u, Around x i v u → P v → P u) :
    Stable (May base x) i (At base x P) :=
  fun _ _ _ hj hfree hc hm => ⟨hm.1.commit hc, hP _ _ (around_commit hm.1 hj hfree hc) hm.2⟩

theorem Drawn.opIds_append {j : Party} {op : Operation} (h : Drawn base j op.opId m) :
    (m.state.db.opLog.append op m.state.now).rows.map (fun r => r.operation.opId) =
      m.state.db.opLog.rows.map (fun r => r.operation.opId) ++ [op.opId] := by
  rw [rows_append h.unused, List.map_append]
  rfl

theorem opIds_writer {j : Party} (hc : WriterStep j m c) :
    (apply c m.state).db.opLog.rows.map (fun r => r.operation.opId) =
      m.state.db.opLog.rows.map fun r => r.operation.opId := by
  cases hc with
  | start | finish => exact opIds_advance _ _ _
  | acquire | clock | handle | ack | release => rfl

theorem opIds_commit {j : Party} (hc : May base x j m c) :
    (∃ op : Operation, Drawn base j op.opId m ∧
      (apply c m.state).db.opLog.rows.map (fun r => r.operation.opId) =
        m.state.db.opLog.rows.map (fun r => r.operation.opId) ++ [op.opId]) ∨
    (apply c m.state).db.opLog.rows.map (fun r => r.operation.opId) =
      m.state.db.opLog.rows.map fun r => r.operation.opId := by
  cases j with
  | update =>
    cases (hc : UpdateStep base x m c) with
    | writer hw => exact .inr (opIds_writer hw)
    | enqueue third served drawn => exact .inl ⟨_, drawn, drawn.opIds_append⟩
    | draw | unpost | write | post => exact .inr rfl
  | deletion =>
    cases (hc : DeletionStep base m c) with
    | writer hw => exact .inr (opIds_writer hw)
    | enqueue few served drawn => exact .inl ⟨_, drawn, drawn.opIds_append⟩
    | draw | tombstone | mark | erase | rebuild | unpost | enter | dropArtifacts => exact .inr rfl

theorem Drawn.other {a : OpId} {j : Party} (hj : j ≠ i) (h : Drawn base i a m)
    (hc : May base x j m c) : Drawn base i a (m.commit j c) where
  drawn := by
    change (if isDraw c && decide (a = base + draws m.history) then some j
      else owner base m.history a) = some i
    rw [if_neg]
    · exact h.drawn
    · rw [Bool.and_eq_true, decide_eq_true_eq]
      exact fun ⟨_, ha⟩ => Nat.lt_irrefl _ (ha ▸ owner_lt h.drawn)
  unused := by
    change a ∉ (apply c m.state).db.opLog.rows.map _
    rcases opIds_commit hc with ⟨op, hop, hids⟩ | hids
    · rw [hids, List.mem_append, List.mem_singleton, not_or]
      refine ⟨h.unused, fun ha => hj ?_⟩
      have howner := hop.drawn
      rw [← ha, h.drawn] at howner
      exact (Option.some.inj howner).symm
    · rw [hids]
      exact h.unused

end StrataMemory.SharedViews
