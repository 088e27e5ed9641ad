import StrataMemory.ConcurrentWrites
import StrataMemory.DeletionRaces

set_option autoImplicit false

/-! Where two writers of one record leave the row, the posting and the vectors, for every
schedule of their turns and of the workers. -/
namespace StrataMemory.WriterRaces
open KeyedTables Records Tables Procedures Worlds Coordinator
open StoreRefinement WaitingQueue IndexAgreement SharedApplications ConcurrentWrites
open Engine Gateway NodeRuns Interleavings TurnTimes

section Orders
variable (p : Platform) (writing : Writer → Writing) (schedule : List Party)

def timeOf (i : Writer) (v : Event) : ℕ := turnAt (.writer i) ((writing i).turn v) schedule

/-- What a call reads back: the text of the other, if that has been written in between. -/
def readsBack (i : Writer) : String × String :=
  if timeOf writing schedule i .write < timeOf writing schedule i.other .write ∧
      timeOf writing schedule i.other .write < timeOf writing schedule i .readBack then
    (writing i.other).text p
  else (writing i).text p

/-- The call that writes the row last posts last and queues last for each store, or the other
call reads back what it has written. A store where the hashes agree does not matter. -/
def OneOrder (stores : ℕ) : Prop :=
  ∃ i : Writer,
    timeOf writing schedule i.other .write < timeOf writing schedule i .write ∧
      (timeOf writing schedule i .write < timeOf writing schedule i.other .readBack ∨
        timeOf writing schedule i.other .post < timeOf writing schedule i .post ∧
          ∀ store < stores,
            timeOf writing schedule i.other (.queue store) <
                timeOf writing schedule i (.queue store) ∨
              ((writing i.other).text p).2 = ((writing i).text p).2)

end Orders

/-- The posting has the text of the row, and each store its hash. -/
def Converged (e : MemoryEngine) (x : RecordId) (w : World Memory) : Prop :=
  ∃ row, w.db.readOne x = some row ∧ w.db.postings.get? x = some row.content ∧
    ∀ name ∈ e.vectorNames,
      Shows x w.memory.activeGeneration row.contentHash (contents (w.memory.store name))

section Runs
variable (s : Strata) (x : RecordId) (writing : Writer → Writing) (schedule : List Party)
  (generation : ℤ)

def InStages (n : ℕ) (c : Config Party (World Memory) (Commit Memory) PyError Unit)
    (drawn : Writer → Option OpId) : Prop :=
  ∀ i, Stage s x (writing i) (readsBack s.engine.platform writing schedule i) generation i
      (turnsBy (.writer i) schedule n) (drawn i) (c.programs (.writer i)) c.moment ∧
    (∀ opId ∈ drawn i, Reserved c.moment.state opId) ∧ ∀ opId ∈ drawn i, drawn i.other ≠ some opId

/-- When both calls have come to the event, the later of them decides. -/
def LastHolds (v : Event) (n : ℕ) (P : Writer → Prop) : Prop :=
  ∀ i : Writer, timeOf writing schedule i v ≤ n →
    timeOf writing schedule i.other v < timeOf writing schedule i v → P i

/-- What holds after `n` moves, as far as the order of the events is settled. -/
structure Kept (n : ℕ) (c : Config Party (World Memory) (Commit Memory) PyError Unit) : Prop where
  servable : Servable s.engine c.moment.state
  active : c.moment.state.memory.activeGeneration = generation
  stages : ∃ drawn, InStages s x writing schedule generation n c drawn
  workers : ∀ k, Meets (May s.engine (Party.worker k)) (.worker k) (fun _ _ => True)
    (c.programs (.worker k)) c.moment
  row : ∀ i : Writer, timeOf writing schedule i .write ≤ n →
    (timeOf writing schedule i.other .write ≤ n →
      timeOf writing schedule i.other .write < timeOf writing schedule i .write) →
    textOf c.moment.state.db x = some ((writing i).text s.engine.platform)
  posting : LastHolds writing schedule .post n fun i =>
    c.moment.state.db.postings.get? x = some (readsBack s.engine.platform writing schedule i).1
  store : ∀ store name, s.engine.vectorNames[store]? = some name →
    LastHolds writing schedule (.queue store) n fun i =>
      Shows x generation (readsBack s.engine.platform writing schedule i).2
        (pending c.moment.state name)

def Lost (c : Config Party (World Memory) (Commit Memory) PyError Unit) : Prop :=
  ∃ i e, c.programs (.writer i) = .fail e

end Runs

section Times
variable {writing : Writer → Writing} {schedule : List Party} {i : Writer} {n : ℕ}

theorem other_other (i : Writer) : i.other.other = i := by cases i <;> rfl

theorem other_ne (i : Writer) : i.other ≠ i := by cases i <;> decide

theorem eq_or_other (i j : Writer) : j = i ∨ j = i.other := by
  cases i <;> cases j <;> decide

theorem timeOf_le_iff (hn : n ≤ schedule.length) (v : Event) :
    timeOf writing schedule i v ≤ n ↔ (writing i).turn v ≤ turnsBy (.writer i) schedule n :=
  turnAt_le_iff hn

theorem timeOf_turn (writing : Writer → Writing) (hn : n < schedule.length)
    (ha : schedule[n]? = some (Party.writer i)) (v : Event) :
    (timeOf writing schedule i v ≤ n ↔ (writing i).turn v ≤ turnsBy (.writer i) schedule n) ∧
      (timeOf writing schedule i v ≤ n + 1 ↔
        (writing i).turn v ≤ turnsBy (.writer i) schedule n + 1) := by
  refine ⟨timeOf_le_iff (Nat.le_of_lt hn) v, ?_⟩
  rw [timeOf_le_iff hn, turnsBy_self ha]

theorem timeOf_idle {a : Party} (hn : n < schedule.length) (ha : schedule[n]? = some a)
    (hi : a ≠ .writer i) (v : Event) :
    timeOf writing schedule i v ≤ n + 1 ↔ timeOf writing schedule i v ≤ n := by
  rw [timeOf_le_iff hn, timeOf_le_iff (Nat.le_of_lt hn), turnsBy_other ha hi]

theorem LastHolds.turn {v : Event} {P Q : Writer → Prop} (h : LastHolds writing schedule v n P)
    (hn : n < schedule.length) (ha : schedule[n]? = some (Party.writer i))
    (hnow : turnsBy (.writer i) schedule n + 1 = (writing i).turn v → Q i)
    (hpast : (writing i).turn v ≤ turnsBy (.writer i) schedule n → ∀ j, P j → Q j) :
    LastHolds writing schedule v (n + 1) Q := by
  intro j hj horder
  obtain ⟨hbefore, hafter⟩ := timeOf_turn writing hn ha v
  have hidle : timeOf writing schedule i.other v ≤ n + 1 ↔ timeOf writing schedule i.other v ≤ n :=
    timeOf_idle hn ha (by simp [(other_ne i).symm]) v
  rcases eq_or_other i j with rfl | rfl
  · by_cases hturn : turnsBy (.writer j) schedule n + 1 = (writing j).turn v
    · exact hnow hturn
    · exact hpast (by omega) j (h j (by omega) horder)
  · have hself := other_other i
    have hordered := horder
    rw [hself] at hordered
    exact hpast (by omega) i.other (h i.other (by omega) horder)

theorem turn_pos (k : Writing) (v : Event) : 0 < k.turn v := by
  cases v <;> simp [Writing.turn]

theorem turn_le (k : Writing) {v : Event} {stores : ℕ} (hv : v.Within stores) :
    k.turn v ≤ k.opening + 2 * stores + 5 := by
  cases v with
  | queue store =>
    have hlt : store < stores := hv
    simp only [Writing.turn]
    omega
  | write | readBack | post =>
    simp only [Writing.turn]
    omega

theorem timeOf_ne (v : Event) (h : timeOf writing schedule i v ≤ schedule.length) :
    timeOf writing schedule i v ≠ timeOf writing schedule i.other v :=
  turnAt_ne (by simp [(other_ne i).symm]) (turn_pos _ v) h

end Times

section Steps
variable {s : Strata} {x : RecordId} {writing : Writer → Writing} {schedule : List Party}
  {generation : ℤ} {n : ℕ} {c : Config Party (World Memory) (Commit Memory) PyError Unit}

theorem Kept.worker (h : Kept s x writing schedule generation n c) (hn : n < schedule.length)
    {b : ℕ} (ha : schedule[n]? = some (.worker b)) :
    Kept s x writing schedule generation (n + 1) (turn c (.worker b)) := by
  obtain ⟨q, m, hmoved, hturn⟩ := turn_moved c (.worker b)
  obtain ⟨hmeets, hissued⟩ := (h.workers b).moved hmoved
  have hmoves : Issued s.engine (.worker b) c.moment m ∧
      Quiet s.engine c.moment.state m.state := by
    rcases hissued with rfl | ⟨k, hfree, hmay | ⟨hne, _⟩, rfl⟩
    · exact ⟨.inl rfl, .refl h.servable⟩
    · exact ⟨.inr ⟨k, hfree, .inl hmay, rfl⟩, hmay.quiet h.servable⟩
    · exact absurd rfl hne
  obtain ⟨hissues, hquiet⟩ := hmoves
  have hidle : ∀ (i : Writer) v, timeOf writing schedule i v ≤ n + 1 ↔
      timeOf writing schedule i v ≤ n := fun i v => timeOf_idle hn ha (by simp) v
  rw [hturn]
  refine ⟨hquiet.servable, hquiet.tables.generation.trans h.active, ?_, fun k => ?_, fun i => ?_,
    fun i => ?_, fun store name hname i => ?_⟩
  · obtain ⟨drawn, hstages⟩ := h.stages
    refine ⟨drawn, fun i => ?_⟩
    obtain ⟨hstage, hreserved, hother⟩ := hstages i
    refine ⟨?_, fun opId hid => (hreserved opId hid).quiet hquiet, hother⟩
    dsimp only
    rw [turnsBy_other ha (by simp), Function.update_of_ne (by simp)]
    exact hstage.rely (hissues.rely (by simp))
  · dsimp only
    by_cases hk : k = b
    · subst hk
      rw [Function.update_self]
      exact hmeets
    · rw [Function.update_of_ne (by simpa using hk)]
      exact (h.workers k).rely (hissues.rely (by simpa using Ne.symm hk))
  · rw [hidle, hidle, textOf_same hquiet.tables.canonical]
    exact h.row i
  · rw [hidle, hquiet.tables.postings]
    exact h.posting i
  · rw [hidle, hquiet.pending]
    exact h.store store name hname i

/-- What the row shows when the call reads it back. -/
theorem Kept.row_readBack (h : Kept s x writing schedule generation n c) (hn : n < schedule.length)
    {i : Writer} (ha : schedule[n]? = some (.writer i))
    (hturn : turnsBy (.writer i) schedule n + 1 = (writing i).turn .readBack) :
    textOf c.moment.state.db x =
      some (readsBack s.engine.platform writing schedule i) := by
  obtain ⟨hwrite, _⟩ := timeOf_turn writing hn ha .write
  obtain ⟨hreadBefore, hread⟩ := timeOf_turn writing hn ha .readBack
  have hturns : (writing i).turn .readBack = (writing i).turn .write + 1 := rfl
  have hwritten : timeOf writing schedule i .write ≤ n := hwrite.mpr (by omega)
  have hnow : timeOf writing schedule i .readBack = n + 1 := by omega
  have hne : timeOf writing schedule i .write ≠ timeOf writing schedule i.other .write :=
    timeOf_ne .write (Nat.le_of_lt (Nat.lt_of_le_of_lt hwritten hn))
  unfold readsBack
  split
  · rename_i hbetween
    have hother := other_other i
    refine h.row i.other (by omega) fun _ => ?_
    rw [hother]
    exact hbetween.1
  · rename_i hbetween
    exact h.row i hwritten fun _ => by omega

section Writers
variable {i : Writer} {mine mine' : Option OpId} {t : World Memory}

theorem Kept.row_turned (h : Kept s x writing schedule generation n c) (hn : n < schedule.length)
    (ha : schedule[n]? = some (.writer i))
    (hturned : Turned s x (writing i) (readsBack s.engine.platform writing schedule i)
      generation (turnsBy (.writer i) schedule n) mine mine' c.moment.state t) (j : Writer)
    (hj : timeOf writing schedule j .write ≤ n + 1)
    (horder : timeOf writing schedule j.other .write ≤ n + 1 →
      timeOf writing schedule j.other .write < timeOf writing schedule j .write) :
    textOf t.db x = some ((writing j).text s.engine.platform) := by
  obtain ⟨hbefore, hafter⟩ := timeOf_turn writing hn ha .write
  have hidle : timeOf writing schedule i.other .write ≤ n + 1 ↔
      timeOf writing schedule i.other .write ≤ n :=
    timeOf_idle hn ha (by simp [(other_ne i).symm]) .write
  rcases eq_or_other i j with rfl | rfl
  · by_cases hnow : turnsBy (.writer j) schedule n + 1 = (writing j).turn .write
    · exact hturned.written hnow
    · rw [hturned.unwritten hnow]
      exact h.row j (by omega) fun ho => horder (by omega)
  · have hself := other_other i
    rw [hself] at horder
    rw [hturned.unwritten (by omega)]
    refine h.row i.other (by omega) fun ho => ?_
    rw [hself] at ho ⊢
    exact horder (by omega)

theorem Kept.posting_turned (h : Kept s x writing schedule generation n c)
    (hn : n < schedule.length) (ha : schedule[n]? = some (.writer i))
    (hturned : Turned s x (writing i) (readsBack s.engine.platform writing schedule i)
      generation (turnsBy (.writer i) schedule n) mine mine' c.moment.state t) :
    LastHolds writing schedule .post (n + 1) fun j =>
      t.db.postings.get? x = some (readsBack s.engine.platform writing schedule j).1 := by
  refine h.posting.turn hn ha hturned.posted fun hpast j hj => ?_
  rw [hturned.unposted hpast]
  exact hj

theorem Kept.store_turned (h : Kept s x writing schedule generation n c)
    (hn : n < schedule.length) (ha : schedule[n]? = some (.writer i))
    (hturned : Turned s x (writing i) (readsBack s.engine.platform writing schedule i)
      generation (turnsBy (.writer i) schedule n) mine mine' c.moment.state t)
    (store : ℕ) (name : String) (hname : s.engine.vectorNames[store]? = some name) :
    LastHolds writing schedule (.queue store) (n + 1) fun j =>
      Shows x generation (readsBack s.engine.platform writing schedule j).2 (pending t name) := by
  refine (h.store store name hname).turn hn ha (hturned.queued store name hname)
    fun hpast j hj => ?_
  rw [hturned.unqueued store name hname (by omega)]
  exact hj

theorem Kept.writer (h : Kept s x writing schedule generation n c) (hn : n < schedule.length)
    (ha : schedule[n]? = some (.writer i)) :
    Lost (turn c (.writer i)) ∨
      Kept s x writing schedule generation (n + 1) (turn c (.writer i)) := by
  obtain ⟨q, m, hmoved, hturn⟩ := turn_moved c (.writer i)
  obtain ⟨drawn, hstages⟩ := h.stages
  obtain ⟨hstage, hreserved, hdistinct⟩ := hstages i
  obtain ⟨hstageOther, hreservedOther, _⟩ := hstages i.other
  rw [hturn]
  rcases hstage.moved hmoved h.servable h.active (h.row_readBack hn ha) hreserved with
    ⟨e, rfl⟩ | ⟨mine, hnext, hissues, hturned⟩
  · exact .inl ⟨i, e, Function.update_self _ _ _⟩
  have hapart : ∀ opId ∈ drawn i.other, Reserved m.state opId ∧ mine ≠ some opId :=
    fun opId hid => hturned.others opId (hreservedOther opId hid) fun hsame =>
      hdistinct opId hsame hid
  refine .inr ⟨hturned.servable, hturned.active.trans h.active,
    ⟨Function.update drawn i mine, fun j => ?_⟩, fun k => ?_, h.row_turned hn ha hturned,
    h.posting_turned hn ha hturned, h.store_turned hn ha hturned⟩
  · dsimp only
    rcases eq_or_other i j with rfl | rfl
    · rw [Function.update_self, Function.update_self, Function.update_of_ne (other_ne j),
        turnsBy_self ha]
      exact ⟨hnext, hturned.reserved, fun opId hid hsame => (hapart opId hsame).2 hid⟩
    · rw [Function.update_of_ne (other_ne i), Function.update_of_ne (by simp [other_ne i]),
        turnsBy_other ha (by simp [(other_ne i).symm]), other_other, Function.update_self]
      exact ⟨hstageOther.rely (hissues.rely (by simp [(other_ne i).symm])),
        fun opId hid => (hapart opId hid).1, fun opId hid => (hapart opId hid).2⟩
  · dsimp only
    rw [Function.update_of_ne (by simp)]
    exact (h.workers k).rely (hissues.rely (by simp))

end Writers

theorem Lost.turn (h : Lost c) (a : Party) : Lost (turn c a) := by
  obtain ⟨i, e, hfailed⟩ := h
  refine ⟨i, e, ?_⟩
  obtain ⟨q, m, hmoved, hturn⟩ := turn_moved c a
  rw [hturn]
  dsimp only
  by_cases ha : a = .writer i
  · subst ha
    rw [hfailed] at hmoved
    cases hmoved
    exact Function.update_self _ _ _
  · rw [Function.update_of_ne (Ne.symm ha)]
    exact hfailed

theorem kept_start {w : World Memory} (hx : ∀ i, (writing i).Names x) (hw : Servable s.engine w)
    (rounds : ℕ → ℕ) :
    Kept s x writing schedule w.memory.activeGeneration 0 (race s x writing rounds w) := by
  have hnever : ∀ i v, ¬ timeOf writing schedule i v ≤ 0 := fun i v hle => by
    have hturn := (timeOf_le_iff (Nat.zero_le _) v).mp hle
    have hpos := turn_pos (writing i) v
    rw [turnsBy_zero] at hturn
    omega
  refine ⟨hw, rfl, ⟨fun _ => none, fun i => ⟨?_, fun _ h => ?_, fun _ h => ?_⟩⟩,
    fun k => workerLoop_meets (rounds k) hw, fun i hi => absurd hi (hnever i _),
    fun i hi => absurd hi (hnever i _), fun _ _ _ i hi => absurd hi (hnever i _)⟩
  · rw [turnsBy_zero]
    exact stage_start (hx i) _
  · cases h
  · cases h

theorem kept_run {w : World Memory} (hx : ∀ i, (writing i).Names x) (hw : Servable s.engine w)
    (rounds : ℕ → ℕ) (hn : n ≤ schedule.length) :
    let c := play (race s x writing rounds w) (schedule.take n)
    Lost c ∨ Kept s x writing schedule w.memory.activeGeneration n c := by
  induction n with
  | zero =>
    rw [List.take_zero]
    exact .inr (kept_start hx hw rounds)
  | succ n ih =>
    have hmover : schedule[n]? = some schedule[n] := List.getElem?_eq_getElem hn
    rw [List.take_succ_eq_append_getElem hn]
    unfold play
    rw [List.foldl_append]
    rcases ih (Nat.le_of_succ_le hn) with hlost | hkept
    · exact .inl (hlost.turn _)
    · cases ha : schedule[n] with
      | worker b => exact .inr (hkept.worker hn (ha ▸ hmover))
      | writer i => exact hkept.writer hn (ha ▸ hmover)

end Steps

section Ends
variable {s : Strata} {x : RecordId} {writing : Writer → Writing} {schedule : List Party}
  {generation : ℤ} {c : Config Party (World Memory) (Commit Memory) PyError Unit} {i : Writer}

def Passed (s : Strata) (writing : Writer → Writing) (schedule : List Party) : Prop :=
  ∀ i, (writing i).opening + 2 * s.engine.vectorNames.length + 5 ≤
    turnsBy (.writer i) schedule schedule.length

theorem Passed.le (h : Passed s writing schedule) (i : Writer) {v : Event}
    (hv : v.Within s.engine.vectorNames.length) :
    timeOf writing schedule i v ≤ schedule.length :=
  (timeOf_le_iff (Nat.le_refl _) v).mpr ((turn_le (writing i) hv).trans (h i))

theorem Passed.later (h : Passed s writing schedule) (i : Writer) {v : Event}
    (hv : v.Within s.engine.vectorNames.length) :
    timeOf writing schedule i.other v < timeOf writing schedule i v ∨
      timeOf writing schedule i v < timeOf writing schedule i.other v := by
  have hne := timeOf_ne v (h.le i hv)
  omega

theorem LastHolds.decided {v : Event} {P : Writer → Prop}
    (h : LastHolds writing schedule v schedule.length P) (hpassed : Passed s writing schedule)
    (i : Writer) (hv : v.Within s.engine.vectorNames.length) :
    timeOf writing schedule i.other v < timeOf writing schedule i v ∧ P i ∨
      timeOf writing schedule i v < timeOf writing schedule i.other v ∧ P i.other := by
  have hself := other_other i
  rcases hpassed.later i hv with hlater | hlater
  · exact .inl ⟨hlater, h i (hpassed.le i hv) hlater⟩
  · exact .inr ⟨hlater, h i.other (hpassed.le i.other hv) (by rw [hself]; exact hlater)⟩

/-- Who writes the row last decides what the indexes should hold. -/
theorem Kept.converged_iff_text (h : Kept s x writing schedule generation schedule.length c)
    (hpassed : Passed s writing schedule) (hdrained : notDone c.moment.state.db.opLog = [])
    (hlast : timeOf writing schedule i.other .write < timeOf writing schedule i .write) :
    Converged s.engine x c.moment.state ↔
      c.moment.state.db.postings.get? x = some ((writing i).text s.engine.platform).1 ∧
        ∀ (store : ℕ) name, s.engine.vectorNames[store]? = some name →
          Shows x generation ((writing i).text s.engine.platform).2
            (pending c.moment.state name) := by
  have htext := h.row i (hpassed.le i trivial) fun _ => hlast
  unfold textOf at htext
  obtain ⟨row, hrow, htext⟩ := Option.map_eq_some_iff.mp htext
  have hidle : backlog c.moment.state = 0 := by rw [backlog, hdrained, List.length_nil]
  rw [pending_idle hidle, ← htext]
  constructor
  · rintro ⟨other, hother, hposting, hstores⟩
    cases hrow.symm.trans hother
    refine ⟨hposting, fun store name hname => ?_⟩
    rw [← h.active]
    exact hstores name (List.mem_of_getElem? hname)
  · rintro ⟨hposting, hstores⟩
    refine ⟨row, hrow, hposting, fun name hname => ?_⟩
    obtain ⟨store, hstore⟩ := List.getElem?_of_mem hname
    rw [h.active]
    exact hstores store name hstore

theorem Kept.converged_iff_orders (h : Kept s x writing schedule generation schedule.length c)
    (hpassed : Passed s writing schedule) (hdrained : notDone c.moment.state.db.opLog = [])
    (hdifferent : ∀ i : Writer, ((writing i.other).text s.engine.platform).1 ≠
      ((writing i).text s.engine.platform).1)
    (hlast : timeOf writing schedule i.other .write < timeOf writing schedule i .write) :
    Converged s.engine x c.moment.state ↔
      timeOf writing schedule i .write < timeOf writing schedule i.other .readBack ∨
        timeOf writing schedule i.other .post < timeOf writing schedule i .post ∧
          ∀ store < s.engine.vectorNames.length,
            timeOf writing schedule i.other (.queue store) <
                timeOf writing schedule i (.queue store) ∨
              ((writing i.other).text s.engine.platform).2 =
                ((writing i).text s.engine.platform).2 := by
  have hposting := h.posting.decided hpassed i trivial
  have hstore := fun (store : ℕ) name hname =>
    (h.store store name hname).decided hpassed i (store_lt hname)
  have hmine : readsBack s.engine.platform writing schedule i =
      (writing i).text s.engine.platform := if_neg (by omega)
  rw [h.converged_iff_text hpassed hdrained hlast]
  by_cases hread : timeOf writing schedule i .write < timeOf writing schedule i.other .readBack
  · have htheirs : readsBack s.engine.platform writing schedule i.other =
        (writing i).text s.engine.platform := by
      unfold readsBack
      rw [other_other]
      exact if_pos ⟨hlast, hread⟩
    simp only [hmine, htheirs] at hposting hstore
    refine ⟨fun _ => .inl hread, fun _ => ⟨?_, fun store name hname => ?_⟩⟩
    · exact hposting.elim And.right And.right
    · exact (hstore store name hname).elim And.right And.right
  · have htheirs : readsBack s.engine.platform writing schedule i.other =
        (writing i.other).text s.engine.platform := by
      unfold readsBack
      rw [other_other]
      exact if_neg fun hboth => hread hboth.2
    simp only [hmine, htheirs] at hposting hstore
    constructor
    · rintro ⟨hposted, hshown⟩
      refine .inr ⟨?_, fun store hlt => ?_⟩
      · rcases hposting with ⟨hlater, _⟩ | ⟨_, htheir⟩
        · exact hlater
        · exact absurd (Option.some.inj (htheir.symm.trans hposted)) (hdifferent i)
      · have hname := List.getElem?_eq_getElem hlt
        rcases hstore store _ hname with ⟨hlater, _⟩ | ⟨_, htheir⟩
        · exact .inl hlater
        · exact .inr (htheir.hash_eq (hshown store _ hname))
    · rintro (hread' | ⟨hlater, hstores⟩)
      · exact absurd hread' hread
      · refine ⟨?_, fun store name hname => ?_⟩
        · rcases hposting with ⟨_, hposted⟩ | ⟨hearlier, _⟩
          · exact hposted
          · omega
        · rcases hstore store name hname with ⟨_, hshown⟩ | ⟨hearlier, hshown⟩
          · exact hshown
          · rw [← (hstores store (store_lt hname)).resolve_left (by omega)]
            exact hshown

end Ends

/-- When two calls that write different contents under one id have returned and the queue is
drained, the indexes agree with the row if and only if one order decided everything. -/
theorem converged_iff_oneOrder (s : Strata) (x : RecordId) {writing : Writer → Writing}
    (hx : ∀ i, (writing i).Names x)
    (hdifferent : ((writing .first).text s.engine.platform).1 ≠
      ((writing .second).text s.engine.platform).1)
    (rounds : ℕ → ℕ) {w : World Memory} (hw : Servable s.engine w) (schedule : List Party)
    (hreturned : ∀ i, result ((play (race s x writing rounds w) schedule).programs (.writer i)) =
      some (.ok ()))
    (hdrained : notDone (play (race s x writing rounds w) schedule).moment.state.db.opLog = []) :
    Converged s.engine x (play (race s x writing rounds w) schedule).moment.state ↔
      OneOrder s.engine.platform writing schedule s.engine.vectorNames.length := by
  have hrun := kept_run hx hw rounds (Nat.le_refl schedule.length)
  rw [List.take_length] at hrun
  rcases hrun with ⟨i, e, hfailed⟩ | hkept
  · have hraised := hreturned i
    rw [hfailed] at hraised
    cases hraised
  obtain ⟨_, hstages⟩ := hkept.stages
  have hpassed : Passed s writing schedule := fun i => (hstages i).1.returned (hreturned i)
  have hcontents : ∀ i : Writer, ((writing i.other).text s.engine.platform).1 ≠
      ((writing i).text s.engine.platform).1 := fun i => by
    cases i with
    | first => exact hdifferent.symm
    | second => exact hdifferent
  constructor
  · intro hconverged
    rcases hpassed.later (v := .write) .first trivial with hlast | hlast
    · exact ⟨.first, hlast,
        (hkept.converged_iff_orders hpassed hdrained hcontents hlast).mp hconverged⟩
    · have hsecond : timeOf writing schedule Writer.second.other .write <
          timeOf writing schedule .second .write := hlast
      exact ⟨.second, hsecond,
        (hkept.converged_iff_orders hpassed hdrained hcontents hsecond).mp hconverged⟩
  · rintro ⟨i, hlast, horders⟩
    exact (hkept.converged_iff_orders hpassed hdrained hcontents hlast).mpr horders

def milkAndCocoa : Writer → Writing
  | .first => .update "milk"
  | .second => .update "cocoa"

theorem oneRecord_servable : Servable plainStrata.engine DeletionRaces.oneRecord := by
  have hdrained : notDone DeletionRaces.oneRecord.db.opLog = [] := by decide
  refine ⟨fun _ => rfl, by decide, ?_⟩
  rw [hdrained]
  exact fun _ h => absurd h List.not_mem_nil

set_option maxRecDepth 20000 in
theorem converged_iff_oneOrder_sequential :
    let schedule := List.replicate 100 (Party.writer .first) ++
      List.replicate 100 (Party.writer .second)
    Converged plainStrata.engine 1
        (play (race plainStrata 1 milkAndCocoa (fun _ => 1) DeletionRaces.oneRecord)
          schedule).moment.state ↔
      OneOrder plainStrata.engine.platform milkAndCocoa schedule
        plainStrata.engine.vectorNames.length :=
  converged_iff_oneOrder plainStrata 1 (fun i => by cases i <;> trivial) (by decide) _
    oneRecord_servable _ (fun i => by cases i <;> decide) (by decide)

/-- The first update has written the row and read it back before the second starts, and posts
and queues its text after the second has returned. -/
def lateIndexing : List Party :=
  List.replicate 6 (.writer .first) ++ List.replicate 100 (.writer .second) ++
    List.replicate 100 (.writer .first)

set_option maxRecDepth 20000 in
theorem overtaken_update_keeps_indexes :
    let c := play (race plainStrata 1 milkAndCocoa (fun _ => 1) DeletionRaces.oneRecord) lateIndexing
    (∀ i, result (c.programs (.writer i)) = some (.ok ())) ∧
      notDone c.moment.state.db.opLog = [] ∧
      (c.moment.state.db.readOne 1).map MemoryRecord.content = some "cocoa" ∧
      c.moment.state.db.postings.get? 1 = some "milk" ∧
      ¬ Converged plainStrata.engine 1 c.moment.state := by
  intro c
  have hrow : (c.moment.state.db.readOne 1).map MemoryRecord.content = some "cocoa" := by decide
  have hposting : c.moment.state.db.postings.get? 1 = some "milk" := by decide
  refine ⟨fun i => by cases i <;> decide, by decide, hrow, hposting, ?_⟩
  rintro ⟨row, hread, hposted, _⟩
  rw [hread] at hrow
  rw [hposting] at hposted
  have hmilk : "milk" = "cocoa" := (Option.some.inj hposted).trans (Option.some.inj hrow)
  exact absurd hmilk (by decide)

end StrataMemory.WriterRaces
