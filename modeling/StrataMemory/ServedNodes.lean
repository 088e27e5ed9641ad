import StrataMemory.BundleSoundness
import StrataMemory.ProtectedCorrections
import StrataMemory.RemoteCalls
import StrataMemory.TombstoneFinality

set_option autoImplicit false

/-!
# The node behind the server

Requests are texts of any kind, in any order, and other code may use the node between them. What
they do is what some operations of the gateway do, and what was deleted is not served.
-/
namespace StrataMemory.ServedNodes
open Records Tables Procedures Worlds CommitEffects DeletionFlows DeletionMachine DeletionInvariants
open SettledFlows Resolver Engine Gateway NodeRuns JsonTexts BundleTexts HttpServer FacadeCalls
open HttpRoutes (Method routes dispatch)
open ProtectedCorrections (Chain chain_normal supersede_stores)
open TombstoneFinality (Move move move_isTombstoned moves_isTombstoned)
open StoredRuns (halves)

variable {f : FloatText ℚ} {s : Strata} {h : Host}

theorem facade_answer {i : Invocation ℚ} {w t : World Memory} {out : Outcome ℚ}
    (hout : facade s h i w = some (out, t)) :
    ∃ c, ofInvocation i = some c ∧ answer s h w c = (out, t) :=
  Option.map_eq_some_iff.mp hout

theorem calls_cases (p : Platform) (c : FacadeCall) :
    calls p c = [] ∨ ∃ d, isGatewayOperation d = true ∧ calls p c = [d] := by
  cases c with
  | writeEvent content => exact .inr ⟨_, rfl, rfl⟩
  | writeMemory content tier recordType sensitivity confidence =>
    dsimp only [calls]
    split
    · exact .inl rfl
    · exact .inr ⟨_, rfl, rfl⟩
  | «recall» query topK diversity => exact .inl rfl
  | updateMemory recordId content status =>
    dsimp only [calls]
    split
    · exact .inl rfl
    · exact .inr ⟨_, rfl, rfl⟩
  | supersedeMemory oldId content => exact .inr ⟨_, rfl, rfl⟩
  | deleteMemory recordId mode => exact .inr ⟨_, rfl, rfl⟩
  | deletionStatus jobId => exact .inl rfl
  | explainMemory recordId => exact .inl rfl
  | runReflection job =>
    dsimp only [calls]
    split
    · exact .inr ⟨_, rfl, rfl⟩
    · split
      · exact .inr ⟨_, rfl, rfl⟩
      · exact .inl rfl

/-- A request does what one operation of the gateway does, or nothing. -/
theorem posted_is_run {req : Request} {w t : World Memory} {reply : Option Response}
    (hpost : doPost f (facade s h) req w = some (reply, t)) :
    ∃ cs : List Call, cs.length ≤ 1 ∧ (∀ c ∈ cs, isGatewayOperation c = true) ∧
      t = runCalls s w cs := by
  rcases doPost_state hpost with rfl | ⟨i, out, hout⟩
  · exact ⟨[], Nat.zero_le _, List.forall_mem_nil _, rfl⟩
  · obtain ⟨c, _, hc⟩ := facade_answer hout
    have ht : t = runCalls s w (calls s.engine.platform c) := by
      rw [← answer_world s h, hc]
    rcases calls_cases s.engine.platform c with hnone | ⟨d, hd, hone⟩
    · exact ⟨[], Nat.zero_le _, List.forall_mem_nil _, hnone ▸ ht⟩
    · exact ⟨[d], Nat.le_refl _, List.forall_mem_singleton.mpr hd, hone ▸ ht⟩

/-- Whatever clients send, what the requests do to the node is what operations of the gateway
do, one after another, at most one for each request. -/
theorem served_is_run (f : FloatText ℚ) (s : Strata) (h : Host) {requests : List Request}
    {w t : World Memory} {replies : List (Option Response)}
    (hserve : serve f (facade s h) requests w = some (replies, t)) :
    replies.length = requests.length ∧ ∃ cs : List Call, cs.length ≤ requests.length ∧
      (∀ c ∈ cs, isGatewayOperation c = true) ∧ t = runCalls s w cs := by
  induction requests generalizing w replies with
  | nil =>
    cases hserve
    exact ⟨rfl, [], Nat.le_refl _, List.forall_mem_nil _, rfl⟩
  | cons req rest ih =>
    obtain ⟨⟨reply, u⟩, hpost, hrest⟩ := Option.bind_eq_some_iff.mp hserve
    obtain ⟨⟨more, v⟩, hmore, heq⟩ := Option.map_eq_some_iff.mp hrest
    cases heq
    obtain ⟨cs, hfirst, hcs, rfl⟩ := posted_is_run hpost
    obtain ⟨hlength, ds, hcount, hds, rfl⟩ := ih hmore
    refine ⟨congrArg Nat.succ hlength, cs ++ ds, ?_, fun d hd => ?_, List.foldl_append.symm⟩
    · rw [List.length_append, List.length_cons, Nat.add_comm rest.length]
      exact Nat.add_le_add hfirst hcount
    · exact (List.mem_append.mp hd).elim (hcs d) (hds d)

theorem served_is_run_event :
    ∃ replies t, ∃ cs : List Call,
      serve halves (facade plainStrata plainHost) [⟨"/forget", ""⟩,
        request halves .compact (path (.writeEvent "tea")) (fields (.writeEvent "tea"))] plainWorld =
          some (replies, t) ∧ (t.db.readOne 1).isSome = true ∧ replies.length = 2 ∧
      cs.length ≤ 2 ∧ (∀ c ∈ cs, isGatewayOperation c = true) ∧
      t = runCalls plainStrata plainWorld cs := by
  have hevent : Sendable halves (.writeEvent "tea") := trivial
  have hpost := doPost_call (s := plainStrata) (w := plainWorld) plainHost .compact hevent
  have hserve : serve halves (facade plainStrata plainHost) [⟨"/forget", ""⟩,
      request halves .compact (path (.writeEvent "tea")) (fields (.writeEvent "tea"))] plainWorld =
        some ([some (send halves 404 (errorJson "unknown endpoint")),
          some (respond halves (answer plainStrata plainHost plainWorld (.writeEvent "tea")).1)],
          (answer plainStrata plainHost plainWorld (.writeEvent "tea")).2) := by
    have hunknown : doPost halves (facade plainStrata plainHost) ⟨"/forget", ""⟩ plainWorld =
        some (some (send halves 404 (errorJson "unknown endpoint")), plainWorld) := rfl
    rw [serve, hunknown, Option.bind_some, serve, hpost]
    rfl
  obtain ⟨hreplies, cs, hcount, hcs, ht⟩ := served_is_run halves plainStrata plainHost hserve
  exact ⟨_, _, cs, hserve, by decide, hreplies, hcount, hcs, ht⟩

def Deletes (f : FloatText ℚ) (req : Request) (id : RecordId) : Prop :=
  req.path = "/delete_memory" ∧ ∃ body, loads f (bodyText req) = some (.obj body) ∧
    body.lookup "record_id" = some (.int id)

inductive Event where
  | request (req : Request)
  | move (m : Move)

def happen (f : FloatText ℚ) (s : Strata) (h : Host) (w : World Memory) :
    Event → Option (World Memory)
  | .request req => (doPost f (facade s h) req w).map Prod.snd
  | .move m => some (move s w m)

theorem happen_isTombstoned {w t : World Memory} {e : Event} (ht : happen f s h w e = some t)
    {id : RecordId} (hid : w.db.isTombstoned id = true) : t.db.isTombstoned id = true := by
  cases e with
  | request req =>
    obtain ⟨⟨reply, u⟩, hpost, rfl⟩ := Option.map_eq_some_iff.mp ht
    obtain ⟨cs, _, _, hrun⟩ := posted_is_run hpost
    have hmoves := moves_isTombstoned s (cs.map .call) w id hid
    rw [List.foldl_map] at hmoves
    exact hrun ▸ hmoves
  | move m =>
    cases ht
    exact move_isTombstoned s w m id hid

theorem happened_isTombstoned {events : List Event} {w t : World Memory}
    (ht : events.foldlM (happen f s h) w = some t) {id : RecordId}
    (hid : w.db.isTombstoned id = true) : t.db.isTombstoned id = true := by
  induction events generalizing w with
  | nil =>
    cases ht
    exact hid
  | cons e rest ih =>
    obtain ⟨u, hu, hrest⟩ := Option.bind_eq_some_iff.mp ht
    exact ih hrest (happen_isTombstoned hu hid)

theorem recall_of_invocation {i : Invocation ℚ} {c : FacadeCall} (hi : i.method = .recall)
    (hc : ofInvocation i = some c) : ∃ query topK diversity, c = .recall query topK diversity := by
  obtain ⟨method, args, kwargs⟩ := i
  cases hi
  cases args with
  | nil => cases hc
  | cons query rest =>
    cases rest with
    | cons more rest => cases hc
    | nil =>
      obtain ⟨text, _, hc⟩ := Option.bind_eq_some_iff.mp hc
      obtain ⟨topK, _, hc⟩ := Option.bind_eq_some_iff.mp hc
      obtain ⟨diversity, _, hc⟩ := Option.bind_eq_some_iff.mp hc
      cases hc
      exact ⟨_, _, _, rfl⟩

theorem eq_of_asInt64 {id n : ℤ} (h : asInt64 (.int id) = some n) : n = id := by
  obtain ⟨hsame, _⟩ := Option.filter_eq_some_iff.mp h
  exact (Option.some.inj hsame).symm

theorem delete_of_invocation {id : RecordId} {kwargs : List (String × Json ℚ)} {c : FacadeCall}
    (hc : ofInvocation ⟨.deleteMemory, [.int id], kwargs⟩ = some c) :
    ∃ mode, c = .deleteMemory id mode := by
  obtain ⟨recordId, hid, hc⟩ := Option.bind_eq_some_iff.mp hc
  obtain ⟨mode, _, hc⟩ := Option.bind_eq_some_iff.mp hc
  cases eq_of_asInt64 hid
  cases hc
  exact ⟨_, rfl⟩

theorem supersede_of_invocation {oldId : RecordId} {v : Json ℚ} {kwargs : List (String × Json ℚ)}
    {c : FacadeCall} (hc : ofInvocation ⟨.supersedeMemory, [.int oldId, v], kwargs⟩ = some c) :
    ∃ content, v = .str content ∧ c = .supersedeMemory oldId content := by
  obtain ⟨recordId, hid, hc⟩ := Option.bind_eq_some_iff.mp hc
  obtain ⟨content, hcontent, hc⟩ := Option.bind_eq_some_iff.mp hc
  cases eq_of_asInt64 hid
  cases hc
  cases v with
  | str text =>
    cases hcontent
    exact ⟨_, rfl, rfl⟩
  | _ => cases hcontent

theorem deletes_tombstones {req : Request} {id : RecordId} (hreq : Deletes f req id)
    {w t : World Memory} {reply : Response}
    (hpost : doPost f (facade s h) req w = some (some reply, t)) :
    ∀ other ∈ covered w.db id true, t.db.isTombstoned other = true := by
  obtain ⟨hpath, body, hbody, hid⟩ := hreq
  have hroute : routes.lookup req.path = some ⟨.deleteMemory, ["record_id"], ["mode"]⟩ := by
    rw [hpath]
    rfl
  have hcall : invocationOf ⟨.deleteMemory, ["record_id"], ["mode"]⟩ (.obj body) =
      .ok ⟨.deleteMemory, [.int id], kwargsOf (.obj body) ["mode"]⟩ := by
    unfold invocationOf
    rw [argsOf_singleton hid]
    rfl
  rcases doPost_route hroute hpost with ⟨hreply, _⟩ | ⟨read, hread, hcases⟩
  · cases hreply
  · cases hbody.symm.trans hread
    rcases hcases with ⟨e, he, _⟩ | ⟨i, out, hi, hout, _⟩
    · rw [hcall] at he
      cases he
    · cases hcall.symm.trans hi
      obtain ⟨c, hc, hanswer⟩ := facade_answer hout
      obtain ⟨mode, rfl⟩ := delete_of_invocation hc
      have ht : t = (requestDeletion s.engine.deletion id mode true).final w :=
        (congrArg Prod.snd hanswer).symm.trans (outcome_world _ _ _ w)
      intro other hother
      rw [ht, requestDeletion_final]
      exact final_isTombstoned _ _ other (tombstoneAll_tombstones _ _ _ _ other hother)

theorem bundle_served (b : BeliefBundle) :
    (loads f ((respond f (.ok (toDict b))).data.toList.take
      (respond f (.ok (toDict b))).contentLength)).bind readBundle = some b := by
  change (loads f ((send f 200 (toDict b)).data.toList.take
    (send f 200 (toDict b)).contentLength)).bind readBundle = some b
  rw [send_back 200 (proper_bundle b), Option.bind_some, bundle_back]

/-- Corrections that clients post, each of the record that the response before it names. Their
bodies may hold other fields too. -/
inductive Corrections (f : FloatText ℚ) (s : Strata) (h : Host) :
    World Memory → RecordId → List MemoryRecord → World Memory → Prop where
  | nil (w : World Memory) (oldId : RecordId) : Corrections f s h w oldId [] w
  | post {w u t : World Memory} {req : Request} {reply : Response} {oldId id : RecordId}
      {body summary : List (String × Json ℚ)} {row : MemoryRecord} {rows : List MemoryRecord}
      (path : req.path = "/supersede_memory") (read : loads f (bodyText req) = some (.obj body))
      (old : body.lookup "old_id" = some (.int oldId))
      (posted : doPost f (facade s h) req w = some (some reply, u))
      (answered : readResponse f reply = some (.ok (.obj summary)))
      (named : summary.lookup "id" = some (.int id)) (stored : u.db.readOne id = some row)
      (tail : Corrections f s h u id rows t) : Corrections f s h w oldId (row :: rows) t

theorem args_of_supersede {body : List (String × Json ℚ)} {old : Json ℚ} {args : List (Json ℚ)}
    (hold : body.lookup "old_id" = some old)
    (h : argsOf (.obj body) ["old_id", "content"] = .ok args) : ∃ v, args = [old, v] := by
  dsimp only [argsOf, item] at h
  rw [hold] at h
  cases hcontent : body.lookup "content" with
  | none =>
    rw [hcontent] at h
    cases h
  | some v =>
    rw [hcontent] at h
    cases h
    exact ⟨v, rfl⟩

theorem corrections_chain {w t : World Memory} {oldId : RecordId} {rows : List MemoryRecord}
    (hposts : Corrections f s h w oldId rows t) : Chain s w oldId rows t := by
  induction hposts with
  | nil w oldId => exact .nil w oldId
  | @post w u t req reply oldId id body summary row rows path read old posted answered named stored
      tail ih =>
    have hroute : routes.lookup req.path = some ⟨.supersedeMemory, ["old_id", "content"], []⟩ := by
      rw [path]
      rfl
    rcases doPost_route hroute posted with
      ⟨hreply, _⟩ | ⟨value, hvalue, ⟨e, _, hreply, _⟩ | ⟨i, out, hi, hout, hreply⟩⟩
    · cases hreply
    · cases hreply
      have hback : readResponse f (respond f (.error e)) = some (.error e) :=
        respond_back fun v hv => by cases hv
      cases hback.symm.trans answered
    · cases hreply
      cases read.symm.trans hvalue
      obtain ⟨c, hc, hanswer⟩ := facade_answer hout
      have hrequest := (dispatch_bodyOf (f := f) (nodup_loads read)).mpr ⟨_, i, hroute, hi, rfl⟩
      rw [path] at hrequest
      obtain ⟨args, hargs, rfl⟩ := map_eq_ok.mp hi
      obtain ⟨v, rfl⟩ := args_of_supersede old hargs
      obtain ⟨content, rfl, rfl⟩ := supersede_of_invocation hc
      have hback : readResponse f (respond f out) = some out := respond_back fun v hv => by
        subst hv
        exact outcome_proper proper_summaryJson _ w (congrArg Prod.fst hanswer)
      cases hback.symm.trans answered
      obtain ⟨r, hrun, hsummary⟩ := outcome_ok hanswer
      cases hsummary
      cases named
      exact .post hrequest hrun stored ih

/-- Whatever else the bodies hold, corrections that are posted make a chain of corrections, and
every replacement is a normal record. -/
theorem posted_corrections_normal (f : FloatText ℚ) (s : Strata) (h : Host) {w t : World Memory}
    {oldId : RecordId} {rows : List MemoryRecord} (hold : (w.db.readOne oldId).isSome = true)
    (hposts : Corrections f s h w oldId rows t) :
    Chain s w oldId rows t ∧ ∀ row ∈ rows, row.sensitivity = .normal :=
  have hchain := corrections_chain hposts
  ⟨hchain, chain_normal hchain hold⟩

/-- The correction of a secret asks for a sensitivity, and does not get it. -/
theorem posted_corrections_normal_asked :
    let w := after plainStrata plainWorld (.writeMemory "tea" { sensitivity := .secret })
    let body : List (String × Json ℚ) :=
      [("old_id", .int 1), ("content", .str "milk"), ("sensitivity", .str "secret")]
    ∃ reply row t,
      doPost halves (facade plainStrata plainHost) (request halves .compact "/supersede_memory" body) w =
        some (some reply, t) ∧
      Chain plainStrata w 1 [row] t ∧ ∀ r ∈ [row], r.sensitivity = .normal := by
  intro w body
  have hold : (w.db.readOne 1).isSome = true := by decide
  obtain ⟨r, row, hrun, _, hstored, _⟩ := supersede_stores (s := plainStrata) hold "milk"
  let t := after plainStrata w (.supersedeMemory 1 "milk" {})
  have hnames : ["old_id", "content", "sensitivity"].Nodup := by decide
  have hbody : Proper halves (.obj body) :=
    proper_obj hnames (.cons (.int _) (.cons (.str _) (.cons (.str _) .nil)))
  have hanswer : answer plainStrata plainHost w (.supersedeMemory 1 "milk") =
      (.ok (summaryJson r), t) := by
    dsimp only [answer, outcome]
    rw [hrun]
  have hout : facade plainStrata plainHost ⟨.supersedeMemory, [.int 1, .str "milk"], []⟩ w =
      some (.ok (summaryJson r), t) := by
    have hcall : ofInvocation ⟨.supersedeMemory, [.int 1, .str "milk"], []⟩ =
        some (.supersedeMemory 1 "milk") := rfl
    unfold facade
    rw [hcall, Option.map_some, hanswer]
  have hpost : doPost halves (facade plainStrata plainHost)
      (request halves .compact "/supersede_memory" body) w =
        some (some (respond halves (.ok (summaryJson r))), t) :=
    doPost_request .compact (facade plainStrata plainHost) rfl hbody rfl hout
  have hread : loads halves (bodyText (request halves .compact "/supersede_memory" body)) =
      some (.obj body) := by
    rw [bodyText_request, loads_dumps .compact hbody]
  have hback : readResponse halves (respond halves (.ok (summaryJson r))) = some (.ok (summaryJson r)) :=
    respond_back fun v hv => by
      cases hv
      exact proper_summaryJson r
  exact ⟨_, row, t, hpost, posted_corrections_normal halves plainStrata plainHost hold
    (.post rfl hread rfl hpost hback rfl hstored (.nil t r.id))⟩

end StrataMemory.ServedNodes
