import StrataMemory.FacadeCalls
import StrataMemory.FlowAuthority
import StrataMemory.StoredRuns

set_option autoImplicit false

namespace StrataMemory.FacadeCalls
open KeyedTables Records Tables Procedures Worlds CommitEffects CanonicalStore DeletionFlows
open DeletionInvariants IdleFlows IdleCalls FlowAuthority CrashedCalls Engine Gateway NodeRuns
open JsonTexts BundleTexts HttpServer
open HttpRoutes (routes)
open StoredRuns (halves)

def path : FacadeCall → String
  | .writeEvent _ => "/write_event"
  | .writeMemory .. => "/write_memory"
  | .recall .. => "/recall"
  | .updateMemory .. => "/update_memory"
  | .supersedeMemory .. => "/supersede_memory"
  | .deleteMemory .. => "/delete_memory"
  | .deletionStatus _ => "/deletion_status"
  | .explainMemory _ => "/explain_memory"
  | .runReflection _ => "/run_reflection"

/-- The dictionary that a client prints. A status that is not to change is left out. -/
def fields : FacadeCall → List (String × Json ℚ)
  | .writeEvent content => [("content", .str content)]
  | .writeMemory content tier recordType sensitivity confidence =>
    [("content", .str content), ("tier", .str tier), ("record_type", .str recordType),
      ("sensitivity", .str sensitivity), ("confidence", floatJson confidence)]
  | .recall query topK diversity =>
    [("query", .str query), ("top_k", .int topK), ("diversity", .bool diversity)]
  | .updateMemory recordId content status =>
    [("record_id", .int recordId), ("content", textJson content)] ++
      (status.map fun text => ("status", Json.str text)).toList
  | .supersedeMemory oldId content => [("old_id", .int oldId), ("content", .str content)]
  | .deleteMemory recordId mode => [("record_id", .int recordId), ("mode", .str mode.value)]
  | .deletionStatus jobId => [("job_id", .str jobId)]
  | .explainMemory recordId => [("record_id", .int recordId)]
  | .runReflection job => [("job", .str job)]

/-- Ids fit a column, and a confidence is a float. -/
def Sendable (f : FloatText ℚ) : FacadeCall → Prop
  | .writeMemory _ _ _ _ confidence => ∀ x ∈ confidence, f.IsFloat x
  | .recall _ topK _ => Int64 topK
  | .updateMemory recordId _ _ => Int64 recordId
  | .supersedeMemory oldId _ => Int64 oldId
  | .deleteMemory recordId _ => Int64 recordId
  | .explainMemory recordId => Int64 recordId
  | .writeEvent _ => True
  | .deletionStatus _ => True
  | .runReflection _ => True

variable {f : FloatText ℚ}

theorem asInt64_int {n : ℤ} (h : Int64 n) : asInt64 (.int n) = some n := by
  unfold asInt64 asInt
  rw [Option.filter_some, if_pos (decide_eq_true h)]

theorem confidence_back (x : Option ℚ) : asConfidence (floatJson x) = some x := by
  cases x <;> rfl

theorem content_back (text : Option String) : asContent (textJson text) = some text := by
  cases text <;> rfl

theorem mode_back (mode : DeletionMode) : asMode (.str mode.value) = some mode := by
  cases mode <;> rfl

theorem invocation_back {c : FacadeCall} (hc : Sendable f c) : ∃ route i,
    routes.lookup (path c) = some route ∧ invocationOf route (.obj (fields c)) = .ok i ∧
      ofInvocation i = some c := by
  cases c with
  | writeEvent content => exact ⟨_, _, rfl, rfl, rfl⟩
  | writeMemory content tier recordType sensitivity confidence =>
    refine ⟨_, _, rfl, rfl, ?_⟩
    simp [ofInvocation, kwargsOf, fields, optionalField, asString, List.lookup_cons, confidence_back]
  | «recall» query topK diversity =>
    refine ⟨_, _, rfl, rfl, ?_⟩
    simp [ofInvocation, kwargsOf, fields, optionalField, asString, asBool, List.lookup_cons,
      asInt64_int hc]
  | updateMemory recordId content status =>
    refine ⟨_, _, rfl, rfl, ?_⟩
    cases status <;>
      simp [ofInvocation, kwargsOf, fields, optionalField, asString, List.lookup_cons, content_back,
        asInt64_int hc]
  | supersedeMemory oldId content =>
    refine ⟨_, _, rfl, rfl, ?_⟩
    simp [ofInvocation, asString, asInt64_int hc]
  | deleteMemory recordId mode =>
    refine ⟨_, _, rfl, rfl, ?_⟩
    simp [ofInvocation, kwargsOf, fields, optionalField, List.lookup_cons, mode_back, asInt64_int hc]
  | deletionStatus jobId => exact ⟨_, _, rfl, rfl, rfl⟩
  | explainMemory recordId =>
    refine ⟨_, _, rfl, rfl, ?_⟩
    simp [ofInvocation, asInt64_int hc]
  | runReflection job => exact ⟨_, _, rfl, rfl, rfl⟩

theorem proper_floatJson {x : Option ℚ} (h : ∀ y ∈ x, f.IsFloat y) : Proper f (floatJson x) := by
  cases x with
  | none => exact .null
  | some y => exact .float (h y rfl)

theorem proper_textJson (text : Option String) : Proper f (textJson text) := by
  cases text with
  | none => exact .null
  | some text => exact .str text

theorem proper_idsJson (ids : List RecordId) : Proper f (idsJson ids) :=
  proper_map fun id _ => .int id

theorem proper_fields {c : FacadeCall} (hc : Sendable f c) : Proper f (.obj (fields c)) := by
  cases c with
  | writeEvent content => exact proper_obj (List.nodup_singleton _) (.cons (.str _) .nil)
  | writeMemory content tier recordType sensitivity confidence =>
    have hnames : ["content", "tier", "record_type", "sensitivity", "confidence"].Nodup := by decide
    have hconfidence : Proper f (floatJson confidence) := proper_floatJson hc
    exact proper_obj hnames
      (.cons (.str _) (.cons (.str _) (.cons (.str _) (.cons (.str _) (.cons hconfidence .nil)))))
  | «recall» query topK diversity =>
    have hnames : ["query", "top_k", "diversity"].Nodup := by decide
    exact proper_obj hnames (.cons (.str _) (.cons (.int _) (.cons (.bool _) .nil)))
  | updateMemory recordId content status =>
    have hcontent : Proper f (textJson content) := proper_textJson content
    cases status with
    | none =>
      have hnames : ["record_id", "content"].Nodup := by decide
      exact proper_obj hnames (.cons (.int _) (.cons hcontent .nil))
    | some text =>
      have hnames : ["record_id", "content", "status"].Nodup := by decide
      exact proper_obj hnames (.cons (.int _) (.cons hcontent (.cons (.str _) .nil)))
  | supersedeMemory oldId content =>
    have hnames : ["old_id", "content"].Nodup := by decide
    exact proper_obj hnames (.cons (.int _) (.cons (.str _) .nil))
  | deleteMemory recordId mode =>
    have hnames : ["record_id", "mode"].Nodup := by decide
    exact proper_obj hnames (.cons (.int _) (.cons (.str _) .nil))
  | deletionStatus jobId => exact proper_obj (List.nodup_singleton _) (.cons (.str _) .nil)
  | explainMemory recordId => exact proper_obj (List.nodup_singleton _) (.cons (.int _) .nil)
  | runReflection job => exact proper_obj (List.nodup_singleton _) (.cons (.str _) .nil)

theorem proper_summaryJson (r : MemoryRecord) : Proper f (summaryJson r) := by
  have hnames : ["id", "content", "tier", "record_type", "status", "sensitivity",
    "content_hash"].Nodup := by decide
  exact proper_obj hnames (.cons (.int _) (.cons (.str _) (.cons (.str _) (.cons (.str _) (.cons (.str _)
    (.cons (.str _) (.cons (.str _) .nil)))))))

theorem proper_explainJson (db : Db) {r : MemoryRecord} (h : ∀ x ∈ r.confidence, f.IsFloat x) :
    Proper f (explainJson db r) := by
  have hnames : ["record", "confidence", "confidence_reason", "supersedes", "contradicts", "related",
    "source_spans", "tombstoned"].Nodup := by decide
  exact proper_obj hnames (.cons (proper_summaryJson r) (.cons (proper_floatJson h)
    (.cons (proper_textJson _) (.cons (proper_idsJson _) (.cons (proper_idsJson _)
      (.cons (proper_idsJson _) (.cons (.arr (List.forall_mem_nil _)) (.cons (.bool _) .nil))))))))

theorem proper_jobJson (h : Host) (jobId : OpId) : Proper f (jobJson h jobId) :=
  proper_obj (List.nodup_singleton _) (.cons (.str _) .nil)

theorem proper_statusJson (h : Host) (status : JobStatus) : Proper f (statusJson h status) := by
  have hnames : ["job_id", "mode", "state", "record_ids", "verified"].Nodup := by decide
  exact proper_obj hnames (.cons (.str _) (.cons (.str _) (.cons (.str _)
    (.cons (proper_idsJson _) (.cons (.bool _) .nil)))))

theorem proper_reflectionJson (h : Host) (job : String) (ids : List OpId) :
    Proper f (reflectionJson h job ids) := by
  have hnames : ["job", "proposal_ids", "count"].Nodup := by decide
  exact proper_obj hnames (.cons (.str _) (.cons (proper_map fun id _ => .str _) (.cons (.int _) .nil)))

theorem outcome_world {α : Type} (key : String) (print : α → Json ℚ) (p : Prog Memory α)
    (w : World Memory) : (outcome key print p w).2 = p.final w := by
  unfold outcome Proc.final
  obtain ⟨r, u⟩ := p.run w
  cases r <;> rfl

theorem outcome_ok {α : Type} {key : String} {print : α → Json ℚ} {p : Prog Memory α}
    {w t : World Memory} {v : Json ℚ} (h : outcome key print p w = (.ok v, t)) :
    ∃ a, p.run w = (.ok a, t) ∧ v = print a := by
  unfold outcome at h
  generalize p.run w = out at h
  obtain ⟨r, u⟩ := out
  cases r with
  | error e => cases h
  | ok a =>
    cases h
    exact ⟨a, rfl, rfl⟩

theorem outcome_proper {α : Type} {key : String} {print : α → Json ℚ} (h : ∀ a, Proper f (print a))
    (p : Prog Memory α) (w : World Memory) {v : Json ℚ} (hv : (outcome key print p w).1 = .ok v) :
    Proper f v := by
  obtain ⟨a, _, rfl⟩ := outcome_ok (Prod.ext hv rfl : outcome key print p w = (.ok v, _))
  exact h a

/-- What an answer does to the node is what the calls of the facade do. -/
theorem answer_world (s : Strata) (h : Host) (w : World Memory) (c : FacadeCall) :
    (answer s h w c).2 = runCalls s w (calls s.engine.platform c) := by
  cases c with
  | writeEvent content =>
    exact (outcome_world _ _ _ w).trans (after_writeEvent content .system {}).symm
  | writeMemory content tier recordType sensitivity confidence =>
    dsimp only [answer, calls]
    cases fieldsOf s.engine.platform tier recordType sensitivity confidence with
    | error e => rfl
    | ok fields => exact (outcome_world _ _ _ w).trans (after_writeMemory content fields).symm
  | «recall» query topK diversity => rfl
  | updateMemory recordId content status =>
    dsimp only [answer, calls]
    cases patchOf s.engine.platform content status with
    | error e => rfl
    | ok patch => exact (outcome_world _ _ _ w).trans (Proc.final_discard _ w).symm
  | supersedeMemory oldId content =>
    exact (outcome_world _ _ _ w).trans (Proc.final_discard _ w).symm
  | deleteMemory recordId mode =>
    exact (outcome_world _ _ _ w).trans (Proc.final_discard _ w).symm
  | deletionStatus jobId =>
    dsimp only [answer, calls]
    split <;> rfl
  | explainMemory recordId =>
    dsimp only [answer, calls]
    split <;> rfl
  | runReflection job =>
    dsimp only [answer, calls]
    split
    · exact (outcome_world _ _ _ w).trans (Proc.final_discard _ w).symm
    · split
      · exact (outcome_world _ _ _ w).trans (Proc.final_discard _ w).symm
      · rfl

def Floats (f : FloatText ℚ) (w : World Memory) : Prop :=
  ∀ id row, w.db.readOne id = some row → ∀ x ∈ row.confidence, f.IsFloat x

section Floats
variable {s : Strata} {w : World Memory}

theorem Floats.of_readOne {t : World Memory} (hw : Floats f w)
    (h : t.db.readOne = w.db.readOne) : Floats f t := by
  unfold Floats
  rw [h]
  exact hw

theorem Floats.same {t : World Memory} (hw : Floats f w) (h : authority t = authority w) :
    Floats f t :=
  hw.of_readOne (readOne_of_authority h)

theorem floats_write (hw : Floats f w) {r : MemoryRecord} (hr : ∀ x ∈ r.confidence, f.IsFloat x) :
    Floats f (apply (.write r) w) := by
  intro id row hrow
  by_cases hid : r.id = id
  · obtain ⟨written, hwritten, hconfidence⟩ := readOne_write_field MemoryRecord.confidence
      (fun c now r => by
        unfold Canonical.headRow
        split <;> rfl)
      (fun version now r => by
        unfold Canonical.syncCurrentVersion
        split <;> rfl) w r
    rw [hid, hrow] at hwritten
    cases hwritten
    exact hconfidence ▸ hr
  · rw [readOne_write_of_ne hid] at hrow
    exact hw id row hrow

theorem floats_setStatus (hw : Floats f w) (id : RecordId) (status : Status) :
    Floats f (apply (.setStatus id status) w) := by
  intro other row hrow
  rw [readOne_setStatus] at hrow
  by_cases hid : other = id
  · subst hid
    rw [Function.update_self] at hrow
    obtain ⟨old, hold, rfl⟩ := Option.map_eq_some_iff.mp hrow
    exact hw other old hold
  · rw [Function.update_of_ne hid] at hrow
    exact hw other row hrow

theorem floats_authority : AuthorityInvariant (Floats f) where
  same _ _ h hw := hw.same h
  supersede id _ _ hw := floats_setStatus hw id .superseded
  link _ _ _ hw := hw.of_readOne (readOne_addDependency ..)
  mark _ _ _ _ hw := hw
  erase _ _ hw other row hrow := hw other row (readOne_of_hardDelete hrow)

theorem floats_tombstone (hw : Floats f w) (id : RecordId) (mode : DeletionMode) (jobId : OpId)
    (state : DeletionState) : Floats f (apply (.tombstone id mode jobId state) w) := by
  intro other row hrow
  change (w.db.canonical.records.modify id _).get? other = some row at hrow
  rw [Table.get?_modify] at hrow
  split at hrow
  · obtain ⟨old, hold, rfl⟩ := Option.map_eq_some_iff.mp hrow
    exact hw other old hold
  · exact hw other row hrow

theorem floats_requestDeletion (e : MemoryEngine) (recordId : RecordId) (mode : DeletionMode)
    (includeDependents : Bool) :
    (requestDeletion e.deletion recordId mode includeDependents).Preserves (Floats f) := by
  intro w hw
  rw [requestDeletion_final]
  refine floats_authority.purgeAndVerify _ _ _ _ _ ?_
  refine Proc.Preserves.forM _ _ (fun id _ => Proc.Preserves.perform fun t ht => ?_) _ (hw.same rfl)
  exact floats_tombstone ht id mode _ _

theorem floats_created (hw : Floats f w) (content : String) {fields : Fields}
    (hfields : ∀ x ∈ fields.confidence, f.IsFloat x) :
    Floats f ((create s.engine.platform content fields >>= fun r =>
      s.engine.writeMemory r none).final w) := by
  obtain ⟨r, u, hmade, hdb, hafter⟩ := authority_created (s := s) content fields w
  have hu : Floats f u := hw.of_readOne (congrArg Db.readOne hdb)
  refine (floats_write hu ?_).same hafter
  rw [hmade.confidence]
  exact hfields

theorem floats_supersede (hw : Floats f w) (oldId : RecordId) (content : String) {fields : Fields}
    (hfields : ∀ x ∈ fields.confidence, f.IsFloat x) :
    Floats f (after s w (.supersedeMemory oldId content fields)) := by
  obtain ⟨r, u, hmade, hdb, hafter⟩ := authority_supersede (s := s) oldId content fields w
  have hu : Floats f u := hw.of_readOne (congrArg Db.readOne hdb)
  have hwrite : Floats f (apply (.write r) u) := floats_write hu (by rwa [hmade.confidence])
  have hunlinked : Floats f (unlinked oldId r u) := floats_setStatus hwrite oldId .superseded
  exact (hunlinked.of_readOne (readOne_addDependency ..)).same hafter

theorem floats_update (hw : Floats f w) (recordId : RecordId) (content : Option String)
    (status : Option Status) : Floats f (after s w (.updateMemory recordId content status)) := by
  cases hrow : w.db.readOne recordId with
  | none => rwa [after_update_none hrow]
  | some old =>
    cases content with
    | some text =>
      obtain ⟨u, hauthority, hafter⟩ := authority_rewrite (s := s) hrow text status
      refine (floats_write (hw.same hauthority) ?_).same hafter
      exact hw recordId old hrow
    | none =>
      cases status with
      | none => rwa [after_touch hrow]
      | some status =>
        rw [after_patch hrow]
        exact floats_setStatus hw recordId status

end Floats

section Server
variable {s : Strata} {w : World Memory}

theorem of_bind_ok {ε α β : Type} {x : Except ε α} {k : α → Except ε β} {b : β}
    (h : (x >>= k) = .ok b) : ∃ a, x = .ok a ∧ k a = .ok b := by
  cases x with
  | error e => cases h
  | ok a => exact ⟨a, rfl, h⟩

theorem fieldsOf_confidence {p : Platform} {tier recordType sensitivity : String}
    {confidence : Option ℚ} {fields : Fields}
    (h : fieldsOf p tier recordType sensitivity confidence = .ok fields) :
    fields.confidence = confidence := by
  unfold fieldsOf at h
  obtain ⟨tier, _, h⟩ := of_bind_ok h
  obtain ⟨recordType, _, h⟩ := of_bind_ok h
  obtain ⟨sensitivity, _, h⟩ := of_bind_ok h
  cases h
  rfl

/-- What the answer to a call leaves has float confidences only. -/
theorem floats_answer (h : Host) {c : FacadeCall} (hc : Sendable f c) (hw : Floats f w) :
    Floats f (answer s h w c).2 := by
  rw [answer_world]
  cases c with
  | writeEvent content =>
    change Floats f (after s w (.writeEvent content .system {}))
    rw [after_writeEvent]
    exact floats_created hw content fun x hx => by cases hx
  | writeMemory content tier recordType sensitivity confidence =>
    dsimp only [calls]
    cases hfields : fieldsOf s.engine.platform tier recordType sensitivity confidence with
    | error e => exact hw
    | ok fields =>
      change Floats f (after s w (.writeMemory content fields))
      rw [after_writeMemory]
      exact floats_created hw content (fieldsOf_confidence hfields ▸ hc)
  | «recall» query topK diversity => exact hw
  | updateMemory recordId content status =>
    dsimp only [calls]
    cases patchOf s.engine.platform content status with
    | error e => exact hw
    | ok patch => exact floats_update hw recordId content patch
  | supersedeMemory oldId content => exact floats_supersede hw oldId content fun x hx => by cases hx
  | deleteMemory recordId mode =>
    exact (floats_requestDeletion s.engine recordId mode true).discard w hw
  | deletionStatus jobId => exact hw
  | explainMemory recordId => exact hw
  | runReflection job =>
    dsimp only [calls]
    split
    · exact floats_authority.upkeep rfl hw
    · split
      · exact floats_authority.upkeep rfl hw
      · exact hw

theorem proper_answer (h : Host) (hw : Floats f w) (c : FacadeCall) {v : Json ℚ}
    (hv : (answer s h w c).1 = .ok v) : Proper f v := by
  cases c with
  | writeEvent content => exact outcome_proper proper_summaryJson _ w hv
  | writeMemory content tier recordType sensitivity confidence =>
    dsimp only [answer] at hv
    cases hfields : fieldsOf s.engine.platform tier recordType sensitivity confidence with
    | error e =>
      rw [hfields] at hv
      cases hv
    | ok fields =>
      rw [hfields] at hv
      exact outcome_proper proper_summaryJson _ w hv
  | «recall» query topK diversity =>
    cases hv
    exact proper_bundle _
  | updateMemory recordId content status =>
    dsimp only [answer] at hv
    cases hpatch : patchOf s.engine.platform content status with
    | error e =>
      rw [hpatch] at hv
      cases hv
    | ok patch =>
      rw [hpatch] at hv
      exact outcome_proper proper_summaryJson _ w hv
  | supersedeMemory oldId content => exact outcome_proper proper_summaryJson _ w hv
  | deleteMemory recordId mode => exact outcome_proper (proper_jobJson h) _ w hv
  | deletionStatus jobId =>
    dsimp only [answer] at hv
    cases hstatus : (jobNamed h w.db jobId).bind (deletionStatus w.db) with
    | none =>
      rw [hstatus] at hv
      cases hv
    | some status =>
      rw [hstatus] at hv
      cases hv
      exact proper_statusJson h status
  | explainMemory recordId =>
    dsimp only [answer] at hv
    cases hrow : w.db.readOne recordId with
    | none =>
      rw [hrow] at hv
      cases hv
    | some r =>
      rw [hrow] at hv
      cases hv
      exact proper_explainJson w.db (hw recordId r hrow)
  | runReflection job =>
    dsimp only [answer] at hv
    split at hv
    · exact outcome_proper (proper_reflectionJson h job) _ w hv
    · split at hv
      · exact outcome_proper (proper_reflectionJson h job) _ w hv
      · cases hv

def answers (s : Strata) (h : Host) : List FacadeCall → World Memory → List (Outcome ℚ) × World Memory
  | [], w => ([], w)
  | c :: rest, w =>
    let out := answer s h w c
    let more := answers s h rest out.2
    (out.1 :: more.1, more.2)

theorem doPost_call (h : Host) (fmt : Format) {c : FacadeCall} (hc : Sendable f c) :
    doPost f (facade s h) (request f fmt (path c) (fields c)) w =
      some (some (respond f (answer s h w c).1), (answer s h w c).2) := by
  obtain ⟨route, i, hroute, hcall, hi⟩ := invocation_back hc
  refine doPost_request fmt (facade s h) hroute (proper_fields hc) hcall ?_
  unfold facade
  rw [hi]
  rfl

/-- A client that prints its calls as requests reads from the responses what the calls return
or raise in the process of the server, and leaves the node as they do. -/
theorem remote_is_local (s : Strata) (h : Host) (fmt : Format) {cs : List FacadeCall}
    (hcs : ∀ c ∈ cs, Sendable f c) {w : World Memory} (hw : Floats f w) :
    ∃ replies : List Response,
      serve f (facade s h) (cs.map fun c => request f fmt (path c) (fields c)) w =
        some (replies.map some, (answers s h cs w).2) ∧
      replies.map (readResponse f) = (answers s h cs w).1.map some := by
  induction cs generalizing w with
  | nil => exact ⟨[], rfl, rfl⟩
  | cons c rest ih =>
    have hc : Sendable f c := hcs c List.mem_cons_self
    obtain ⟨replies, hserve, hread⟩ :=
      ih (fun d hd => hcs d (List.mem_cons_of_mem _ hd)) (floats_answer h hc hw)
    refine ⟨respond f (answer s h w c).1 :: replies, ?_, ?_⟩
    · rw [List.map_cons, serve, doPost_call h fmt hc, Option.bind_some, hserve]
      rfl
    · have hback : readResponse f (respond f (answer s h w c).1) = some (answer s h w c).1 :=
        respond_back fun v hv => proper_answer h hw c hv
      rw [List.map_cons, hback, hread]
      rfl

end Server

def plainHost : Host where
  operationId n := String.ofList (List.replicate n 'x')
  operationId_injective a b h := by
    have hlists := congrArg (fun text => text.toList.length) h
    simpa using hlists

theorem remote_is_local_deleted :
    let cs : List FacadeCall := [.writeMemory "tea" "L1" "fact" "normal" (some (1 / 2)),
      .explainMemory 1, .deleteMemory 1 .hard, .recall "tea" 10 false]
    ∃ replies : List Response,
      serve halves (facade plainStrata plainHost)
          (cs.map fun c => request halves .compact (path c) (fields c)) plainWorld =
        some (replies.map some, (answers plainStrata plainHost cs plainWorld).2) ∧
      replies.map (readResponse halves) =
        (answers plainStrata plainHost cs plainWorld).1.map some := by
  refine remote_is_local plainStrata plainHost .compact (fun c hc => ?_) fun id r hrow => ?_
  · simp only [List.mem_cons, List.not_mem_nil, or_false] at hc
    rcases hc with rfl | rfl | rfl | rfl
    · intro x hx
      cases hx
      exact .inr rfl
    · exact (by decide : Int64 1)
    · exact (by decide : Int64 1)
    · exact (by decide : Int64 10)
  · cases hrow

end StrataMemory.FacadeCalls
