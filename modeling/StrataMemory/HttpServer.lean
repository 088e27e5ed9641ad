import StrataMemory.HttpRoutes
import StrataMemory.JsonTexts

set_option autoImplicit false

/-!
# The HTTP wrapper

A request is a path and the text of a body; the facade is any object with the methods of the
routes. What a client prints is what the method is called with, and what the method returns or
raises is what the client reads.
-/
namespace StrataMemory.HttpServer
open KeyedTables JsonTexts TextReaders
open HttpRoutes (Method Route routes)

variable {φ σ : Type}

structure Request where
  path : String
  body : String

structure Response where
  code : ℕ
  contentLength : ℕ
  data : String

/-- `getattr(strata, method_name)(*args, **kwargs)`. -/
structure Invocation (φ : Type) where
  method : Method
  args : List (Json φ)
  kwargs : List (String × Json φ)

/-- An exception with its `str`. -/
inductive Raised where
  | keyError (text : String)
  | other (text : String)

abbrev Outcome (φ : Type) := Except Raised (Json φ)

/-- What an invocation returns or raises, and the state it leaves. None is given for arguments
that the signature of the method does not provide for. -/
abbrev Facade (σ φ : Type) := Invocation φ → σ → Option (Outcome φ × σ)

def notSubscriptable (typeName : String) : Raised :=
  .other ("'" ++ typeName ++ "' object is not subscriptable")

/-- `body[key]`. -/
def item (body : Json φ) (key : String) : Outcome φ :=
  match body with
  | .obj fields =>
    match fields.lookup key with
    | none => .error (.keyError ("'" ++ key ++ "'"))
    | some v => .ok v
  | .arr _ => .error (.other "list indices must be integers or slices, not str")
  | .str _ => .error (.other "string indices must be integers, not 'str'")
  | .null => .error (notSubscriptable "NoneType")
  | .bool _ => .error (notSubscriptable "bool")
  | .int _ => .error (notSubscriptable "int")
  | .float _ => .error (notSubscriptable "float")

/-- `[body[k] for k in pos_keys]`: the first missing key raises. -/
def argsOf (body : Json φ) : List String → Except Raised (List (Json φ))
  | [] => .ok []
  | k :: keys =>
    match item body k with
    | .error e => .error e
    | .ok v => (argsOf body keys).map (v :: ·)

theorem argsOf_singleton {fields : List (String × Json φ)} {key : String} {v : Json φ}
    (h : fields.lookup key = some v) : argsOf (.obj fields) [key] = .ok [v] := by
  have hitem : item (.obj fields) key = .ok v := by
    dsimp only [item]
    rw [h]
  dsimp only [argsOf]
  rw [hitem]
  rfl

/-- `{k: body[k] for k in kw_keys if k in body}`. A body that is no dictionary raised before. -/
def kwargsOf (body : Json φ) (keys : List String) : List (String × Json φ) :=
  match body with
  | .obj fields => keys.filterMap fun k => (fields.lookup k).map fun v => (k, v)
  | _ => []

def invocationOf (route : Route) (body : Json φ) : Except Raised (Invocation φ) :=
  (argsOf body route.posKeys).map fun args => ⟨route.method, args, kwargsOf body route.kwKeys⟩

/-- `_send`. -/
def send (f : FloatText φ) (code : ℕ) (payload : Json φ) : Response :=
  let data := String.ofList (dumps f .spaced payload)
  ⟨code, data.utf8ByteSize, data⟩

def errorJson (text : String) : Json φ := .obj [("error", .str text)]

def respond (f : FloatText φ) : Outcome φ → Response
  | .ok result => send f 200 result
  | .error (.keyError text) => send f 400 (errorJson ("missing field " ++ text))
  | .error (.other text) => send f 500 (errorJson text)

/-- `rfile.read(length) or b"{}"`. -/
def bodyText (req : Request) : List Char :=
  if req.body = "" then ['{', '}'] else req.body.toList

def mentions (word : List Char) : List Char → Bool
  | [] => word.isEmpty
  | c :: rest => word.isPrefixOf (c :: rest) || mentions word rest

/-- `json.loads` also reads constants that are no numbers, surrogates on their own and numbers
beyond the floats. -/
def readsMore (text : List Char) : Bool :=
  [['N', 'a', 'N'], ['I', 'n', 'f', 'i', 'n', 'i', 't', 'y'], [backslash, 'u', 'd'],
      [backslash, 'u', 'D']].any (fun word => mentions word text) ||
    (text.zip text.tail).any fun pair => pair.1.isDigit && (pair.2 = 'e' || pair.2 = 'E')

/-- `do_POST`. A body that is no JSON text raises outside of the `try`, and nothing is sent. -/
def doPost (f : FloatText φ) (facade : Facade σ φ) (req : Request) (s : σ) :
    Option (Option Response × σ) :=
  match routes.lookup req.path with
  | none => some (some (send f 404 (errorJson "unknown endpoint")), s)
  | some route =>
    match loads f (bodyText req) with
    | none => if readsMore (bodyText req) then none else some (none, s)
    | some body =>
      match invocationOf route body with
      | .error e => some (some (respond f (.error e)), s)
      | .ok i => (facade i s).map fun out => (some (respond f out.1), out.2)

def serve (f : FloatText φ) (facade : Facade σ φ) :
    List Request → σ → Option (List (Option Response) × σ)
  | [], s => some ([], s)
  | req :: rest, s =>
    (doPost f facade req s).bind fun out =>
      (serve f facade rest out.2).map fun more => (out.1 :: more.1, more.2)

def request (f : FloatText φ) (fmt : Format) (path : String) (fields : List (String × Json φ)) :
    Request :=
  ⟨path, String.ofList (dumps f fmt (.obj fields))⟩

def readError : Json φ → Option String
  | .obj fields => requiredField asString fields "error"
  | _ => none

/-- The exception that a client takes an error response for. -/
def readRaised (code : ℕ) (text : String) : Option Raised :=
  if code = 400 then
    (strip "missing field ".toList text.toList).map fun key => .keyError (String.ofList key)
  else if code = 500 then some (.other text)
  else none

def readResponse (f : FloatText φ) (r : Response) : Option (Outcome φ) :=
  (loads f (r.data.toList.take r.contentLength)).bind fun payload =>
    if r.code = 200 then some (.ok payload)
    else ((readError payload).bind (readRaised r.code)).map .error

theorem proper_errorJson {f : FloatText φ} (text : String) : Proper f (errorJson text) :=
  .obj (List.nodup_singleton _) fun field hfield => by
    cases List.mem_singleton.mp hfield
    exact .str text

theorem error_back (text : String) : readError (errorJson text : Json φ) = some text :=
  requiredField_cons_self asString "error" (.str text) []

theorem send_back {f : FloatText φ} (code : ℕ) {payload : Json φ} (h : Proper f payload) :
    loads f ((send f code payload).data.toList.take (send f code payload).contentLength) =
      some payload := by
  have hlength : (send f code payload).contentLength = (dumps f .spaced payload).length :=
    utf8ByteSize_of_ascii (ascii_dumps .spaced h)
  have hdata : (send f code payload).data.toList = dumps f .spaced payload := String.toList_ofList
  rw [hlength, hdata, List.take_length, loads_dumps .spaced h]

/-- What a method returns or raises is what the client takes the response for. -/
theorem respond_back {f : FloatText φ} {out : Outcome φ} (h : ∀ v, out = .ok v → Proper f v) :
    readResponse f (respond f out) = some out := by
  cases out with
  | ok v =>
    unfold readResponse respond
    rw [send_back 200 (h v rfl), Option.bind_some]
    exact if_pos rfl
  | error e =>
    cases e with
    | keyError text =>
      have htext : strip "missing field ".toList ("missing field " ++ text).toList =
          some text.toList := by
        rw [String.toList_append, strip_append]
      have hraised : readRaised 400 ("missing field " ++ text) = some (.keyError text) := by
        unfold readRaised
        rw [if_pos rfl, htext, Option.map_some, String.ofList_toList]
      unfold readResponse respond
      rw [send_back 400 (proper_errorJson _), Option.bind_some, error_back, Option.bind_some]
      exact congrArg (Option.map Except.error) hraised
    | other text =>
      unfold readResponse respond
      rw [send_back 500 (proper_errorJson _), Option.bind_some, error_back, Option.bind_some]
      rfl

theorem bodyText_request {f : FloatText φ} {fmt : Format} {path : String}
    {fields : List (String × Json φ)} :
    bodyText (request f fmt path fields) = dumps f fmt (.obj fields) := by
  unfold bodyText request
  have hne : String.ofList (dumps f fmt (.obj fields)) ≠ "" := fun h => by
    have hlist := congrArg String.toList h
    rw [String.toList_ofList, dumps_obj] at hlist
    cases hlist
  rw [if_neg hne, String.toList_ofList]

/-- A client's request calls the method of its route with the fields that the route names. -/
theorem doPost_request {f : FloatText φ} (fmt : Format) (facade : Facade σ φ) {path : String}
    {route : Route} {fields : List (String × Json φ)} {i : Invocation φ} {out : Outcome φ}
    {s t : σ} (hroute : routes.lookup path = some route) (hfields : Proper f (.obj fields))
    (hcall : invocationOf route (.obj fields) = .ok i) (hout : facade i s = some (out, t)) :
    doPost f facade (request f fmt path fields) s = some (some (respond f out), t) := by
  have hpath : (request f fmt path fields).path = path := rfl
  unfold doPost
  rw [hpath, hroute, bodyText_request]
  dsimp only
  rw [loads_dumps fmt hfields]
  dsimp only
  rw [hcall]
  dsimp only
  rw [hout]
  rfl

theorem map_eq_ok {ε α β : Type} {g : α → β} {e : Except ε α} {b : β} :
    e.map g = .ok b ↔ ∃ a, e = .ok a ∧ b = g a := by
  cases e with
  | error e => simp [Except.map]
  | ok a => simp [Except.map, eq_comm]

theorem method_of_invocationOf {route : Route} {body : Json φ} {i : Invocation φ}
    (h : invocationOf route body = .ok i) : i.method = route.method := by
  obtain ⟨args, _, rfl⟩ := map_eq_ok.mp h
  rfl

/-- A body that is not read is not answered, one without the arguments is refused, and any
other is answered by the method. -/
theorem doPost_route {f : FloatText φ} {facade : Facade σ φ} {req : Request} {route : Route}
    {s t : σ} {reply : Option Response} (hroute : routes.lookup req.path = some route)
    (h : doPost f facade req s = some (reply, t)) :
    reply = none ∧ t = s ∨
      ∃ body, loads f (bodyText req) = some body ∧
        ((∃ e, invocationOf route body = .error e ∧ reply = some (respond f (.error e)) ∧ t = s) ∨
          ∃ i out, invocationOf route body = .ok i ∧ facade i s = some (out, t) ∧
            reply = some (respond f out)) := by
  unfold doPost at h
  rw [hroute] at h
  dsimp only at h
  split at h
  · split at h
    · cases h
    · cases h
      exact .inl ⟨rfl, rfl⟩
  · next body hbody =>
    refine .inr ⟨body, hbody, ?_⟩
    split at h
    · next e he =>
      cases h
      exact .inl ⟨e, he, rfl, rfl⟩
    · next i hi =>
      obtain ⟨out, hout, heq⟩ := Option.map_eq_some_iff.mp h
      cases heq
      exact .inr ⟨i, out.1, hi, hout, rfl⟩

theorem doPost_state {f : FloatText φ} {facade : Facade σ φ} {req : Request} {s t : σ}
    {reply : Option Response} (h : doPost f facade req s = some (reply, t)) :
    t = s ∨ ∃ i out, facade i s = some (out, t) := by
  cases hroute : routes.lookup req.path with
  | none =>
    unfold doPost at h
    rw [hroute] at h
    cases h
    exact .inl rfl
  | some route =>
    rcases doPost_route hroute h with ⟨_, hsame⟩ | ⟨_, _, ⟨_, _, _, hsame⟩ | ⟨i, out, _, hout, _⟩⟩
    · exact .inl hsame
    · exact .inl hsame
    · exact .inr ⟨i, out, hout⟩

theorem respond_ok {f : FloatText φ} {out : Outcome φ} (h : (respond f out).code = 200) :
    ∃ v, out = .ok v := by
  cases out with
  | ok v => exact ⟨v, rfl⟩
  | error e => cases e <;> cases h

/-- A value as the routes see it: what is nested stands by its text. -/
def seen (f : FloatText ℚ) : Json ℚ → HttpRoutes.Json
  | .null => .null
  | .bool b => .bool b
  | .int n => .int n
  | .float x => .float x
  | .str text => .str text
  | .arr items => .nested (String.ofList (dumps f .compact (.arr items)))
  | .obj fields => .nested (String.ofList (dumps f .compact (.obj fields)))

def bodyOf (f : FloatText ℚ) (fields : List (String × Json ℚ)) : HttpRoutes.Body :=
  fields.foldl (fun body field => body.set field.1 (seen f field.2)) ∅

section Routes
variable {f : FloatText ℚ} {fields : List (String × Json ℚ)}

theorem get?_bodyOf (hkeys : (fields.map Prod.fst).Nodup) (key : String) :
    (bodyOf f fields).get? key = (fields.lookup key).map (seen f) := by
  have hfind : Table.lookupIn key fields = fields.lookup key := by
    clear hkeys
    induction fields with
    | nil => rfl
    | cons field rest ih =>
      obtain ⟨k, v⟩ := field
      rw [List.lookup_cons, ← ih]
      by_cases hk : k = key
      · subst hk
        simp [Table.lookupIn]
      · have hne : (key == k) = false := beq_false_of_ne (Ne.symm hk)
        simp [Table.lookupIn, hk, hne]
  have hget : (bodyOf f fields).get? key = _ := Table.get?_foldl_set (seen f) hkeys ∅ key
  rw [hget, hfind]
  exact Option.or_none

theorem argsOf_bodyOf (hkeys : (fields.map Prod.fst).Nodup) {keys : List String}
    {args : List HttpRoutes.Json} :
    HttpRoutes.argsOf (bodyOf f fields) keys = .ok args ↔
      ∃ values, argsOf (.obj fields) keys = .ok values ∧ args = values.map (seen f) := by
  induction keys generalizing args with
  | nil => simp [HttpRoutes.argsOf, argsOf, eq_comm]
  | cons key keys ih =>
    unfold HttpRoutes.argsOf argsOf item
    rw [get?_bodyOf hkeys]
    dsimp only
    cases fields.lookup key with
    | none => simp
    | some v =>
      dsimp only [Option.map_some]
      constructor
      · intro h
        obtain ⟨rest, hrest, rfl⟩ := map_eq_ok.mp h
        obtain ⟨values, hvalues, rfl⟩ := ih.mp hrest
        exact ⟨v :: values, map_eq_ok.mpr ⟨values, hvalues, rfl⟩, rfl⟩
      · rintro ⟨values, hvalues, rfl⟩
        obtain ⟨more, hmore, rfl⟩ := map_eq_ok.mp hvalues
        exact map_eq_ok.mpr ⟨more.map (seen f), ih.mpr ⟨more, hmore, rfl⟩, rfl⟩

theorem kwargsOf_bodyOf (hkeys : (fields.map Prod.fst).Nodup) (keys : List String) :
    HttpRoutes.kwargsOf (bodyOf f fields) keys =
      (kwargsOf (.obj fields) keys).map fun arg => (arg.1, seen f arg.2) := by
  unfold HttpRoutes.kwargsOf kwargsOf
  rw [List.map_filterMap]
  refine List.filterMap_congr fun key _ => ?_
  rw [get?_bodyOf hkeys, Option.map_map, Option.map_map]
  rfl

/-- What the routes pass on of a body is what the server calls the method with. -/
theorem dispatch_bodyOf (hkeys : (fields.map Prod.fst).Nodup) {path : String}
    {i : HttpRoutes.Invocation} :
    HttpRoutes.dispatch path (bodyOf f fields) = .ok i ↔
      ∃ route j, routes.lookup path = some route ∧ invocationOf route (.obj fields) = .ok j ∧
        i = ⟨j.method, j.args.map (seen f), j.kwargs.map fun arg => (arg.1, seen f arg.2)⟩ := by
  unfold HttpRoutes.dispatch
  cases hroute : routes.lookup path with
  | none => simp
  | some route =>
    dsimp only
    rw [kwargsOf_bodyOf hkeys]
    constructor
    · intro h
      obtain ⟨args, hargs, rfl⟩ := map_eq_ok.mp h
      obtain ⟨values, hvalues, rfl⟩ := (argsOf_bodyOf hkeys).mp hargs
      exact ⟨route, _, rfl, map_eq_ok.mpr ⟨values, hvalues, rfl⟩, rfl⟩
    · rintro ⟨route', j, hsame, hj, rfl⟩
      cases hsame
      obtain ⟨values, hvalues, rfl⟩ := map_eq_ok.mp hj
      exact map_eq_ok.mpr ⟨_, (argsOf_bodyOf hkeys).mpr ⟨values, hvalues, rfl⟩, rfl⟩

end Routes

end StrataMemory.HttpServer
