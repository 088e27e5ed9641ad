import StrataMemory.JsonTexts
import StrataMemory.Resolver

set_option autoImplicit false

/-!
# The wire format of a belief bundle

An entry is a dictionary of its fields, without those that are missing, and a bundle a
dictionary of six lists. What a host reads off the text is the bundle.
-/
namespace StrataMemory.Resolver

def Category.value : Category → String
  | .currentBelief => "current_belief"
  | .recentContext => "recent_context"
  | .interactionGuidance => "interaction_guidance"
  | .openConflict => "open_conflict"
  | .hypothesis => "hypothesis"
  | .policyFlag => "policy_flag"

def Category.all : List Category :=
  [.currentBelief, .recentContext, .interactionGuidance, .openConflict, .hypothesis, .policyFlag]

def HostInstruction.value : HostInstruction → String
  | .useDirectly => "use_directly"
  | .useCautiously => "use_cautiously"
  | .askClarifyingQuestion => "ask_clarifying_question"
  | .doNotSurface => "do_not_surface"

def HostInstruction.all : List HostInstruction :=
  [.useDirectly, .useCautiously, .askClarifyingQuestion, .doNotSurface]

end StrataMemory.Resolver

namespace StrataMemory.BundleTexts
open Records JsonTexts Resolver

variable {φ : Type}

def timeJson : Option Time → Json φ
  | none => .null
  | some t => .int t

def timeValidJson : Option (Option Time × Option Time) → Json φ
  | none => .null
  | some (validFrom, validUntil) =>
    .obj [("valid_from", timeJson validFrom), ("valid_until", timeJson validUntil)]

/-- `asdict`, with the enumerations as their values. -/
def asdict (e : BundleEntry) : List (String × Json φ) :=
  [("id", .int e.id), ("category", .str e.category.value), ("claim", .str e.claim),
    ("confidence", .str e.confidence), ("source_ids", .arr (e.sourceIds.map .int)),
    ("status", .str e.status), ("time_valid", timeValidJson e.timeValid),
    ("superseded_by", timeJson e.supersededBy),
    ("host_instruction", (e.hostInstruction.map fun h => Json.str h.value).getD .null)]

def isNull : Json φ → Bool
  | .null => true
  | _ => false

/-- `BundleEntry.to_dict`. -/
def entryDict (e : BundleEntry) : Json φ := .obj ((asdict e).filter fun field => !isNull field.2)

/-- `BeliefBundle.to_dict`. -/
def toDict (b : BeliefBundle) : Json φ :=
  .obj [("current_beliefs", .arr (b.currentBeliefs.map entryDict)),
    ("recent_context", .arr (b.recentContext.map entryDict)),
    ("interaction_guidance", .arr (b.interactionGuidance.map entryDict)),
    ("open_conflicts", .arr (b.openConflicts.map entryDict)),
    ("hypotheses", .arr (b.hypotheses.map entryDict)),
    ("policy_flags", .arr (b.policyFlags.map entryDict))]

def toJson (f : FloatText φ) (b : BeliefBundle) : String := String.ofList (dumps f .compact (toDict b))

/-- `len(self.to_json().encode("utf-8"))`. -/
def serializedSize (f : FloatText φ) (b : BeliefBundle) : ℕ := (toJson f b).utf8ByteSize

def readTime : Json φ → Option (Option Time)
  | .null => some none
  | .int t => some (some t)
  | _ => none

def readTimeValid : Json φ → Option (Option Time × Option Time)
  | .obj fields => do
    let validFrom ← requiredField readTime fields "valid_from"
    let validUntil ← requiredField readTime fields "valid_until"
    return (validFrom, validUntil)
  | _ => none

def readCategory (v : Json φ) : Option Category :=
  (asString v).bind fun text => Category.all.find? fun c => c.value = text

def readHost (v : Json φ) : Option HostInstruction :=
  (asString v).bind fun text => HostInstruction.all.find? fun h => h.value = text

def readEntry : Json φ → Option BundleEntry
  | .obj fields => do
    let id ← requiredField asInt fields "id"
    let category ← requiredField readCategory fields "category"
    let claim ← requiredField asString fields "claim"
    let confidence ← requiredField asString fields "confidence"
    let sourceIds ← requiredField (asList asInt) fields "source_ids"
    let status ← requiredField asString fields "status"
    let timeValid ← optionalField readTimeValid fields "time_valid"
    let supersededBy ← optionalField asInt fields "superseded_by"
    let hostInstruction ← optionalField readHost fields "host_instruction"
    return ⟨id, category, claim, confidence, sourceIds, status, timeValid, supersededBy,
      hostInstruction⟩
  | _ => none

def readBundle : Json φ → Option BeliefBundle
  | .obj fields => do
    let currentBeliefs ← requiredField (asList readEntry) fields "current_beliefs"
    let recentContext ← requiredField (asList readEntry) fields "recent_context"
    let interactionGuidance ← requiredField (asList readEntry) fields "interaction_guidance"
    let openConflicts ← requiredField (asList readEntry) fields "open_conflicts"
    let hypotheses ← requiredField (asList readEntry) fields "hypotheses"
    let policyFlags ← requiredField (asList readEntry) fields "policy_flags"
    return ⟨currentBeliefs, recentContext, interactionGuidance, openConflicts, hypotheses,
      policyFlags⟩
  | _ => none

theorem time_back (t : Option Time) : readTime (timeJson t : Json φ) = some t := by
  cases t <;> rfl

theorem category_back (c : Category) : readCategory (.str c.value : Json φ) = some c := by
  cases c <;> rfl

theorem host_back (h : HostInstruction) : readHost (.str h.value : Json φ) = some h := by
  cases h <;> rfl

theorem timeValid_back (span : Option Time × Option Time) :
    readTimeValid (timeValidJson (some span) : Json φ) = some span := by
  obtain ⟨validFrom, validUntil⟩ := span
  simp [timeValidJson, readTimeValid, requiredField, List.lookup_cons, time_back]

theorem entryDict_eq (e : BundleEntry) : (entryDict e : Json φ) =
    .obj (("id", .int e.id) :: ("category", .str e.category.value) :: ("claim", .str e.claim) ::
      ("confidence", .str e.confidence) :: ("source_ids", .arr (e.sourceIds.map .int)) ::
      ("status", .str e.status) ::
      ((e.timeValid.map fun span => ("time_valid", timeValidJson (some span))).toList ++
        (e.supersededBy.map fun id => ("superseded_by", Json.int id)).toList ++
        (e.hostInstruction.map fun h => ("host_instruction", Json.str h.value)).toList)) := by
  obtain ⟨id, category, claim, confidence, sourceIds, status, timeValid, supersededBy, host⟩ := e
  cases timeValid <;> cases supersededBy <;> cases host <;> rfl

theorem entry_back (e : BundleEntry) : readEntry (entryDict e : Json φ) = some e := by
  have hsources : asList asInt (.arr (e.sourceIds.map Json.int) : Json φ) = some e.sourceIds :=
    asList_map Json.int (fun _ => rfl) e.sourceIds
  rw [entryDict_eq]
  obtain ⟨id, category, claim, confidence, sourceIds, status, timeValid, supersededBy, host⟩ := e
  cases timeValid <;> cases supersededBy <;> cases host <;>
    simp [readEntry, requiredField, optionalField, List.lookup_cons, asInt, asString, category_back,
      hsources, timeValid_back, host_back]

theorem bundle_back (b : BeliefBundle) : readBundle (toDict b : Json φ) = some b := by
  have hentries : ∀ entries : List BundleEntry,
      asList readEntry (.arr (entries.map entryDict) : Json φ) = some entries :=
    asList_map entryDict entry_back
  simp [toDict, readBundle, requiredField, List.lookup_cons, hentries]

theorem proper_time {f : FloatText φ} (t : Option Time) : Proper f (timeJson t) := by
  cases t with
  | none => exact .null
  | some t => exact .int t

theorem proper_entry {f : FloatText φ} (e : BundleEntry) : Proper f (entryDict e) := by
  have hkeys : ((asdict e : List (String × Json φ)).map Prod.fst).Nodup := by
    have hnames : ["id", "category", "claim", "confidence", "source_ids", "status", "time_valid",
      "superseded_by", "host_instruction"].Nodup := by decide
    exact hnames
  have htimes : Proper f (timeValidJson e.timeValid) := by
    cases e.timeValid with
    | none => exact .null
    | some span =>
      have hnames : ["valid_from", "valid_until"].Nodup := by decide
      refine .obj hnames fun field hfield => ?_
      simp only [List.mem_cons, List.not_mem_nil, or_false] at hfield
      rcases hfield with rfl | rfl <;> exact proper_time _
  have hhost : Proper f ((e.hostInstruction.map fun h => Json.str h.value).getD .null) := by
    cases e.hostInstruction with
    | none => exact .null
    | some h => exact .str _
  have hfields : Proper f (.obj (asdict e)) := by
    refine .obj hkeys fun field hfield => ?_
    simp only [asdict, List.mem_cons, List.not_mem_nil, or_false] at hfield
    rcases hfield with rfl | rfl | rfl | rfl | rfl | rfl | rfl | rfl | rfl
    · exact .int _
    · exact .str _
    · exact .str _
    · exact .str _
    · exact proper_map fun n _ => .int n
    · exact .str _
    · exact htimes
    · exact proper_time _
    · exact hhost
  exact hfields.filter _

theorem proper_bundle {f : FloatText φ} (b : BeliefBundle) : Proper f (toDict b) := by
  have hnames : ["current_beliefs", "recent_context", "interaction_guidance", "open_conflicts",
    "hypotheses", "policy_flags"].Nodup := by decide
  refine .obj hnames fun field hfield => ?_
  simp only [List.mem_cons, List.not_mem_nil, or_false] at hfield
  rcases hfield with rfl | rfl | rfl | rfl | rfl | rfl <;>
    exact proper_map fun e _ => proper_entry e

/-- Whatever the claims of a bundle hold, a host reads the bundle off its text, and the size
reported is the number of characters. -/
theorem bundle_reads_back (f : FloatText φ) (b : BeliefBundle) :
    (loads f (toJson f b).toList).bind readBundle = some b ∧
      serializedSize f b = (toJson f b).length := by
  have hproper : Proper f (toDict b) := proper_bundle b
  constructor
  · unfold toJson
    rw [String.toList_ofList, loads_dumps .compact hproper, Option.bind_some, bundle_back]
  · unfold serializedSize toJson
    rw [utf8ByteSize_of_ascii (ascii_dumps .compact hproper), String.length_ofList]

end StrataMemory.BundleTexts
