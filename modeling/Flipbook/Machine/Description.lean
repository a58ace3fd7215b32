import Flipbook.Json.Reader
import Flipbook.Json.Writer
import Flipbook.Machine.Mode

/-!
# Machine/Description — state machines as authors write them

A `Description` names states, variables, animations and events in plain text, and gives speeds and
weights as expressions.  It is read from and written to a JSON document; fields that are left out
get their defaults, and writing spells every field out.
-/

namespace Flipbook.Machine

/-- A variable and its value at the start. -/
structure VariableDescription where
  name : String
  value : Single := Single.zero
deriving DecidableEq, Repr

/-- An animation of a state, with the expression for its weight. -/
structure AnimationDescription where
  name : String
  weight : String := "1"
deriving DecidableEq, Repr

/-- A transition to the state `target`. -/
structure TransitionDescription where
  event : String
  target : String
  mode : Mode := .immediate
deriving DecidableEq, Repr

/-- A state, with the expression for its playback speed. -/
structure StateDescription where
  id : String
  /-- A name for display only. -/
  name : String := ""
  speed : String := "1"
  looping : Bool := false
  animations : List AnimationDescription := []
  transitions : List TransitionDescription := []
deriving DecidableEq, Repr

/-- A state machine. -/
structure Description where
  initialState : String
  vars : List VariableDescription := []
  states : List StateDescription
deriving DecidableEq, Repr

open Json

/-! ## Reading -/

/-- Reads a variable. -/
def VariableDescription.ofJson? (v : Value) : Option VariableDescription := do
  match ← v.record? ["name", "value"] with
  | [name, value] =>
    return ⟨← Value.required Value.text? name, ← Value.withDefault Single.zero Value.single? value⟩
  | _ => none

/-- Reads an animation. -/
def AnimationDescription.ofJson? (v : Value) : Option AnimationDescription := do
  match ← v.record? ["name", "weight"] with
  | [name, weight] =>
    return ⟨← Value.required Value.text? name, ← Value.withDefault "1" Value.text? weight⟩
  | _ => none

/-- Reads a transition. -/
def TransitionDescription.ofJson? (v : Value) : Option TransitionDescription := do
  match ← v.record? ["event", "to", "mode"] with
  | [event, target, mode] =>
    return ⟨← Value.required Value.text? event, ← Value.required Value.text? target,
      ← Value.withDefault .immediate Mode.ofJson? mode⟩
  | _ => none

/-- Reads a state. -/
def StateDescription.ofJson? (v : Value) : Option StateDescription := do
  match ← v.record? ["id", "name", "speed", "loop", "animations", "transitions"] with
  | [id, name, speed, looping, animations, transitions] =>
    return ⟨← Value.required Value.text? id, ← Value.withDefault "" Value.text? name,
      ← Value.withDefault "1" Value.text? speed, ← Value.withDefault false Value.bool? looping,
      ← Value.withDefault [] (Value.list? AnimationDescription.ofJson?) animations,
      ← Value.withDefault [] (Value.list? TransitionDescription.ofJson?) transitions⟩
  | _ => none

/-- Reads a state machine. -/
def Description.ofJson? (v : Value) : Option Description := do
  match ← v.record? ["initial_state", "variables", "states"] with
  | [initialState, vars, states] =>
    return ⟨← Value.required Value.text? initialState,
      ← Value.withDefault [] (Value.list? VariableDescription.ofJson?) vars,
      ← Value.required (Value.list? StateDescription.ofJson?) states⟩
  | _ => none

/-- Reads the document of a state machine. -/
def Description.parse? (text : String) : Option Description :=
  (Value.parse? text).bind Description.ofJson?

/-! ## Writing -/

/-- Writes a variable. -/
def VariableDescription.toJson (d : VariableDescription) : Value :=
  Value.ofFields [("name", Value.ofString d.name), ("value", Value.ofSingle d.value)]

/-- Writes an animation. -/
def AnimationDescription.toJson (d : AnimationDescription) : Value :=
  Value.ofFields [("name", Value.ofString d.name), ("weight", Value.ofString d.weight)]

/-- Writes a transition. -/
def TransitionDescription.toJson (d : TransitionDescription) : Value :=
  Value.ofFields [("event", Value.ofString d.event), ("to", Value.ofString d.target),
    ("mode", d.mode.toJson)]

/-- Writes a state. -/
def StateDescription.toJson (d : StateDescription) : Value :=
  Value.ofFields [("id", Value.ofString d.id), ("name", Value.ofString d.name),
    ("speed", Value.ofString d.speed), ("loop", .bool d.looping),
    ("animations", .array (d.animations.map AnimationDescription.toJson)),
    ("transitions", .array (d.transitions.map TransitionDescription.toJson))]

/-- Writes a state machine. -/
def Description.toJson (d : Description) : Value :=
  Value.ofFields [("initial_state", Value.ofString d.initialState),
    ("variables", .array (d.vars.map VariableDescription.toJson)),
    ("states", .array (d.states.map StateDescription.toJson))]

/-- The document of a state machine, indented for reading. -/
def Description.document (d : Description) : String := d.toJson.pretty

end Flipbook.Machine
