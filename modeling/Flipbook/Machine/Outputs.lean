import Flipbook.Machine.Inputs
import Flipbook.Machine.Notice

/-!
# Machine/Outputs — what a tick reports

A tick reports the frame to show for each entity, and the events that it raised: changes of state,
and failed evaluations.
-/

namespace Flipbook.Machine

open Json

/-- The frame that an entity is to show. -/
structure FrameChange where
  entity : EntityId
  frame : Nat
deriving DecidableEq, Repr

/-- What happened to an entity. -/
inductive Event where
  | stateChanged (entity : EntityId) (source target : StateId)
  /-- An expression or an animation failed; the entity goes on as well as it can. -/
  | evaluationFailed (entity : EntityId) (reason : String)
deriving DecidableEq, Repr

namespace Event

/-- The entity that an event is about. -/
def entity : Event → EntityId
  | stateChanged entity _ _ | evaluationFailed entity _ => entity

/-- The notice that goes with an event. -/
def notice : Event → Notice
  | stateChanged entity source target => .switched entity source target
  | evaluationFailed entity reason => .failed entity reason

end Event

/-- The report of a tick. -/
structure Outputs where
  frames : List FrameChange := []
  events : List Event := []
deriving DecidableEq, Repr

namespace Outputs

/-- Whether there is nothing to report. -/
def isEmpty (o : Outputs) : Bool := o.frames.isEmpty && o.events.isEmpty

/-- The latest frame reported for an entity. -/
def frameOf? (o : Outputs) (entity : EntityId) : Option Nat :=
  (o.frames.reverse.find? fun c => c.entity = entity).map FrameChange.frame

end Outputs

/-! ## Documents -/

/-- Reads a frame change. -/
def FrameChange.ofJson? (v : Value) : Option FrameChange := do
  match ← v.record? ["entity", "frame"] with
  | [entity, frame] =>
    return ⟨← Value.required EntityId.ofJson? entity, ← Value.required Value.index? frame⟩
  | _ => none

/-- Writes a frame change. -/
def FrameChange.toJson (c : FrameChange) : Value :=
  Value.ofFields [("entity", c.entity.toJson), ("frame", Value.ofNat c.frame)]

namespace Event

/-- How deep a document may nest. -/
def documentDepth : Nat := 127

/-- Reads an event of a known type from its other fields. -/
def ofParts? (type : String) (parts : Value) : Option Event := do
  match type with
  | "state_changed" =>
    match ← parts.record? ["entity", "from", "to"] with
    | [entity, source, target] =>
      return .stateChanged (← Value.required EntityId.ofJson? entity)
        (← Value.required StateId.ofJson? source) (← Value.required StateId.ofJson? target)
    | _ => none
  | "evaluation_failed" =>
    match ← parts.record? ["entity", "reason"] with
    | [entity, reason] =>
      return .evaluationFailed (← Value.required EntityId.ofJson? entity)
        (← Value.required Value.text? reason)
    | _ => none
  | _ => none

/-- Reads an event inside `outer` levels of nesting.  Its type is the field `type` of an object, at
any place, or the first item of an array. -/
def ofJson? (outer : Nat) : Value → Option Event
  | .object fields => do
    let fields ← Value.named? fields
    let type ← Value.required Value.text? (← Value.field? "type" fields)
    let parts := fields.filter fun f => f.1 != "type"
    guard (parts.all fun f => f.2.isSound (documentDepth - outer - 1))
    ofParts? type (Value.ofFields parts)
  | .array (type :: parts) => do
    guard (parts.all fun v => v.isSound (documentDepth - outer - 1))
    ofParts? (← type.text?) (.array parts)
  | _ => none

/-- Writes an event, its type first. -/
def toJson : Event → Value
  | stateChanged entity source target =>
    Value.ofFields [("type", Value.ofString "state_changed"), ("entity", entity.toJson),
      ("from", source.toJson), ("to", target.toJson)]
  | evaluationFailed entity reason =>
    Value.ofFields [("type", Value.ofString "evaluation_failed"), ("entity", entity.toJson),
      ("reason", Value.ofString reason)]

end Event

/-- Reads outputs. -/
def Outputs.ofJson? (v : Value) : Option Outputs := do
  match ← v.record? ["frames", "events"] with
  | [frames, events] =>
    return ⟨← Value.required (Value.list? FrameChange.ofJson?) frames,
      ← Value.required (Value.list? (Event.ofJson? 2)) events⟩
  | _ => none

/-- Writes outputs. -/
def Outputs.toJson (o : Outputs) : Value :=
  Value.ofFields [("frames", .array (o.frames.map FrameChange.toJson)),
    ("events", .array (o.events.map Event.toJson))]

end Flipbook.Machine
