import Flipbook.Json.Schema
import Flipbook.Json.Writer
import Flipbook.Machine.Name

/-!
# Machine/Inputs — requests for the next tick

`Inputs` collect what the host asks for between two ticks: entities to destroy, variables to write
and events to raise.
-/

namespace Flipbook.Machine

open Json

/-- A new value for a variable of an entity. -/
structure VariableWrite where
  entity : EntityId
  index : VariableIndex
  value : Single
deriving DecidableEq, Repr

/-- An event raised for an entity. -/
structure Trigger where
  entity : EntityId
  event : ShortHash
deriving DecidableEq, Repr

/-- Requests, applied in the order of the fields. -/
structure Inputs where
  destroyed : List EntityId := []
  writes : List VariableWrite := []
  triggers : List Trigger := []
deriving DecidableEq, Repr

namespace Inputs

/-- Adds an entity to destroy. -/
def destroy (i : Inputs) (entity : EntityId) : Inputs :=
  { i with destroyed := i.destroyed ++ [entity] }

/-- Adds a variable to write. -/
def setVariable (i : Inputs) (entity : EntityId) (index : VariableIndex) (value : Single) :
    Inputs :=
  { i with writes := i.writes ++ [⟨entity, index, value⟩] }

/-- Adds an event to raise. -/
def trigger (i : Inputs) (entity : EntityId) (event : ShortHash) : Inputs :=
  { i with triggers := i.triggers ++ [⟨entity, event⟩] }

/-- Whether nothing is asked for. -/
def isEmpty (i : Inputs) : Bool :=
  i.destroyed.isEmpty && i.writes.isEmpty && i.triggers.isEmpty

end Inputs

/-! ## Documents -/

/-- Reads an entity. -/
def EntityId.ofJson? (v : Value) : Option EntityId := EntityId.mk <$> v.word?

/-- Writes an entity. -/
def EntityId.toJson (e : EntityId) : Value := Value.ofNat e.val.toNat

/-- Reads a state. -/
def StateId.ofJson? (v : Value) : Option StateId := StateId.mk <$> v.index?

/-- Writes a state. -/
def StateId.toJson (s : StateId) : Value := Value.ofNat s.index

/-- Reads a write. -/
def VariableWrite.ofJson? (v : Value) : Option VariableWrite := do
  match ← v.record? ["entity", "index", "value"] with
  | [entity, index, value] =>
    return ⟨← Value.required EntityId.ofJson? entity, ⟨← Value.required Value.index? index⟩,
      ← Value.required Value.single? value⟩
  | _ => none

/-- Writes a write. -/
def VariableWrite.toJson (w : VariableWrite) : Value :=
  Value.ofFields [("entity", w.entity.toJson), ("index", Value.ofNat w.index.index),
    ("value", Value.ofSingle w.value)]

/-- Reads a trigger. -/
def Trigger.ofJson? (v : Value) : Option Trigger := do
  match ← v.record? ["entity", "event"] with
  | [entity, event] =>
    return ⟨← Value.required EntityId.ofJson? entity, ⟨← Value.required Value.word? event⟩⟩
  | _ => none

/-- Writes a trigger. -/
def Trigger.toJson (t : Trigger) : Value :=
  Value.ofFields [("entity", t.entity.toJson), ("event", Value.ofNat t.event.val.toNat)]

/-- Reads inputs; every list may be left out. -/
def Inputs.ofJson? (v : Value) : Option Inputs := do
  match ← v.record? ["destroyed", "variables", "triggers"] with
  | [destroyed, writes, triggers] =>
    return ⟨← Value.withDefault [] (Value.list? EntityId.ofJson?) destroyed,
      ← Value.withDefault [] (Value.list? VariableWrite.ofJson?) writes,
      ← Value.withDefault [] (Value.list? Trigger.ofJson?) triggers⟩
  | _ => none

/-- Writes inputs. -/
def Inputs.toJson (i : Inputs) : Value :=
  Value.ofFields [("destroyed", .array (i.destroyed.map EntityId.toJson)),
    ("variables", .array (i.writes.map VariableWrite.toJson)),
    ("triggers", .array (i.triggers.map Trigger.toJson))]

end Flipbook.Machine
