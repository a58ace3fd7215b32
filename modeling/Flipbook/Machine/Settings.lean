import Flipbook.Expr.Environment
import Flipbook.Expr.Stack
import Flipbook.Json.Schema
import Flipbook.Json.Writer

/-!
# Machine/Settings — limits and constants

`BuildSettings` bound the byte code of one machine and name the constants of its expressions;
`EngineSettings` size the evaluation stack and the output of a tick.
-/

namespace Flipbook.Machine

open Json

/-- Settings for building a resource. -/
structure BuildSettings where
  /-- The most words of byte code that one machine may have. -/
  maxByteCodeWords : Nat := 1024
  /-- The constants that expressions may use. -/
  constants : List (String × Single) := Expr.defaultConstants
deriving DecidableEq, Repr

namespace BuildSettings

/-- The environment of a machine with given variables. -/
def environment (s : BuildSettings) (names : List String) : Expr.Environment :=
  (Expr.Environment.ofVariables names).withConstants s.constants

/-- Reads a constant: an array of its name and its value. -/
def constantOfJson? : Value → Option (String × Single)
  | .array [name, value] => return (← name.text?, ← value.single?)
  | _ => none

/-- Reads settings. -/
def ofJson? (v : Value) : Option BuildSettings := do
  match ← v.record? ["max_byte_code_words", "constants"] with
  | [maxByteCodeWords, constants] =>
    return ⟨← Value.required Value.size? maxByteCodeWords,
      ← Value.required (Value.list? constantOfJson?) constants⟩
  | _ => none

/-- Writes settings. -/
def toJson (s : BuildSettings) : Value :=
  Value.ofFields [("max_byte_code_words", Value.ofNat s.maxByteCodeWords),
    ("constants", .array (s.constants.map fun c =>
      .array [Value.ofString c.1, Value.ofSingle c.2]))]

end BuildSettings

/-- Settings for running machines. -/
structure EngineSettings where
  /-- How many values an evaluation may hold. -/
  stackCapacity : Nat := Expr.Stack.defaultCapacity
  /-- How many frame changes a tick reports; further ones are dropped. -/
  maxEventsPerTick : Nat := 4096
  /-- How many records to expect. -/
  initialCapacity : Nat := 64
deriving DecidableEq, Repr

namespace EngineSettings

/-- Reads settings. -/
def ofJson? (v : Value) : Option EngineSettings := do
  match ← v.record? ["stack_capacity", "max_events_per_tick", "initial_capacity"] with
  | [stackCapacity, maxEventsPerTick, initialCapacity] =>
    return ⟨← Value.required Value.size? stackCapacity,
      ← Value.required Value.size? maxEventsPerTick, ← Value.required Value.size? initialCapacity⟩
  | _ => none

/-- Writes settings. -/
def toJson (s : EngineSettings) : Value :=
  Value.ofFields [("stack_capacity", Value.ofNat s.stackCapacity),
    ("max_events_per_tick", Value.ofNat s.maxEventsPerTick),
    ("initial_capacity", Value.ofNat s.initialCapacity)]

end EngineSettings

end Flipbook.Machine
