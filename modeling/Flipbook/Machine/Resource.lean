import Flipbook.Machine.Layout
import Flipbook.Machine.Mode
import Flipbook.Machine.Name

/-!
# Machine/Resource — a loaded state machine

A `Resource` is what the bytes of a machine hold: states with their transitions and animations,
variables with their values at the start, and the words of the byte code.  Places in the byte code
are kept as word offsets, and a program runs from its place to the first end.
-/

namespace Flipbook.Machine

/-- A transition of a loaded state. -/
structure Transition where
  event : ShortHash
  target : StateId
  mode : Mode
deriving DecidableEq, Repr

/-- An animation of a loaded state, and the place of the program for its weight. -/
structure AnimationEntry where
  name : LongHash
  weight : Nat
deriving DecidableEq, Repr

/-- A loaded state. -/
structure State where
  /-- The byte offset of its record. -/
  offset : Nat
  /-- The place of the program for its playback speed. -/
  speed : Nat
  looping : Bool
  transitions : List Transition
  animations : List AnimationEntry
deriving DecidableEq, Repr

/-- The first transition that waits for an event. -/
def State.transition? (s : State) (event : ShortHash) : Option Transition :=
  s.transitions.find? fun t => t.event = event

/-- A loaded state machine. -/
structure Resource where
  /-- The number of bytes that it was loaded from. -/
  size : Nat
  header : Header
  initialState : StateId
  states : List State
  variableNames : List ShortHash
  defaultValues : List Single
  byteCode : List Expr.Word
deriving DecidableEq, Repr

namespace Resource

/-- The number of states. -/
def stateCount (r : Resource) : Nat := r.states.length

/-- The state at a position. -/
def state? (r : Resource) (id : StateId) : Option State := r.states[id.index]?

/-- The byte offset of a state. -/
def stateOffset? (r : Resource) (id : StateId) : Option Nat := (r.state? id).map State.offset

/-- The words from a place of the byte code on. -/
def program (r : Resource) (place : Nat) : List Expr.Word := r.byteCode.drop place

/-- The number of variables. -/
def variableCount (r : Resource) : Nat := r.variableNames.length

/-- The first variable whose name has a given hash. -/
def variableIndex? (r : Resource) (name : ShortHash) : Option VariableIndex :=
  (r.variableNames.idxOf? name).map VariableIndex.mk

end Resource

end Flipbook.Machine
