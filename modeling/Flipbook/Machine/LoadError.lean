import Flipbook.Bytes.Cursor
import Flipbook.Expr.Word

/-!
# Machine/LoadError — why a resource is refused

Each `LoadError` names what is wrong with the bytes of a resource and where.
-/

namespace Flipbook.Machine

/-- The regions of a resource that its header places. -/
inductive Region where
  | variableList
  | byteCode
deriving DecidableEq, Repr

/-- What refers to a state by its offset. -/
inductive Referrer where
  | initialState
  | transition
deriving DecidableEq, Repr

/-- The reasons to refuse a resource. -/
inductive LoadError where
  | truncated (offset needed : Nat)
  | unsupportedVersion (found expected : Nat)
  | outOfBounds (region : Region) (offset : Nat)
  | noStates
  | notAState (referrer : Referrer) (offset : Nat)
  | emptyState (stateOffset : Nat)
  | unknownTransitionMode (mode stateOffset : Nat)
  | byteCode (index : Nat) (error : Expr.DecodeError)
  | programOutOfBounds (offset size : Nat)
  | unterminatedProgram (offset : Nat)
  | variableOutOfRange (offset index count : Nat)
  | malformedProgram (offset : Nat)
deriving DecidableEq, Repr

/-- A region in messages. -/
def Region.text : Region → String
  | variableList => "variable list"
  | byteCode => "byte code"

/-- A referrer in messages. -/
def Referrer.text : Referrer → String
  | initialState => "initial state"
  | transition => "transition"

/-- The wording of an error. -/
def LoadError.message : LoadError → String
  | truncated offset needed =>
    "resource truncated: " ++ toString needed ++ " bytes needed at offset " ++ toString offset
  | unsupportedVersion found expected =>
    "unsupported resource version " ++ toString found ++ " (expected " ++ toString expected ++ ")"
  | outOfBounds region offset =>
    region.text ++ " at offset " ++ toString offset ++ " lies outside the resource"
  | noStates => "resource declares no states"
  | notAState referrer offset =>
    referrer.text ++ " points at offset " ++ toString offset ++ ", which is not a state"
  | emptyState stateOffset => "state at offset " ++ toString stateOffset ++ " lists no animations"
  | unknownTransitionMode mode stateOffset =>
    "unknown transition mode " ++ toString mode ++ " in state at offset " ++ toString stateOffset
  | byteCode index error => "byte code word " ++ toString index ++ ": " ++ error.message
  | programOutOfBounds offset size =>
    "program at word " ++ toString offset ++ " lies outside the " ++ toString size ++
      "-word byte code"
  | unterminatedProgram offset =>
    "program at word " ++ toString offset ++ " is not terminated by END"
  | variableOutOfRange offset index count =>
    "program at word " ++ toString offset ++ " reads variable " ++ toString index ++ " of " ++
      toString count
  | malformedProgram offset =>
    "program at word " ++ toString offset ++ " does not leave exactly one value"

end Flipbook.Machine
