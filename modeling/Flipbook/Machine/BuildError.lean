import Flipbook.Expr.Report

/-!
# Machine/BuildError — why a description cannot be built

Each `BuildError` names what is wrong with a description.  A fault in an expression comes with the
place of the expression and its text, so that a report can show it.
-/

namespace Flipbook.Machine

/-- Where an expression stands in a description. -/
inductive ExpressionPlace where
  | speed (state : String)
  | weight (state animation : String)
deriving DecidableEq, Repr

/-- A place in messages. -/
def ExpressionPlace.text : ExpressionPlace → String
  | speed state => "state `" ++ state ++ "` speed"
  | weight state animation => "state `" ++ state ++ "` animation `" ++ animation ++ "` weight"

/-- The reasons why a description cannot be built. -/
inductive BuildError where
  | unreadable
  | noStates
  | duplicateState (id : String)
  | duplicateVariable (name : String)
  | tooManyVariables (count max : Nat)
  | unknownInitialState (id : String)
  | unknownTransitionTarget (state event target : String)
  | noAnimations (state : String)
  | expression (place : ExpressionPlace) (text : String) (fault : Expr.Fault)
  | byteCodeCapacityExceeded (needed limit : Nat)
  | resourceTooLarge (size : Nat)
deriving DecidableEq, Repr

namespace BuildError

/-- The wording of an error. -/
def message : BuildError → String
  | unreadable => "state machine json parse error"
  | noStates => "state machine declares no states"
  | duplicateState id => "duplicate state id `" ++ id ++ "`"
  | duplicateVariable name => "duplicate variable `" ++ name ++ "`"
  | tooManyVariables count max =>
    "too many variables: " ++ toString count ++ " (max " ++ toString max ++ ")"
  | unknownInitialState id => "initial state `" ++ id ++ "` is not declared"
  | unknownTransitionTarget state event target =>
    "state `" ++ state ++ "`: transition on `" ++ event ++ "` targets undeclared state `" ++
      target ++ "`"
  | noAnimations state => "state `" ++ state ++ "` declares no animations"
  | expression place _ fault => place.text ++ ": " ++ fault.message
  | byteCodeCapacityExceeded needed limit =>
    "byte code needs " ++ toString needed ++ " words, limit is " ++ toString limit
  | resourceTooLarge size =>
    "compiled resource is " ++ toString size ++ " bytes, beyond the 32-bit offset range"

/-- The report of an error; a fault in an expression is shown in its text. -/
def report : BuildError → String
  | expression place text fault => fault.report place.text text
  | e => Expr.reportHead e.message

end BuildError

end Flipbook.Machine
