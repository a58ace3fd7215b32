import Flipbook.Machine.Name

/-!
# Machine/RuntimeError — requests that a running machine cannot serve
-/

namespace Flipbook.Machine

/-- The reasons to refuse a request. -/
inductive RuntimeError where
  | unknownEntity (entity : EntityId)
  | unknownVariable (name : String)
  | variableOutOfRange (index count : Nat)
deriving DecidableEq, Repr

/-- The wording of an error. -/
def RuntimeError.message : RuntimeError → String
  | unknownEntity entity => "entity " ++ entity.text ++ " has no state machine"
  | unknownVariable name => "state machine has no variable `" ++ name ++ "`"
  | variableOutOfRange index count =>
    "variable index " ++ toString index ++ " out of range (" ++ toString count ++ " variables)"

end Flipbook.Machine
