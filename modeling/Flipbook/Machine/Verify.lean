import Flipbook.Machine.Resource

/-!
# Machine/Verify — programs that cannot fail

`verifyWords` follows the number of values on the stack through the words of a program, up to the
first end.  A program is accepted if every variable exists, no operation lacks operands, and one
value is left.
-/

namespace Flipbook.Machine

/-- What is wrong with a program. -/
inductive ProgramFlaw where
  | unknownVariable (index : Nat)
  | malformed
  | unterminated
deriving DecidableEq, Repr

/-- Follows words that find `depth` values on the stack, in a machine with `vars` variables. -/
def verifyWords (vars : Nat) : (depth : Nat) → List Expr.Word → Except ProgramFlaw Unit
  | _, [] => .error .unterminated
  | depth, .push _ :: ws => verifyWords vars (depth + 1) ws
  | depth, .load index :: ws =>
    if index < vars then verifyWords vars (depth + 1) ws
    else .error (.unknownVariable index)
  | depth, .call op :: ws =>
    if depth < op.arity then .error .malformed
    else verifyWords vars (depth - op.arity + if op.producesValue then 1 else 0) ws
  | depth, .finish :: _ => if depth = 1 then .ok () else .error .malformed

/-- Verifies the program at a place of the byte code. -/
def verifyProgram (vars : Nat) (byteCode : List Expr.Word) (place : Nat) :
    Except LoadError Unit :=
  if byteCode.length ≤ place then .error (.programOutOfBounds place byteCode.length)
  else
    match verifyWords vars 0 (byteCode.drop place) with
    | .ok () => .ok ()
    | .error (.unknownVariable index) => .error (.variableOutOfRange place index vars)
    | .error .malformed => .error (.malformedProgram place)
    | .error .unterminated => .error (.unterminatedProgram place)

end Flipbook.Machine
