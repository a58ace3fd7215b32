import Flipbook.Expr.Stack
import Flipbook.Expr.Word

/-!
# Expr/Run — running words on a stack

`run` goes once through the words up to the first end.  It starts on whatever the stack holds, so
programs can be chained; `eval` clears the stack first and gives the value on top.  A failing word
ends the run and the stack stays as it was then.
-/

namespace Flipbook.Expr

/-- Why a run ends without a value. -/
inductive EvalError where
  | stack (error : StackError)
  | unknownVariable (index count : Nat)
  | missingEnd
  | emptyResult
deriving DecidableEq, Repr

/-- The wording of an evaluation error. -/
def EvalError.message : EvalError → String
  | stack error => error.message
  | unknownVariable index count =>
    "variable index " ++ toString index ++ " out of range (" ++ toString count ++ " variables)"
  | missingEnd => "program is not terminated by END"
  | emptyResult => "program produced no value"

namespace Stack

/-- Pushes a value; a full stack stays as it is. -/
def pushValue (s : Stack) (value : Single) : Except EvalError Unit × Stack :=
  match s.push value with
  | .ok s' => (.ok (), s')
  | .error e => (.error (.stack e), s)

/-- Runs one word that is not the end. -/
def step (vars : List Single) (s : Stack) : Word → Except EvalError Unit × Stack
  | .push value => s.pushValue value
  | .load index =>
    match vars[index]? with
    | some value => s.pushValue value
    | none => (.error (.unknownVariable index vars.length), s)
  | .call op =>
    match s.execute op with
    | (.ok (), s') => (.ok (), s')
    | (.error e, s') => (.error (.stack e), s')
  | .finish => (.ok (), s)

/-- Runs words up to the first end, or to the first error. -/
def run (vars : List Single) : List Word → Stack → Except EvalError Unit × Stack
  | [], s => (.error .missingEnd, s)
  | .finish :: _, s => (.ok (), s)
  | w :: ws, s =>
    match s.step vars w with
    | (.ok (), s') => run vars ws s'
    | (.error e, s') => (.error e, s')

/-- Clears the stack, runs words, and takes the value on top. -/
def eval (vars : List Single) (words : List Word) (s : Stack) :
    Except EvalError Single × Stack :=
  match run vars words s.clear with
  | (.error e, s') => (.error e, s')
  | (.ok (), s') =>
    match s'.top? with
    | some value => (.ok value, s')
    | none => (.error .emptyResult, s')

end Stack

/-- The value of a program on a fresh stack. -/
def evaluate (capacity : Nat) (vars : List Single) (words : List Word) :
    Except EvalError Single :=
  (Stack.eval vars words ⟨capacity, []⟩).1

end Flipbook.Expr
