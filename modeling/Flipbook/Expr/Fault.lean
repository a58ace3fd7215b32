import Flipbook.Expr.Builtin
import Flipbook.Expr.Span

/-!
# Expr/Fault — why an expression is rejected

Each `Fault` names its cause and, except for the empty expression, the range of source text it
points at.  `Fault.message` is the one-line wording and `Fault.label` the short remark that stands
under the text in a report.
-/

namespace Flipbook.Expr

/-- The reasons to reject an expression. -/
inductive Fault where
  | unknownIdentifier (name : String) (span : Span)
  | unknownSymbol (symbol : String) (span : Span)
  | malformedNumber (text : String) (span : Span)
  | unbalancedParenthesis (span : Span)
  | arityMismatch (builtin : Builtin) (found : Nat) (span : Span)
  | emptyExpression
  | danglingOperand (count : Nat) (span : Span)
  | nonFiniteConstant (span : Span)
deriving DecidableEq, Repr

namespace Fault

/-- The source range that a fault points at. -/
def span? : Fault → Option Span
  | unknownIdentifier _ span | unknownSymbol _ span | malformedNumber _ span
  | unbalancedParenthesis span | arityMismatch _ _ span | danglingOperand _ span
  | nonFiniteConstant span => some span
  | emptyExpression => none

/-- The wording of a fault. -/
def message : Fault → String
  | unknownIdentifier name span => "unknown identifier `" ++ name ++ "` at " ++ span.text
  | unknownSymbol symbol span => "unknown symbol `" ++ symbol ++ "` at " ++ span.text
  | malformedNumber text span => "malformed number `" ++ text ++ "` at " ++ span.text
  | unbalancedParenthesis span => "unbalanced parenthesis at " ++ span.text
  | arityMismatch builtin found span =>
    "`" ++ builtin.spelling ++ "` expects " ++ toString builtin.arity ++ " operand(s), found " ++
      toString found ++ " at " ++ span.text
  | emptyExpression => "empty expression"
  | danglingOperand count span =>
    "expression leaves " ++ toString count ++ " values, expected exactly one (near " ++
      span.text ++ ")"
  | nonFiniteConstant span => "constant subexpression at " ++ span.text ++ " is not finite"

/-- The remark under the source text in a report. -/
def label : Fault → String
  | unknownIdentifier .. => "not a variable, constant or function"
  | unknownSymbol .. => "unrecognised operator"
  | malformedNumber .. => "not a valid number"
  | unbalancedParenthesis .. => "unmatched parenthesis"
  | arityMismatch .. => "wrong number of operands"
  | danglingOperand .. => "left over here"
  | nonFiniteConstant .. => "folds to a non-finite value"
  | emptyExpression => "empty"

end Fault

end Flipbook.Expr
