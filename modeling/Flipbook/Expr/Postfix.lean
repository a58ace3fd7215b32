import Flipbook.Expr.Token

/-!
# Expr/Postfix — operands before operators

`Postfix.arrange` moves every builtin behind its operands.  A builtin waits until another one
between operands arrives that does not bind more tightly: first the nesting of parentheses is
compared, then the precedence.  A builtin before its operands begins a new operand, so it never
sends another one off.  Parentheses themselves disappear.

`Postfix.settle` counts the values that an arrangement leaves, and fails where a builtin lacks
operands.
-/

namespace Flipbook.Expr

/-- An entry of a postfix arrangement. -/
inductive Item where
  | literal (value : Single)
  | variable (index : Nat)
  | apply (b : Builtin)
deriving DecidableEq, Repr

/-- An expression with every builtin behind its operands. -/
abbrev Postfix := List (Located Item)

/-- A builtin that waits for its operands to end, with the number of parentheses open around it. -/
structure Waiting where
  level : Nat
  builtin : Builtin
  span : Span
deriving DecidableEq, Repr

namespace Waiting

/-- Whether a waiting builtin binds at least as tightly as `b` does inside `level` parentheses. -/
def binds (w : Waiting) (level : Nat) (b : Builtin) : Bool :=
  level < w.level || (level = w.level && b.precedence ≤ w.builtin.precedence)

/-- The waiting builtin as an entry of the arrangement. -/
def item (w : Waiting) : Located Item := ⟨.apply w.builtin, w.span⟩

end Waiting

namespace Postfix

/-- The waiting builtins, innermost first, that leave when `b` arrives, and those that stay. -/
def release (level : Nat) (b : Builtin) (waiting : List Waiting) : List Waiting × List Waiting :=
  match b.fixity with
  | .between => waiting.span fun w => w.binds level b
  | .before => ([], waiting)

/-- The arrangement of the remaining tokens, with the parentheses that are open and the builtins
that wait, innermost first. -/
def arrangeFrom : (opened : List Span) → (waiting : List Waiting) → List (Located Token) →
    Except Fault Postfix
  | [], waiting, [] => .ok (waiting.map Waiting.item)
  | span :: _, _, [] => .error (.unbalancedParenthesis span)
  | opened, waiting, t :: ts =>
    match t.value with
    | .number value => (⟨.literal value, t.span⟩ :: ·) <$> arrangeFrom opened waiting ts
    | .variable index => (⟨.variable index, t.span⟩ :: ·) <$> arrangeFrom opened waiting ts
    | .opening => arrangeFrom (t.span :: opened) waiting ts
    | .closing =>
      match opened with
      | [] => .error (.unbalancedParenthesis t.span)
      | _ :: outer => arrangeFrom outer waiting ts
    | .builtin b =>
      let (leaving, staying) := release opened.length b waiting
      (leaving.map Waiting.item ++ ·) <$>
        arrangeFrom opened (⟨opened.length, b, t.span⟩ :: staying) ts

/-- The postfix arrangement of some tokens; fails where parentheses do not match. -/
def arrange (tokens : List (Located Token)) : Except Fault Postfix := arrangeFrom [] [] tokens

/-- The number of values left by an arrangement that finds `depth` values; fails at the first
builtin that lacks operands. -/
def settle : (depth : Nat) → Postfix → Except Fault Nat
  | depth, [] => .ok depth
  | depth, ⟨.apply b, span⟩ :: rest =>
    if depth < b.arity then .error (.arityMismatch b depth span)
    else settle (depth - b.arity + if b.operation.producesValue then 1 else 0) rest
  | depth, _ :: rest => settle (depth + 1) rest

/-- Checks that every builtin has its operands and that one value is left. -/
def check (items : Postfix) : Except Fault Unit := do
  match ← settle 0 items with
  | 0 => throw .emptyExpression
  | 1 => return ()
  | count => throw (.danglingOperand count ((items.getLast?.map Located.span).getD default))

end Postfix

end Flipbook.Expr
