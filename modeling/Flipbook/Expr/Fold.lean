import Flipbook.Expr.Postfix

/-!
# Expr/Fold — computing what does not depend on variables

`Postfix.fold` replaces every builtin whose operands are all literals by its value, and drops the
builtins that compute nothing.  One pass is enough: a computed value is itself a literal for the
builtins around it.  The value stands for the whole range from its first operand or its builtin to
its last.
-/

namespace Flipbook.Expr.Postfix

/-- The value of an entry that is a literal. -/
def literal? (i : Located Item) : Option Single :=
  match i.value with
  | .literal value => some value
  | _ => none

/-- The value of a builtin on operands that are all literals. -/
def constant? (b : Builtin) (operands : List (Located Item)) : Option Single :=
  (operands.mapM literal?).bind b.operation.result?

/-- The least span around a builtin and its operands. -/
def extent (span : Span) (operands : List (Located Item)) : Span :=
  operands.foldl (fun s o => s.cover o.span) span

/-- Folds the remaining entries behind those already `done`, the latest first. -/
def foldFrom : (done : Postfix) → Postfix → Except Fault Postfix
  | done, [] => .ok done.reverse
  | done, ⟨.apply b, span⟩ :: rest =>
    if b.operation = .nop then foldFrom done rest
    else
      let operands := (done.take b.arity).reverse
      match constant? b operands with
      | none => foldFrom (⟨.apply b, span⟩ :: done) rest
      | some value =>
        let whole := extent span operands
        if value.isFinite then foldFrom (⟨.literal value, whole⟩ :: done.drop b.arity) rest
        else .error (.nonFiniteConstant whole)
  | done, item :: rest => foldFrom (item :: done) rest

/-- The arrangement with its constant parts computed; fails where one of them is infinite or no
number. -/
def fold (items : Postfix) : Except Fault Postfix := foldFrom [] items

end Flipbook.Expr.Postfix
