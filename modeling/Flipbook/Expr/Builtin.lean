import Flipbook.Expr.Operation

/-!
# Expr/Builtin — operators and named functions of the source language

A `Builtin` is a spelling that applies an operation.  Signs have two entries: one between two
operands, and one before a single operand whose table spelling, `u-` or `u+`, no source text can
produce.
-/

namespace Flipbook.Expr

/-- Where a builtin stands in relation to its operands. -/
inductive Fixity where
  /-- Between two operands, or as the separator of two arguments. -/
  | between
  /-- Before its operands. -/
  | before
deriving DecidableEq, Repr

/-- The operators and functions of the source language. -/
inductive Builtin where
  | comma
  | plus
  | minus
  | times
  | divide
  | negate
  | keep
  | sin
  | cos
  | abs
  | near
  | near2d
deriving DecidableEq, Repr

namespace Builtin

/-- Every builtin, in table order. -/
def all : List Builtin :=
  [comma, plus, minus, times, divide, negate, keep, sin, cos, abs, near, near2d]

/-- The position in the table. -/
def id : Builtin → Nat
  | comma => 0
  | plus => 1
  | minus => 2
  | times => 3
  | divide => 4
  | negate => 5
  | keep => 6
  | sin => 7
  | cos => 8
  | abs => 9
  | near => 10
  | near2d => 11

/-- The spelling in the table. -/
def spelling : Builtin → String
  | comma => ","
  | plus => "+"
  | minus => "-"
  | times => "*"
  | divide => "/"
  | negate => "u-"
  | keep => "u+"
  | sin => "sin"
  | cos => "cos"
  | abs => "abs"
  | near => "match"
  | near2d => "match2d"

/-- The operation that a builtin applies; the separator and the plus sign before an operand apply
none. -/
def operation : Builtin → Operation
  | comma | keep => .nop
  | plus => .add
  | minus => .sub
  | times => .mul
  | divide => .div
  | negate => .neg
  | sin => .sin
  | cos => .cos
  | abs => .abs
  | near => .near
  | near2d => .near2d

/-- How tightly a builtin binds. -/
def precedence : Builtin → Nat
  | comma => 1
  | plus | minus => 12
  | times | divide => 13
  | negate | keep => 16
  | sin | cos | abs | near | near2d => 17

/-- The number of operands. -/
def arity (b : Builtin) : Nat := b.operation.arity

/-- Where a builtin stands. -/
def fixity : Builtin → Fixity
  | comma | plus | minus | times | divide => .between
  | _ => .before

/-- The builtin with a given table spelling. -/
def ofSpelling? (name : String) : Option Builtin := all.find? (·.spelling == name)

theorem mem_all (b : Builtin) : b ∈ all := by
  cases b <;> decide

theorem spelling_of_ofSpelling? {name : String} {b : Builtin} (h : ofSpelling? name = some b) :
    b.spelling = name := by
  simpa using List.find?_some h

end Builtin

end Flipbook.Expr
