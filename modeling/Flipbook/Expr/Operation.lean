import Flipbook.Number.Single

/-!
# Expr/Operation — what a program can compute

An `Operation` takes a fixed number of operands and leaves one result, except `nop`, which takes
none and leaves none.  `Operation.id` is the number that stands for it in an encoded program, and
`Operation.result?` is its meaning on operands in source order.
-/

namespace Flipbook.Expr

/-- The operations of the stack machine. -/
inductive Operation where
  | add
  | sub
  | mul
  | div
  | neg
  | nop
  | sin
  | cos
  | abs
  | near
  | near2d
deriving DecidableEq, Repr

namespace Operation

/-- Every operation, in the order of their numbers. -/
def all : List Operation := [add, sub, mul, div, neg, nop, sin, cos, abs, near, near2d]

/-- The number of an operation in encoded programs. -/
def id : Operation → Nat
  | add => 0
  | sub => 1
  | mul => 2
  | div => 3
  | neg => 4
  | nop => 5
  | sin => 6
  | cos => 7
  | abs => 8
  | near => 9
  | near2d => 10

/-- The operation with a given number. -/
def ofId? (n : Nat) : Option Operation := all[n]?

/-- The number of operands. -/
def arity : Operation → Nat
  | nop => 0
  | neg | sin | cos | abs => 1
  | add | sub | mul | div | near => 2
  | near2d => 4

/-- Whether a result is left. -/
def producesValue (op : Operation) : Bool := op ≠ nop

/-- The name in program listings. -/
def mnemonic : Operation → String
  | add => "add"
  | sub => "sub"
  | mul => "mul"
  | div => "div"
  | neg => "neg"
  | nop => "nop"
  | sin => "sin"
  | cos => "cos"
  | abs => "abs"
  | near => "match"
  | near2d => "match2d"

/-- The result on operands in source order; `none` where their number is wrong, and for `nop`.
Of the four operands of `near2d` only the first two count. -/
def result? : Operation → List Single → Option Single
  | add, [a, b] => some (a + b)
  | sub, [a, b] => some (a - b)
  | mul, [a, b] => some (a * b)
  | div, [a, b] => some (a / b)
  | neg, [a] => some (-a)
  | sin, [a] => some a.sin
  | cos, [a] => some a.cos
  | abs, [a] => some a.abs
  | near, [a, b] => some (a.closeness b)
  | near2d, [a, b, _, _] => some (a.closeness b)
  | _, _ => none

@[simp] theorem ofId?_id (op : Operation) : ofId? op.id = some op := by
  cases op <;> rfl

theorem id_lt (op : Operation) : op.id < 11 := by
  cases op <;> decide

/-- A result is there exactly for the right number of operands, except for `nop`. -/
theorem isSome_result? (op : Operation) (xs : List Single) (h : xs.length = op.arity) :
    (op.result? xs).isSome = op.producesValue := by
  match op, xs, h with
  | add, [_, _], _ | sub, [_, _], _ | mul, [_, _], _ | div, [_, _], _ | near, [_, _], _ => rfl
  | neg, [_], _ | sin, [_], _ | cos, [_], _ | abs, [_], _ => rfl
  | near2d, [_, _, _, _], _ => rfl
  | nop, [], _ => rfl

end Operation

end Flipbook.Expr
