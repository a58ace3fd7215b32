import Flipbook.Expr.Operation

/-!
# Expr/Stack — operands, bounded in number

A `Stack` holds at most `capacity` values.  Pushing onto a full stack and popping an empty one are
errors that leave it as it is.  `Stack.execute` applies an operation; operands that were popped
before one was found missing stay popped, so a failed operation leaves nothing.
-/

namespace Flipbook.Expr

/-- Why a stack refuses an operation. -/
inductive StackError where
  | overflow (capacity : Nat)
  | underflow
deriving DecidableEq, Repr

/-- The wording of a stack error. -/
def StackError.message : StackError → String
  | overflow capacity => "stack overflow (capacity " ++ toString capacity ++ ")"
  | underflow => "stack underflow"

/-- Values, the top first, and how many there may be. -/
structure Stack where
  capacity : Nat
  items : List Single := []
deriving DecidableEq, Repr

namespace Stack

/-- The capacity used where nothing better is known. -/
def defaultCapacity : Nat := 32

/-- The number of values. -/
def size (s : Stack) : Nat := s.items.length

/-- The stack without its values. -/
def clear (s : Stack) : Stack := { s with items := [] }

/-- The value on top. -/
def top? (s : Stack) : Option Single := s.items.head?

/-- The stack with one more value. -/
def push (s : Stack) (value : Single) : Except StackError Stack :=
  if s.size < s.capacity then .ok { s with items := value :: s.items }
  else .error (.overflow s.capacity)

/-- The value on top and the stack without it. -/
def pop (s : Stack) : Except StackError (Single × Stack) :=
  match s.items with
  | value :: rest => .ok (value, { s with items := rest })
  | [] => .error .underflow

/-- Applies an operation to the values on top.  The result, if there is one, takes the place of an
operand, so it always fits. -/
def execute (s : Stack) (op : Operation) : Except StackError Unit × Stack :=
  if s.size < op.arity then (.error .underflow, s.clear)
  else
    let result := (op.result? (s.items.take op.arity).reverse).toList
    (.ok (), { s with items := result ++ s.items.drop op.arity })

end Stack

end Flipbook.Expr
