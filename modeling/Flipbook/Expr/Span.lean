/-!
# Expr/Span — ranges of source text

A `Span` is a half-open range of byte offsets into the UTF-8 text of an expression.  `Span.cover` is
the least range around two others, and `Located` pairs a value with the range it was read from.
-/

namespace Flipbook

/-- The number of bytes that a run of characters takes in UTF-8. -/
def utf8Length : List Char → Nat
  | [] => 0
  | c :: cs => c.utf8Size + utf8Length cs

@[simp] theorem utf8Length_nil : utf8Length [] = 0 := rfl

@[simp] theorem utf8Length_cons (c : Char) (cs : List Char) :
    utf8Length (c :: cs) = c.utf8Size + utf8Length cs := rfl

@[simp] theorem utf8Length_append (as bs : List Char) :
    utf8Length (as ++ bs) = utf8Length as + utf8Length bs := by
  induction as with
  | nil => simp
  | cons c cs ih => simp [ih, Nat.add_assoc]

namespace Expr

/-- The byte offsets from `start` up to, not including, `stop`. -/
structure Span where
  start : Nat
  stop : Nat
deriving DecidableEq, Repr, Inhabited

namespace Span

/-- The least span around two spans. -/
def cover (a b : Span) : Span := ⟨min a.start b.start, max a.stop b.stop⟩

/-- The span as it stands in messages. -/
def text (s : Span) : String := toString s.start ++ ".." ++ toString s.stop

/-- The number of bytes in the span. -/
def length (s : Span) : Nat := s.stop - s.start

end Span

/-- A value and the source range it was read from. -/
structure Located (α : Type) where
  value : α
  span : Span
deriving DecidableEq, Repr

end Expr

end Flipbook
