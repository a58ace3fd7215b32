import Flipbook.Bytes.LittleEndian

/-!
# Bytes/Cursor — reading bytes in order

A `Cursor` is a position in some bytes.  `Cursor.take` gives the next few bytes and moves on; where
they are not all there it fails and stays, so a failed read can be told by its position.
-/

namespace Flipbook

/-- A sequence of bytes. -/
abbrev Blob := Array UInt8

/-- A read that ran past the end: where it began and how many bytes it wanted. -/
structure Truncation where
  offset : Nat
  needed : Nat
deriving DecidableEq, Repr

/-- A position in some bytes; it may lie past their end. -/
structure Cursor where
  bytes : Blob
  position : Nat
deriving DecidableEq, Repr

namespace Cursor

/-- The number of bytes from the position to the end. -/
def remaining (c : Cursor) : Nat := c.bytes.size - c.position

/-- The next `count` bytes and the cursor behind them. -/
def take (count : Nat) (c : Cursor) : Except Truncation (List UInt8) × Cursor :=
  if c.position + count ≤ c.bytes.size then
    (.ok (c.bytes.extract c.position (c.position + count)).toList,
      { c with position := c.position + count })
  else (.error ⟨c.position, count⟩, c)

end Cursor

end Flipbook
