import Flipbook.Number.Single
import Flipbook.Machine.LoadError

/-!
# Machine/Layout — the bytes of a resource

A resource is a header of six words, the state records, the variable list and the byte code, all of
it little-endian:

    header     version, initial state, variable count, variable list, byte-code size, byte code
    state      speed, loop, transition count, transitions, animation count, animations
    transition event, target, mode
    animation  name (64 bits), weight, 0
    variables  name hashes, then default values
    byte code  words

Places are byte offsets from the start, except speeds and weights, which count words of the byte
code.  What is written are `Field`s, and `Read.field` reads a field of a known kind back.
-/

namespace Flipbook.Machine

/-- The first part of a resource. -/
structure Header where
  version : UInt32
  initialStateOffset : UInt32
  variableCount : UInt32
  variableListOffset : UInt32
  byteCodeSize : UInt32
  byteCodeOffset : UInt32
deriving DecidableEq, Repr

namespace Layout

/-- The version that is written and understood. -/
def version : Nat := 1

/-- The size of the header. -/
def headerSize : Nat := 24

/-- The size of a transition. -/
def transitionSize : Nat := 12

/-- The size of an animation entry. -/
def animationSize : Nat := 16

/-- The size of a state record. -/
def stateSize (transitions animations : Nat) : Nat :=
  16 + transitions * transitionSize + animations * animationSize

end Layout

/-! ## Writing -/

/-- One unit of writing. -/
inductive Field where
  | word (value : UInt32)
  | long (value : UInt64)
  | single (value : Single)
  | header (value : Header)
deriving DecidableEq, Repr

/-- The words of a header in order. -/
def Header.words (h : Header) : List UInt32 :=
  [h.version, h.initialStateOffset, h.variableCount, h.variableListOffset, h.byteCodeSize,
    h.byteCodeOffset]

/-- The bytes of a word. -/
def wordBytes (w : UInt32) : List UInt8 := littleEndian 4 w.toNat

/-- The bytes of a field. -/
def Field.bytes : Field → List UInt8
  | word value => wordBytes value
  | long value => littleEndian 8 value.toNat
  | single value => wordBytes value.bits
  | header value => value.words.flatMap wordBytes

/-- The bytes with a field added at their end. -/
def writeField (out : Blob) (field : Field) : Blob := out ++ field.bytes.toArray

/-! ## Reading -/

/-- A read moves a cursor; what was read before an error stays read. -/
abbrev Read (α : Type) := ExceptT LoadError (StateM Cursor) α

namespace Read

/-- The number in the next `count` bytes. -/
def number (count : Nat) : Read Nat := fun c =>
  match c.take count with
  | (.ok bytes, c') => (.ok (ofLittleEndian bytes), c')
  | (.error e, c') => (.error (.truncated e.offset e.needed), c')

/-- The next word. -/
def word : Read UInt32 := UInt32.ofNat <$> number 4

/-- The next 64-bit number. -/
def long : Read UInt64 := UInt64.ofNat <$> number 8

/-- The next single-precision value. -/
def single : Read Single := Single.mk <$> word

/-- The next header. -/
def header : Read Header := do
  let version ← word
  let initialStateOffset ← word
  let variableCount ← word
  let variableListOffset ← word
  let byteCodeSize ← word
  let byteCodeOffset ← word
  return ⟨version, initialStateOffset, variableCount, variableListOffset, byteCodeSize,
    byteCodeOffset⟩

/-- The same read, several times. -/
def times {α : Type} : Nat → Read α → Read (List α)
  | 0, _ => return []
  | n + 1, read => do
    let first ← read
    let rest ← times n read
    return first :: rest

/-- Reads at a position and gives the result alone. -/
def result {α : Type} (read : Read α) (bytes : Blob) (position : Nat) : Except LoadError α :=
  (read.run ⟨bytes, position⟩).1

end Read

/-- What a field holds. -/
inductive FieldKind where
  | word
  | long
  | single
  | header
deriving DecidableEq, Repr

/-- The kind of a field. -/
def Field.kind : Field → FieldKind
  | word _ => .word
  | long _ => .long
  | single _ => .single
  | header _ => .header

/-- The next field, of a known kind. -/
def Read.field : FieldKind → Read Field
  | .word => Field.word <$> word
  | .long => Field.long <$> long
  | .single => Field.single <$> single
  | .header => Field.header <$> header

end Flipbook.Machine
