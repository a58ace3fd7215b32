import Flipbook.Number.Binary

/-!
# Number/Single — single-precision values, bit for bit

`Single` is a value of the 32-bit format, kept as its bits, so that payloads survive storage and
equality is equality of bits.  Sums, products and quotients are those of the core type `Float32`.
What the rest of the library reasons about is defined on the bits: `key` orders the values that are
numbers, `less` is the comparison every NaN fails, and `floor`, `remainder` and the conversions to
integers are exact.
-/

namespace Flipbook

/-- A single-precision value, by its bits. -/
structure Single where
  bits : UInt32
deriving DecidableEq, Repr, Inhabited

namespace Single

/-- The value of the sign bit. -/
def signBit : Nat := 0x80000000

/-- Whether the sign bit is set. -/
def negative (x : Single) : Bool := signBit ≤ x.bits.toNat

/-- The bits without the sign. -/
def pattern (x : Single) : Nat := x.bits.toNat % signBit

/-- The value with a given sign and pattern. -/
def ofPattern (negative : Bool) (pattern : Nat) : Single :=
  ⟨UInt32.ofNat (pattern + if negative then signBit else 0)⟩

/-- Whether the value is not a number. -/
def isNaN (x : Single) : Bool := BinaryFormat.single.infinity < x.pattern

/-- Whether the value is neither infinite nor a NaN. -/
def isFinite (x : Single) : Bool := x.pattern < BinaryFormat.single.infinity

/-- The magnitude of a finite value, counted in units of `2 ^ -149`. -/
def units (x : Single) : Nat := BinaryFormat.single.units x.pattern

/-- Zero with the sign bit clear. -/
def zero : Single := ⟨0⟩

/-- The value 1. -/
def one : Single := ⟨0x3f800000⟩

/-- The quiet NaN with an empty payload. -/
def nan : Single := ⟨0x7fc00000⟩

/-- Infinity, of either sign. -/
def infinity (negative : Bool) : Single := ofPattern negative BinaryFormat.single.infinity

/-- The value nearest to a signed ratio. -/
def ofRatio (negative : Bool) (num den : Nat) : Single :=
  ofPattern negative (BinaryFormat.single.round num den)

/-- The value nearest to a natural number. -/
def ofNat (n : Nat) : Single := ofRatio false n 1

/-- The value of a signed, finite number of units. -/
def ofUnits (negative : Bool) (units : Nat) : Single :=
  ofPattern negative (BinaryFormat.single.roundUnits units 1)

/-! ## Arithmetic -/

/-- The same value as a core float. -/
def toFloat32 (x : Single) : Float32 := Float32.ofBits x.bits

/-- The value of a core float. -/
def ofFloat32 (x : Float32) : Single := ⟨x.toBits⟩

instance : Add Single := ⟨fun a b => ofFloat32 (a.toFloat32 + b.toFloat32)⟩
instance : Sub Single := ⟨fun a b => ofFloat32 (a.toFloat32 - b.toFloat32)⟩
instance : Mul Single := ⟨fun a b => ofFloat32 (a.toFloat32 * b.toFloat32)⟩
instance : Div Single := ⟨fun a b => ofFloat32 (a.toFloat32 / b.toFloat32)⟩

/-- The value with its sign bit flipped. -/
instance : Neg Single := ⟨fun x => ofPattern (!x.negative) x.pattern⟩

/-- The value with its sign bit cleared. -/
def abs (x : Single) : Single := ofPattern false x.pattern

/-- The sine of an angle in radians. -/
def sin (x : Single) : Single := ofFloat32 x.toFloat32.sin

/-- The cosine of an angle in radians. -/
def cos (x : Single) : Single := ofFloat32 x.toFloat32.cos

/-! ## Order -/

/-- A number whose order is the order of the values that are not NaN; both zeros have key 0. -/
def key (x : Single) : Int := if x.negative then -(x.pattern : Int) else x.pattern

/-- Strict comparison: false as soon as one side is a NaN. -/
def less (a b : Single) : Bool := !a.isNaN && !b.isNaN && decide (a.key < b.key)

/-- The larger of two values; a NaN gives way to the other side. -/
def larger (a b : Single) : Single :=
  if a.isNaN then b else if b.isNaN then a else if a.less b then b else a

/-- The value moved into the range from `low` to `high`; a NaN stays as it is. -/
def clamp (x low high : Single) : Single :=
  if x.less low then low else if high.less x then high else x

/-! ## Exact operations -/

/-- The greatest whole number not above a finite value; other values are returned as they are. -/
def floor (x : Single) : Single :=
  if x.isFinite then
    let unit := pow2 BinaryFormat.single.unitExponent
    let whole := if x.negative then (x.units + (unit - 1)) / unit else x.units / unit
    ofUnits x.negative (whole * unit)
  else x

/-- The remainder of `x` by `y` with the quotient cut toward zero, so it has the sign of `x`.
There is none for an infinite `x` or a zero `y`. -/
def remainder (x y : Single) : Single :=
  if x.isNaN || y.isNaN || !x.isFinite || y.pattern = 0 then nan
  else if y.isFinite then ofUnits x.negative (x.units % y.units)
  else x

/-- The magnitude of a finite value with its fraction cut off. -/
def wholePart (x : Single) : Nat := x.units / pow2 BinaryFormat.single.unitExponent

/-- The largest 64-bit count. -/
def maxCount : Nat := 0xffffffffffffffff

/-- The largest signed 64-bit integer. -/
def maxInteger : Int := 0x7fffffffffffffff

/-- The value as a count below `2 ^ 64`: the fraction is cut, what lies outside moves to the nearer
end, and a NaN counts 0. -/
def toCount (x : Single) : Nat :=
  if x.isNaN || x.negative then 0
  else if x.isFinite then min x.wholePart maxCount else maxCount

/-- The value as a signed 64-bit integer: the fraction is cut, what lies outside moves to the nearer
end, and a NaN counts 0. -/
def toInteger (x : Single) : Int :=
  if x.isNaN then 0
  else if x.negative then
    if x.isFinite then max (-(x.wholePart : Int)) (-maxInteger - 1) else -maxInteger - 1
  else
    if x.isFinite then min (x.wholePart : Int) maxInteger else maxInteger

/-! ## Closeness -/

/-- How well two values match: 1 where they are equal, falling off linearly to 0 at distance 1. -/
def closeness (a b : Single) : Single := (one - (b - a).abs).larger zero

end Single

end Flipbook
