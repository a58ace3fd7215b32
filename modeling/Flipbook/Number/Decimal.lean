import Flipbook.Number.Single

/-!
# Number/Decimal — decimal values, and the nearest single

A `Decimal` is a whole significand and a power of ten.  `Single.ofDecimal` takes it to the nearest
single-precision value in one step, without passing through a wider format.
-/

namespace Flipbook

/-- The value of a decimal digit. -/
def digitValue (c : Char) : Nat := c.toNat - '0'.toNat

/-- The value of a run of decimal digits. -/
def digitsValue (cs : List Char) : Nat := cs.foldl (fun n c => 10 * n + digitValue c) 0

/-- The value `significand * 10 ^ exponent`. -/
structure Decimal where
  significand : Nat
  exponent : Int
deriving DecidableEq, Repr

namespace Decimal

/-- The least `n` for which the value is below `10 ^ n`, for a positive value. -/
def order (d : Decimal) : Int := (Nat.toDigits 10 d.significand).length + d.exponent

end Decimal

/-- The nearest value to a decimal.  Orders far outside the range of the format are settled first,
so that no large power is ever computed for them. -/
def Single.ofDecimal (d : Decimal) : Single :=
  if d.significand = 0 ∨ d.order < -64 then zero
  else if 64 < d.order then infinity false
  else ofRatio false (d.significand * pow10 d.exponent.toNat) (pow10 (-d.exponent).toNat)

end Flipbook
