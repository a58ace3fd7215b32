import Flipbook.Number.Power

/-!
# Number/Binary — nearest binary values of exact ratios

A finite value of a binary floating-point format is a whole number of *units*, the unit being the
least positive value of the format.  `BinaryFormat.round` takes a ratio of natural numbers to the
nearest pattern of exponent and fraction bits, ties going to the even pattern, and `units` reads a
pattern back.  Signs are kept elsewhere: everything here is a magnitude.

The exponent field and the fraction are one number, so a significand that rounds up to the next
power of two carries into the exponent by itself, and the largest finite pattern rounds up to the
pattern of infinity.
-/

namespace Flipbook

/-- The quotient `num / den` rounded to the nearest natural number, a half going to the even one. -/
def nearestQuotient (num den : Nat) : Nat :=
  let quotient := num / den
  let twice := 2 * (num % den)
  if twice < den ∨ (twice = den ∧ quotient % 2 = 0) then quotient else quotient + 1

/-- A binary floating-point format, by the widths of its fraction and exponent fields. -/
structure BinaryFormat where
  fractionBits : Nat
  exponentBits : Nat

namespace BinaryFormat

/-- The 32-bit format. -/
def single : BinaryFormat := ⟨23, 8⟩

/-- The 64-bit format. -/
def double : BinaryFormat := ⟨52, 11⟩

variable (f : BinaryFormat)

/-- The least positive value is `2 ^ -unitExponent`. -/
def unitExponent : Nat := pow2 (f.exponentBits - 1) + f.fractionBits - 2

/-- The pattern of infinity: every exponent bit set, no fraction bit. -/
def infinity : Nat := (pow2 f.exponentBits - 1) * pow2 f.fractionBits

/-- How far the significand of a pattern is shifted above the unit. -/
def shift (pattern : Nat) : Nat := pattern / pow2 f.fractionBits - 1

/-- The significand of a finite pattern, with its leading bit where the pattern is normal. -/
def significand (pattern : Nat) : Nat := pattern - f.shift pattern * pow2 f.fractionBits

/-- The value of a finite pattern, counted in units. -/
def units (pattern : Nat) : Nat := f.significand pattern * pow2 (f.shift pattern)

/-- The pattern nearest to `num / den` units. -/
def roundUnits (num den : Nat) : Nat :=
  let shift := Nat.log2 (num / den) - f.fractionBits
  min f.infinity (shift * pow2 f.fractionBits + nearestQuotient num (den * pow2 shift))

/-- The pattern nearest to the ratio `num / den`. -/
def round (num den : Nat) : Nat := f.roundUnits (num * pow2 f.unitExponent) den

/-- The pattern nearest to the product of two finite patterns. -/
def mul (a b : Nat) : Nat := f.roundUnits (f.units a * f.units b) (pow2 f.unitExponent)

/-- The pattern nearest to the quotient of two finite patterns, the second of them positive. -/
def div (a b : Nat) : Nat := f.round (f.units a) (f.units b)

end BinaryFormat

end Flipbook
