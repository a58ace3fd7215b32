import Flipbook.Number.Numeral

/-!
# Json/Quantity — the value of a number in a document

The value of a numeral depends on what it is read for: a count takes plain digits only, while a
single-precision field takes any number.

A number with a fraction or an exponent, or with too many digits for 64 bits, is read in two steps:
the leading digits that fit 64 bits become the nearest double, which is then scaled by a power of
ten in one rounded multiplication or division.  The result can differ from the nearest double in its
last bit.
-/

namespace Flipbook

namespace Json

/-- A nonnegative finite double with a sign, by the pattern of its magnitude. -/
structure Double where
  negative : Bool
  pattern : Nat
deriving DecidableEq, Repr

/-- The single nearest to a double. -/
def Double.toSingle (x : Double) : Single :=
  Single.ofRatio x.negative (BinaryFormat.double.units x.pattern)
    (pow2 BinaryFormat.double.unitExponent)

namespace Double

/-- The largest power of ten that a scaling step uses. -/
def maxPower : Nat := 308

/-- The pattern of the double nearest to a power of ten. -/
def powerOfTen (n : Nat) : Nat := BinaryFormat.double.round (pow10 n) 1

/-- A pattern divided by `10 ^ n`, in steps of at most `maxPower`. -/
def scaleDown (pattern n : Nat) : Nat :=
  if n ≤ maxPower then BinaryFormat.double.div pattern (powerOfTen n)
  else
    let smaller := BinaryFormat.double.div pattern (powerOfTen maxPower)
    if smaller = 0 then 0 else scaleDown smaller (n - maxPower)
termination_by n
decreasing_by simp [maxPower] at *; omega

/-- The pattern of `significand * 10 ^ exponent`; `none` if it is out of range. -/
def scaled? (significand : Nat) (exponent : Int) : Option Nat :=
  let whole := BinaryFormat.double.round significand 1
  if exponent < 0 then some (scaleDown whole exponent.natAbs)
  else if exponent ≤ maxPower then
    let scaled := BinaryFormat.double.mul whole (powerOfTen exponent.toNat)
    if scaled < BinaryFormat.double.infinity then some scaled else none
  else if whole = 0 then some 0 else none

end Double

/-- What a numeral stands for: an unsigned or a negative 64-bit integer, or a double. -/
inductive Quantity where
  | unsigned (n : Nat)
  | negated (n : Nat)
  | double (x : Double)
deriving DecidableEq, Repr

end Json

namespace Numeral

open Json

/-- Appends digits to a significand while it fits 64 bits; the rest is left over. -/
def absorb : Nat → List Char → Nat × List Char
  | n, [] => (n, [])
  | n, c :: cs =>
    let next := 10 * n + digitValue c
    if next ≤ 0xffffffffffffffff then absorb next cs else (n, c :: cs)

/-- The exponent part of a numeral: its value, or `none` where it leaves 32 bits. -/
def exponentValue? : List Char → Option Nat :=
  List.foldlM (fun n c =>
    let next := 10 * n + digitValue c
    if next ≤ 0x7fffffff then some next else none) 0

/-- The double of a numeral that is no 64-bit integer; `none` if it is out of range. -/
def double? (n : Numeral) : Option Double :=
  let (leading, dropped) := absorb 0 n.whole
  let (significand, unread) := absorb leading n.fraction
  let shift : Int := (dropped.length : Int) - (n.fraction.length - unread.length : Nat)
  let pattern? : Option Nat :=
    match n.exponent with
    | none => Double.scaled? significand shift
    | some (down, digits) =>
      match exponentValue? digits with
      | some e => Double.scaled? significand (shift + if down then -(e : Int) else e)
      | none => if down || significand = 0 then some 0 else none
  pattern?.map (⟨n.negative, ·⟩)

/-- What a numeral stands for; `none` if it is out of range.  Minus zero and negative integers below
the 64-bit range are doubles. -/
def quantity? (n : Numeral) : Option Quantity :=
  let (value, dropped) := absorb 0 n.whole
  if n.isPlain && dropped.isEmpty then
    if !n.negative then some (.unsigned value)
    else if 0 < value ∧ value ≤ 0x8000000000000000 then some (.negated value)
    else some (.double ⟨true, BinaryFormat.double.round value 1⟩)
  else n.double?.map .double

/-- The value as a count up to `bound`. -/
def count? (bound : Nat) (n : Numeral) : Option Nat :=
  match n.quantity? with
  | some (.unsigned value) => if value ≤ bound then some value else none
  | _ => none

/-- The value as a single: integers are rounded once, everything else by way of a double. -/
def single? (n : Numeral) : Option Single :=
  n.quantity?.map fun
    | .unsigned value => Single.ofRatio false value 1
    | .negated value => Single.ofRatio true value 1
    | .double x => x.toSingle

end Numeral

end Flipbook
