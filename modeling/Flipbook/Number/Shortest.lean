import Flipbook.Number.Decimal

/-!
# Number/Shortest — the fewest digits that read back

Around a finite positive value lies the interval of reals that round to it.  `Single.shortest` looks
for a multiple of a power of ten inside that interval, the coarsest power first: the two multiples
next to the value are tried, and of two hits the nearer one is taken.  How the digits are laid out
is left to `Number/Numeral`.
-/

namespace Flipbook

/-- Which of two equally near neighbours is taken. -/
inductive TieBreak where
  | up
  | toEven
deriving DecidableEq, Repr

namespace Single

/-- A positive value and the ends of its rounding interval, in quarters of the unit `2 ^ -149`;
`closed` tells whether the ends themselves round to the value. -/
structure Interval where
  value : Nat
  low : Nat
  high : Nat
  closed : Bool

/-- The rounding interval of a finite positive value.  Below a power of two the neighbours are twice
as dense, unless they are subnormal. -/
def interval (x : Single) : Interval :=
  let f := BinaryFormat.single
  let step := pow2 (f.shift x.pattern)
  let value := 4 * x.units
  let dense := f.significand x.pattern = pow2 f.fractionBits ∧ 0 < f.shift x.pattern
  { value
    low := value - (if dense then step else 2 * step)
    high := value + 2 * step
    closed := x.pattern % 2 = 0 }

/-- The multiple of `10 ^ exponent` nearest to the value, among those inside the interval. -/
def Interval.multiple? (tie : TieBreak) (i : Interval) (exponent : Int) : Option Nat :=
  let up := pow10 (-exponent).toNat
  let grid := 4 * pow2 BinaryFormat.single.unitExponent * pow10 exponent.toNat
  let inside (n : Nat) : Bool :=
    if i.closed then i.low * up ≤ n * grid ∧ n * grid ≤ i.high * up
    else i.low * up < n * grid ∧ n * grid < i.high * up
  let below := i.value * up / grid
  let twice := 2 * (i.value * up % grid)
  let preferAbove := grid < twice ∨ (twice = grid ∧ (tie = .up ∨ below % 2 = 1))
  match inside below, inside (below + 1) with
  | true, true => some (if preferAbove then below + 1 else below)
  | true, false => some below
  | false, true => some (below + 1)
  | false, false => none

/-- The shortest decimal that rounds to a finite positive value, and of these the nearest one. -/
def shortest (tie : TieBreak) (x : Single) : Decimal :=
  let exponents := (List.range 96).map fun i => (39 : Int) - Int.ofNat i
  (exponents.findSome? fun e => (x.interval.multiple? tie e).map (⟨·, e⟩)).getD ⟨0, 0⟩

end Single

end Flipbook
