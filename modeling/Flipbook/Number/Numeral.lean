import Flipbook.Number.Shortest

/-!
# Number/Numeral — numbers as they are written

A `Numeral` is the text of a number by its parts: a sign, the digits before and after the point, and
an exponent.  A `DecimalStyle` decides how a single-precision value becomes a numeral; the digits
themselves are always the fewest that read back.
-/

namespace Flipbook

/-- The text of a number: digits before and after the point, and an exponent with its sign. -/
structure Numeral where
  negative : Bool := false
  whole : List Char
  fraction : List Char := []
  exponent : Option (Bool × List Char) := none
deriving DecidableEq, Repr

namespace Numeral

/-- The numeral of a natural number. -/
def ofNat (n : Nat) : Numeral := { whole := Nat.toDigits 10 n }

/-- Whether there is neither a fraction nor an exponent. -/
def isPlain (n : Numeral) : Bool := n.fraction.isEmpty && n.exponent.isNone

/-- The characters of a numeral.  The sign of an exponent is always written. -/
def chars (n : Numeral) : List Char :=
  (if n.negative then ['-'] else []) ++ n.whole ++
    (if n.fraction.isEmpty then [] else '.' :: n.fraction) ++
    match n.exponent with
    | none => []
    | some (down, digits) => 'e' :: (if down then '-' else '+') :: digits

end Numeral

/-- How a finite value is laid out. -/
structure DecimalStyle where
  /-- Which of two equally near shortest decimals is shown. -/
  tie : TieBreak
  /-- The decimal exponents of the leading digit for which no exponent mark is written. -/
  positional : Int → Bool
  /-- Whether a whole value without an exponent mark gets the fraction `.0`. -/
  pointZero : Bool

namespace DecimalStyle

/-- The digits `d.ddd` times `10 ^ e`, without an exponent mark. -/
def positionalNumeral (style : DecimalStyle) (negative : Bool) (digits : List Char) (e : Int) :
    Numeral :=
  let count := (e + 1).toNat
  let whole := digits.take count ++ List.replicate (count - digits.length) '0'
  let fraction := List.replicate (-e - 1).toNat '0' ++ digits.drop count
  { negative
    whole := if whole.isEmpty then ['0'] else whole
    fraction := if fraction.isEmpty && style.pointZero then ['0'] else fraction }

/-- The digits `d.ddd` times `10 ^ e`, with an exponent mark. -/
def scientificNumeral (negative : Bool) (digits : List Char) (e : Int) : Numeral :=
  { negative
    whole := digits.take 1
    fraction := digits.drop 1
    exponent := some (decide (e < 0), Nat.toDigits 10 e.natAbs) }

/-- A finite value as a numeral. -/
def numeral (style : DecimalStyle) (x : Single) : Numeral :=
  if x.pattern = 0 then style.positionalNumeral x.negative ['0'] 0
  else
    let d := x.shortest style.tie
    let digits := Nat.toDigits 10 d.significand
    let e : Int := digits.length - 1 + d.exponent
    if style.positional e then style.positionalNumeral x.negative digits e
    else scientificNumeral x.negative digits e

/-- Listings and messages never use an exponent mark and write whole values without a fraction. -/
def listing : DecimalStyle := ⟨.up, fun _ => true, false⟩

end DecimalStyle

/-- The text of a value in listings and messages. -/
def Single.text (x : Single) : String :=
  if x.isNaN then "NaN"
  else if x.isFinite then String.ofList (DecimalStyle.listing.numeral x).chars
  else if x.negative then "-inf" else "inf"

end Flipbook
