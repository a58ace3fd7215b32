import Flipbook.Text.Hex
import Flipbook.Json.Value

/-!
# Json/Reader — reading strict JSON text

`Value.parse?` accepts exactly one value with white space around it: no comments, no trailing
commas, no leading zeros, no control characters inside strings.  Its recursion is bounded by the
length of the text, since every level of nesting takes at least one character.
-/

namespace Flipbook.Json.Reader

/-- The white space of JSON. -/
def isBlank (c : Char) : Bool := c = ' ' || c = '\t' || c = '\n' || c = '\r'

/-- The text behind its white space. -/
def skip (cs : List Char) : List Char := cs.dropWhile isBlank

/-! ## Strings -/

/-- The character that a one-letter escape stands for. -/
def escaped? : Char → Option Char
  | '"' => some '"'
  | '\\' => some '\\'
  | '/' => some '/'
  | 'b' => some '\x08'
  | 'f' => some '\x0c'
  | 'n' => some '\n'
  | 'r' => some '\x0d'
  | 't' => some '\t'
  | _ => none

/-- Whether a 16-bit unit is the first half of a surrogate pair. -/
def isHigh (n : Nat) : Bool := 0xd800 ≤ n && n < 0xdc00

/-- Whether a 16-bit unit is the second half of a surrogate pair. -/
def isLow (n : Nat) : Bool := 0xdc00 ≤ n && n < 0xe000

/-- The character of a surrogate pair. -/
def paired (high low : Nat) : Char :=
  Char.ofNat (0x10000 + (high - 0xd800) * 0x400 + (low - 0xdc00))

/-- A piece of a string: a character, or one 16-bit unit given by its number. -/
inductive Piece where
  | char (c : Char)
  | unit (n : Nat)
deriving DecidableEq, Repr

/-- The pieces up to the closing quote, and what follows it. -/
def pieces? : List Char → Option (List Piece × List Char)
  | [] => none
  | '"' :: rest => some ([], rest)
  | '\\' :: 'u' :: a :: b :: c :: d :: rest => do
    let n ← hexValue? [a, b, c, d]
    let (tail, rest) ← pieces? rest
    return (.unit n :: tail, rest)
  | '\\' :: e :: rest => do
    let c ← escaped? e
    let (tail, rest) ← pieces? rest
    return (.char c :: tail, rest)
  | c :: rest =>
    if c < ' ' then none
    else do
      let (tail, rest) ← pieces? rest
      return (.char c :: tail, rest)

/-- The characters of some pieces; `none` if a surrogate stands alone. -/
def join? : List Piece → Option (List Char)
  | [] => some []
  | .char c :: ps => (c :: ·) <$> join? ps
  | .unit n :: ps =>
    if isHigh n then
      match ps with
      | .unit m :: ps' => if isLow m then (paired n m :: ·) <$> join? ps' else none
      | _ => none
    else if isLow n then none
    else (Char.ofNat n :: ·) <$> join? ps

/-- The text of a string behind its opening quote, and what follows the closing one. -/
def string? (cs : List Char) : Option (Option String × List Char) :=
  (pieces? cs).map fun (ps, rest) => ((join? ps).map String.ofList, rest)

/-! ## Numbers -/

/-- A run of at least one digit, and what follows. -/
def digits? (cs : List Char) : Option (List Char × List Char) :=
  match cs.takeWhile Char.isDigit with
  | [] => none
  | ds => some (ds, cs.dropWhile Char.isDigit)

/-- The digits before the point: a single zero, or a run that begins otherwise. -/
def whole? : List Char → Option (List Char × List Char)
  | '0' :: rest => some (['0'], rest)
  | cs => digits? cs

/-- The digits behind a point, if there is one. -/
def fraction? : List Char → Option (List Char × List Char)
  | '.' :: rest => digits? rest
  | cs => some ([], cs)

/-- The sign and digits of an exponent, if there is one. -/
def exponent? : List Char → Option (Option (Bool × List Char) × List Char)
  | c :: cs =>
    if c = 'e' ∨ c = 'E' then do
      let (down, rest) := match cs with
        | '-' :: rest => (true, rest)
        | '+' :: rest => (false, rest)
        | rest => (false, rest)
      let (digits, rest) ← digits? rest
      return (some (down, digits), rest)
    else some (none, c :: cs)
  | [] => some (none, [])

/-- A number without its sign, and what follows. -/
def magnitude? (negative : Bool) (cs : List Char) : Option (Numeral × List Char) := do
  let (whole, rest) ← whole? cs
  let (fraction, rest) ← fraction? rest
  let (exponent, rest) ← exponent? rest
  return (⟨negative, whole, fraction, exponent⟩, rest)

/-- A number, and what follows. -/
def number? : List Char → Option (Numeral × List Char)
  | '-' :: rest => magnitude? true rest
  | cs => magnitude? false cs

/-! ## Values -/

mutual

/-- A value at the front of a text, and what follows. -/
def value? : (fuel : Nat) → List Char → Option (Value × List Char)
  | 0, _ => none
  | fuel + 1, cs =>
    match skip cs with
    | 'n' :: 'u' :: 'l' :: 'l' :: rest => some (.null, rest)
    | 't' :: 'r' :: 'u' :: 'e' :: rest => some (.bool true, rest)
    | 'f' :: 'a' :: 'l' :: 's' :: 'e' :: rest => some (.bool false, rest)
    | '"' :: rest => (string? rest).map fun (text, rest) => (.string text, rest)
    | '[' :: rest =>
      match skip rest with
      | ']' :: rest => some (.array [], rest)
      | cs => (items? fuel cs).map fun (items, rest) => (.array items, rest)
    | '\x7b' :: rest =>
      match skip rest with
      | '\x7d' :: rest => some (.object [], rest)
      | cs => (fields? fuel cs).map fun (fields, rest) => (.object fields, rest)
    | cs => (number? cs).map fun (n, rest) => (.number n, rest)

/-- The items of an array up to its closing bracket, and what follows. -/
def items? : (fuel : Nat) → List Char → Option (List Value × List Char)
  | 0, _ => none
  | fuel + 1, cs => do
    let (first, rest) ← value? fuel cs
    match skip rest with
    | ',' :: rest => (items? fuel rest).map fun (items, rest) => (first :: items, rest)
    | ']' :: rest => return ([first], rest)
    | _ => none

/-- The fields of an object up to its closing brace, and what follows. -/
def fields? : (fuel : Nat) → List Char → Option (List (Option String × Value) × List Char)
  | 0, _ => none
  | fuel + 1, cs =>
    match skip cs with
    | '"' :: rest => do
      let (name, rest) ← string? rest
      match skip rest with
      | ':' :: rest =>
        let (first, rest) ← value? fuel rest
        match skip rest with
        | ',' :: rest => (fields? fuel rest).map fun (fs, rest) => ((name, first) :: fs, rest)
        | '\x7d' :: rest => return ([(name, first)], rest)
        | _ => none
      | _ => none
    | _ => none

end

end Flipbook.Json.Reader

namespace Flipbook.Json

/-- The value that a text holds, and nothing else. -/
def Value.parse? (text : String) : Option Value :=
  match Reader.value? (2 * text.length + 2) text.toList with
  | some (value, rest) => if (Reader.skip rest).isEmpty then some value else none
  | none => none

end Flipbook.Json
