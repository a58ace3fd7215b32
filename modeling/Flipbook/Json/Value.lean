import Flipbook.Json.Quantity

/-!
# Json/Value — JSON values

A `Value` keeps what the text says and judges as little as possible: numbers stay numerals, and a
string that escapes half of a surrogate pair has no text.  A reader that skips such a part never
notices, a reader that wants it fails.  `Value.isSound` tells whether every part could be read.
-/

namespace Flipbook.Json

/-- A JSON value; fields of an object keep their order and may repeat. -/
inductive Value where
  | null
  | bool (b : Bool)
  | number (n : Numeral)
  | string (text : Option String)
  | array (items : List Value)
  | object (fields : List (Option String × Value))

namespace Value

/-- The string with a given text. -/
def ofString (s : String) : Value := string (some s)

/-- The number of a natural number. -/
def ofNat (n : Nat) : Value := number (Numeral.ofNat n)

/-- The object with given fields. -/
def ofFields (fields : List (String × Value)) : Value :=
  object (fields.map fun f => (some f.1, f.2))

mutual

/-- Whether every number is in range, every string has a text, and arrays and objects nest at most
`depth` deep. -/
def isSound : (depth : Nat) → Value → Bool
  | _, null | _, bool _ => true
  | _, number n => n.quantity?.isSome
  | _, string text => text.isSome
  | 0, array _ | 0, object _ => false
  | depth + 1, array items => areSound depth items
  | depth + 1, object fields => areFieldsSound depth fields

/-- `isSound` for each item. -/
def areSound : (depth : Nat) → List Value → Bool
  | _, [] => true
  | depth, v :: vs => isSound depth v && areSound depth vs

/-- `isSound` for each value, and a text for each name. -/
def areFieldsSound : (depth : Nat) → List (Option String × Value) → Bool
  | _, [] => true
  | depth, (name, v) :: fs => name.isSome && isSound depth v && areFieldsSound depth fs

end

end Value

end Flipbook.Json
