import Flipbook.Json.Value

/-!
# Json/Schema — reading typed data out of values

A reader is a function from `Value` to `Option`.  A record is an object, in which fields that are
not asked for are skipped and fields that are must not repeat, or an array of its fields in their
declared order, in which trailing fields may be missing.  A choice is a string, or an object with a
single field.
-/

namespace Flipbook.Json.Value

/-- The text of a string. -/
def text? : Value → Option String
  | string text => text
  | _ => none

/-- A truth value. -/
def bool? : Value → Option Bool
  | bool b => some b
  | _ => none

/-- A whole number up to `bound`. -/
def count? (bound : Nat) : Value → Option Nat
  | number n => n.count? bound
  | _ => none

/-- A whole number of 32 bits. -/
def word? : Value → Option UInt32 := fun v => UInt32.ofNat <$> v.count? 0xffffffff

/-- A whole number of 32 bits, as a natural number. -/
def index? : Value → Option Nat := count? 0xffffffff

/-- A whole number of 64 bits, as a natural number. -/
def size? : Value → Option Nat := count? 0xffffffffffffffff

/-- A single-precision value. -/
def single? : Value → Option Single
  | number n => n.single?
  | _ => none

/-- An array, each item read by `read`. -/
def list? {α : Type} (read : Value → Option α) : Value → Option (List α)
  | array items => items.mapM read
  | _ => none

/-- The values under a name. -/
def valuesOf (name : String) (fields : List (String × Value)) : List Value :=
  (fields.filter fun f => f.1 == name).map Prod.snd

/-- The value under a name that occurs at most once; the outer `none` is a name that repeats. -/
def field? (name : String) (fields : List (String × Value)) : Option (Option Value) :=
  match valuesOf name fields with
  | [] => some none
  | [v] => some (some v)
  | _ => none

/-- The fields of an object, if every name has a text. -/
def named? (fields : List (Option String × Value)) : Option (List (String × Value)) :=
  fields.mapM fun f => f.1.map (·, f.2)

/-- The fields of a record, in the order of `names`; each may be missing. -/
def record? (names : List String) : Value → Option (List (Option Value))
  | object fields => (named? fields).bind fun fields => names.mapM (field? · fields)
  | array items =>
    if items.length ≤ names.length then
      some (items.map some ++ List.replicate (names.length - items.length) none)
    else none
  | _ => none

/-- A field that must be there. -/
def required {α : Type} (read : Value → Option α) (field : Option Value) : Option α :=
  field.bind read

/-- A field that has a default. -/
def withDefault {α : Type} (default : α) (read : Value → Option α) : Option Value → Option α
  | none => some default
  | some v => read v

/-- The name of a choice and what it holds. -/
def choice? : Value → Option (String × Option Value)
  | string (some name) => some (name, none)
  | object [(some name, v)] => some (name, some v)
  | _ => none

/-- The name of a choice that holds nothing; it may be written as a field with the value null. -/
def unitChoice? (v : Value) : Option String :=
  match v.choice? with
  | some (name, none) | some (name, some null) => some name
  | _ => none

end Flipbook.Json.Value
