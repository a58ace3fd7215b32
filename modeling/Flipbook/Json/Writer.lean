import Flipbook.Text.Hex
import Flipbook.Json.Value

/-!
# Json/Writer — writing JSON text

`Value.compact` writes a value without white space; `Value.pretty` puts each item and field on a
line of its own, two blanks further in.  Both escape the quote, the backslash and the control
characters, and nothing else.
-/

namespace Flipbook.Json

/-- A character inside a string. -/
def escape (c : Char) : List Char :=
  if c = '"' then ['\\', '"']
  else if c = '\\' then ['\\', '\\']
  else if c = '\n' then ['\\', 'n']
  else if c = '\x0d' then ['\\', 'r']
  else if c = '\t' then ['\\', 't']
  else if c = '\x08' then ['\\', 'b']
  else if c = '\x0c' then ['\\', 'f']
  else if c < ' ' then '\\' :: 'u' :: hexDigits 4 c.toNat
  else [c]

/-- A string in its quotes. -/
def quoted (s : String) : String :=
  String.ofList ('"' :: s.toList.flatMap escape ++ ['"'])

/-- Singles are written with the fewest digits that read back, without an exponent mark from
`10 ^ -6` to below `10 ^ 13`, and always with a fraction. -/
def singleStyle : DecimalStyle := ⟨.toEven, fun e => -6 ≤ e ∧ e ≤ 12, true⟩

namespace Value

/-- The number of a single; infinities and NaN are null. -/
def ofSingle (x : Single) : Value :=
  if x.isFinite then number (singleStyle.numeral x) else null

/-- The text of a string; one that has no text is written empty. -/
def stringText (text : Option String) : String := quoted (text.getD "")

mutual

/-- A value without white space. -/
def compact : Value → String
  | null => "null"
  | bool b => if b then "true" else "false"
  | number n => String.ofList n.chars
  | string text => stringText text
  | array items => "[" ++ compactItems items ++ "]"
  | object fields => "\x7b" ++ compactFields fields ++ "\x7d"

/-- Items with commas between them. -/
def compactItems : List Value → String
  | [] => ""
  | [v] => compact v
  | v :: vs => compact v ++ "," ++ compactItems vs

/-- Fields with commas between them. -/
def compactFields : List (Option String × Value) → String
  | [] => ""
  | [(name, v)] => stringText name ++ ":" ++ compact v
  | (name, v) :: fs => stringText name ++ ":" ++ compact v ++ "," ++ compactFields fs

end

/-- A line break and the indentation of some level. -/
def newline (level : Nat) : String := String.ofList ('\n' :: List.replicate (2 * level) ' ')

mutual

/-- A value with its parts on lines of their own, at some level. -/
def prettyAt (level : Nat) : Value → String
  | null => "null"
  | bool b => if b then "true" else "false"
  | number n => String.ofList n.chars
  | string text => stringText text
  | array [] => "[]"
  | array items => "[" ++ prettyItems (level + 1) items ++ newline level ++ "]"
  | object [] => "\x7b\x7d"
  | object fields => "\x7b" ++ prettyFields (level + 1) fields ++ newline level ++ "\x7d"

/-- Items on lines of their own. -/
def prettyItems (level : Nat) : List Value → String
  | [] => ""
  | [v] => newline level ++ prettyAt level v
  | v :: vs => newline level ++ prettyAt level v ++ "," ++ prettyItems level vs

/-- Fields on lines of their own. -/
def prettyFields (level : Nat) : List (Option String × Value) → String
  | [] => ""
  | [(name, v)] => newline level ++ stringText name ++ ": " ++ prettyAt level v
  | (name, v) :: fs =>
    newline level ++ stringText name ++ ": " ++ prettyAt level v ++ "," ++ prettyFields level fs

end

/-- A value with its parts on lines of their own. -/
def pretty (v : Value) : String := prettyAt 0 v

end Value

end Flipbook.Json
