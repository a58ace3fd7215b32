import Flipbook.Number.Decimal
import Flipbook.Expr.Span

/-!
# Expr/Lexeme — cutting source text into pieces

`Lexeme.split` cuts a text into blanks, numbers, names, parentheses and single symbols.  It never
fails and loses nothing: `Lexeme.flatten_split` says that the pieces joined are the text, and
`Lexeme.ne_nil_of_mem_split` that no piece is empty.  What the pieces mean is decided by
`Expr/Token`.
-/

namespace Flipbook.Expr

/-- What a piece of source text is, told by its first characters. -/
inductive LexemeKind where
  | blank
  | number
  | name
  | opening
  | closing
  | symbol
deriving DecidableEq, Repr

/-- A piece of source text. -/
structure Lexeme where
  kind : LexemeKind
  chars : List Char
deriving DecidableEq, Repr

namespace Lexeme

/-- The characters that separate pieces: space, tab, line feed, form feed and carriage return. -/
def isBlank (c : Char) : Bool :=
  c = ' ' || c = '\t' || c = '\n' || c = '\x0c' || c = '\r'

/-- The characters that may begin a name. -/
def isNameStart (c : Char) : Bool := c.isAlpha || c = '_'

/-- The characters that may continue a name. -/
def isNamePart (c : Char) : Bool := c.isAlphanum || c = '_'

/-- The digits and points of a number; points are not counted here, so `1.2.3` stays one piece. -/
def isMantissa (c : Char) : Bool := c.isDigit || c = '.'

/-- The sign in front of a text, if there is one, and what follows. -/
def splitSign : List Char → List Char × List Char
  | c :: cs => if c = '+' ∨ c = '-' then ([c], cs) else ([], c :: cs)
  | [] => ([], [])

/-- The exponent in front of a text, if there is one, and what follows: its mark, a sign, and
whatever digits are there. -/
def splitExponent : List Char → List Char × List Char
  | c :: cs =>
    if c = 'e' ∨ c = 'E' then
      let (sign, rest) := splitSign cs
      (c :: sign ++ rest.takeWhile Char.isDigit, rest.dropWhile Char.isDigit)
    else ([], c :: cs)
  | [] => ([], [])

/-- The longest number in front of a text, and what follows. -/
def splitNumber (cs : List Char) : List Char × List Char :=
  let (exponent, rest) := splitExponent (cs.dropWhile isMantissa)
  (cs.takeWhile isMantissa ++ exponent, rest)

/-- Whether a number begins here: at a digit, or at a point that a digit follows. -/
def startsNumber (c : Char) (cs : List Char) : Bool :=
  c.isDigit || (c = '.' && cs.head?.any Char.isDigit)

/-- The piece in front of the text `c :: cs`, and what follows. -/
def next (c : Char) (cs : List Char) : Lexeme × List Char :=
  if isBlank c then (⟨.blank, [c]⟩, cs)
  else if startsNumber c cs then
    let (tail, rest) := splitNumber cs
    (⟨.number, c :: tail⟩, rest)
  else if isNameStart c then (⟨.name, c :: cs.takeWhile isNamePart⟩, cs.dropWhile isNamePart)
  else if c = '(' then (⟨.opening, [c]⟩, cs)
  else if c = ')' then (⟨.closing, [c]⟩, cs)
  else (⟨.symbol, [c]⟩, cs)

/-! ## Nothing is lost -/

theorem splitSign_append (cs : List Char) : (splitSign cs).1 ++ (splitSign cs).2 = cs := by
  cases cs with
  | nil => rfl
  | cons c cs => simp only [splitSign]; split <;> rfl

theorem splitExponent_append (cs : List Char) :
    (splitExponent cs).1 ++ (splitExponent cs).2 = cs := by
  cases cs with
  | nil => rfl
  | cons c cs =>
    simp only [splitExponent]
    split
    · simp [List.append_assoc, splitSign_append]
    · rfl

theorem splitNumber_append (cs : List Char) : (splitNumber cs).1 ++ (splitNumber cs).2 = cs := by
  simp [splitNumber, List.append_assoc, splitExponent_append]

theorem next_append (c : Char) (cs : List Char) :
    (next c cs).1.chars ++ (next c cs).2 = c :: cs := by
  simp only [next]
  split
  · rfl
  split
  · simp [splitNumber_append]
  split
  · simp
  split
  · rfl
  split <;> rfl

theorem next_chars_ne_nil (c : Char) (cs : List Char) : (next c cs).1.chars ≠ [] := by
  simp only [next]
  repeat' split
  all_goals simp

/-- What follows the first piece is shorter than the text. -/
theorem length_next_lt (c : Char) (cs : List Char) : (next c cs).2.length < (c :: cs).length := by
  have h := congrArg List.length (next_append c cs)
  have := List.length_pos_iff.2 (next_chars_ne_nil c cs)
  simp only [List.length_append] at h
  omega

/-- The pieces of a text, in order. -/
def split : List Char → List Lexeme
  | [] => []
  | c :: cs => (next c cs).1 :: split (next c cs).2
termination_by cs => cs.length
decreasing_by exact length_next_lt c cs

/-- **The pieces joined are the text.** -/
theorem flatten_split (cs : List Char) : ((split cs).map Lexeme.chars).flatten = cs := by
  fun_induction split cs with
  | case1 => rfl
  | case2 c cs ih => simp [ih, next_append]

/-- No piece is empty. -/
theorem ne_nil_of_mem_split {cs : List Char} {l : Lexeme} (h : l ∈ split cs) : l.chars ≠ [] := by
  fun_induction split cs with
  | case1 => simp at h
  | case2 c cs ih =>
    rcases List.mem_cons.1 h with rfl | h
    · exact next_chars_ne_nil c cs
    · exact ih h

/-! ## Numbers -/

/-- The text of a piece. -/
def text (l : Lexeme) : String := String.ofList l.chars

/-- The exponent of a number from what follows its digits and points; `none` if its mark stands
without digits. -/
def exponentValue? : List Char → Option Int
  | [] => some 0
  | _ :: cs =>
    let (sign, digits) := splitSign cs
    if digits.isEmpty then none
    else some (if sign = ['-'] then -(digitsValue digits : Int) else digitsValue digits)

/-- The decimal that the characters of a number denote; `none` if it has two points or an exponent
mark without digits. -/
def decimal? (cs : List Char) : Option Decimal :=
  let mantissa := cs.takeWhile isMantissa
  let whole := mantissa.takeWhile Char.isDigit
  let fraction := (mantissa.dropWhile Char.isDigit).drop 1
  if fraction.all Char.isDigit then
    (exponentValue? (cs.dropWhile isMantissa)).map fun e =>
      ⟨digitsValue (whole ++ fraction), e - fraction.length⟩
  else none

/-- The value of a number, if it is well formed and finite. -/
def value? (cs : List Char) : Option Single :=
  ((decimal? cs).map Single.ofDecimal).filter Single.isFinite

end Lexeme

end Flipbook.Expr
