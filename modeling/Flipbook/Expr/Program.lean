import Flipbook.Number.Numeral
import Flipbook.Expr.Word

/-!
# Expr/Program — compiled expressions

A `Program` is the list of words of one expression.  `Program.decode` reads the words up to the
first end, whatever follows, and `Program.listing` prints one numbered line a word.
-/

namespace Flipbook.Expr

/-- The words of a compiled expression. -/
structure Program where
  words : List Word
deriving DecidableEq, Repr

/-- A word as it stands in a listing. -/
def Word.text : Word → String
  | push value => "push " ++ value.text
  | load index => "load $" ++ toString index
  | call op => "call " ++ op.mnemonic
  | finish => "end"

namespace Program

/-- The program that leaves one literal. -/
def constant (value : Single) : Program := ⟨[.push value, .finish]⟩

/-- The number of words, the end included. -/
def length (p : Program) : Nat := p.words.length

/-- Whether the program has no word at all. -/
def isEmpty (p : Program) : Bool := p.words.isEmpty

/-- The literal that the program leaves, if it does nothing else. -/
def constant? (p : Program) : Option Single :=
  match p.words with
  | [.push value, .finish] => some value
  | _ => none

/-- The words in 32-bit form. -/
def encode (p : Program) : List UInt32 := p.words.map Word.encode

/-- A buffer after the program was written to its front; what does not fit is left out. -/
def encodeOver (p : Program) (buffer : List UInt32) : List UInt32 :=
  p.encode.take buffer.length ++ buffer.drop p.length

/-- The words up to and including the first end. -/
def decodeWords : List UInt32 → Except DecodeError (List Word)
  | [] => .error .unterminated
  | raw :: rest => do
    match ← Word.decode raw with
    | .finish => return [.finish]
    | word => return word :: (← decodeWords rest)

/-- The first program in a block of encoded words. -/
def decode (raw : List UInt32) : Except DecodeError Program := Program.mk <$> decodeWords raw

/-- A number with blanks in front of it, up to four characters in all. -/
def lineNumber (i : Nat) : String :=
  let digits := Nat.toDigits 10 i
  String.ofList (List.replicate (4 - digits.length) ' ' ++ digits)

/-- The lines of a listing from number `i` on. -/
def listingFrom : Nat → List Word → String
  | _, [] => ""
  | i, w :: ws => lineNumber i ++ "  " ++ w.text ++ "\n" ++ listingFrom (i + 1) ws

/-- The listing of a program, one word a line. -/
def listing (p : Program) : String := listingFrom 0 p.words

end Program

end Flipbook.Expr
