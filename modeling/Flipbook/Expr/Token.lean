import Flipbook.Expr.Lexeme
import Flipbook.Expr.Fault
import Flipbook.Expr.Environment

/-!
# Expr/Token — the meaning of each piece of source text

`tokenize` gives every piece of a text but the blanks its meaning in an environment and its place in
the source.  Names are variables before they are constants, and constants before they are functions.
A sign is taken for the operator between two operands exactly where an operand has just ended.
-/

namespace Flipbook.Expr

/-- A unit of an expression. -/
inductive Token where
  | number (value : Single)
  | builtin (b : Builtin)
  | variable (index : Nat)
  | opening
  | closing
deriving DecidableEq, Repr

namespace Token

/-- Whether an operand ends with the token. -/
def endsOperand : Token → Bool
  | .number _ | .variable _ | .closing => true
  | .builtin _ | .opening => false

/-- The meaning of a name. -/
def ofName? (env : Environment) (name : String) : Option Token :=
  match env.variableIndex? name, env.constantValue? name with
  | some index, _ => some (.variable index)
  | none, some value => some (number value)
  | none, none => (Builtin.ofSpelling? name).map builtin

/-- The meaning of a symbol, where `afterOperand` tells whether an operand has just ended. -/
def ofSymbol? (afterOperand : Bool) (symbol : String) : Option Token :=
  if !afterOperand && symbol == "-" then some (builtin .negate)
  else if !afterOperand && symbol == "+" then some (builtin .keep)
  else (Builtin.ofSpelling? symbol).map builtin

end Token

/-- The meaning of one piece that stands at `span`; blanks have none. -/
def Lexeme.token? (env : Environment) (afterOperand : Bool) (l : Lexeme) (span : Span) :
    Except Fault (Option Token) :=
  match l.kind with
  | .blank => .ok none
  | .number =>
    match Lexeme.value? l.chars with
    | some value => .ok (some (.number value))
    | none => .error (.malformedNumber l.text span)
  | .name =>
    match Token.ofName? env l.text with
    | some token => .ok (some token)
    | none => .error (.unknownIdentifier l.text span)
  | .opening => .ok (some .opening)
  | .closing => .ok (some .closing)
  | .symbol =>
    match Token.ofSymbol? afterOperand l.text with
    | some token => .ok (some token)
    | none => .error (.unknownSymbol l.text span)

/-- The tokens of pieces that begin at byte `start`. -/
def Lexeme.tokens (env : Environment) :
    (afterOperand : Bool) → (start : Nat) → List Lexeme → Except Fault (List (Located Token))
  | _, _, [] => .ok []
  | afterOperand, start, l :: ls => do
    let stop := start + utf8Length l.chars
    match ← l.token? env afterOperand ⟨start, stop⟩ with
    | none => Lexeme.tokens env afterOperand stop ls
    | some token =>
      let rest ← Lexeme.tokens env token.endsOperand stop ls
      return ⟨token, ⟨start, stop⟩⟩ :: rest

/-- The tokens of a source text, or its first fault. -/
def tokenize (source : String) (env : Environment) : Except Fault (List (Located Token)) :=
  Lexeme.tokens env false 0 (Lexeme.split source.toList)

end Flipbook.Expr
