import Flipbook.Expr.Fold
import Flipbook.Expr.Program

/-!
# Expr/Compile — from source text to a program

A source text is cut into tokens, arranged in postfix order, checked for its operands, folded, and
written out as words.  The first stage that finds a fault ends the compilation with it.
-/

namespace Flipbook.Expr

/-- The word of a postfix entry. -/
def Item.word : Item → Word
  | .literal value => .push value
  | .variable index => .load index
  | .apply b => .call b.operation

/-- The program of a postfix arrangement. -/
def Postfix.program (items : Postfix) : Program :=
  ⟨items.map (fun i => i.value.word) ++ [.finish]⟩

/-- A finished compilation. -/
structure Compilation where
  source : String
  tokenCount : Nat
  program : Program
deriving Repr

/-- Compiles a source text and keeps what is worth reporting about it. -/
def Compilation.ofSource (source : String) (env : Environment) : Except Fault Compilation := do
  let tokens ← tokenize source env
  let items ← Postfix.arrange tokens
  items.check
  let folded ← items.fold
  return ⟨source, tokens.length, folded.program⟩

/-- The program of a source text. -/
def compile (source : String) (env : Environment) : Except Fault Program :=
  Compilation.program <$> Compilation.ofSource source env

end Flipbook.Expr
