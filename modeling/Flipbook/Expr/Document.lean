import Flipbook.Expr.Program
import Flipbook.Json.Schema
import Flipbook.Json.Writer

/-!
# Expr/Document — programs as documents

Operations, words and programs are read from and written to JSON.  A document is taken at its word:
a program that is read need not end, and may end more than once.
-/

namespace Flipbook.Expr

open Json

namespace Operation

/-- The name of an operation in a document. -/
def documentName : Operation → String
  | add => "Add"
  | sub => "Sub"
  | mul => "Mul"
  | div => "Div"
  | neg => "UnaryMinus"
  | nop => "Nop"
  | sin => "Sin"
  | cos => "Cos"
  | abs => "Abs"
  | near => "Match"
  | near2d => "Match2d"

/-- Reads an operation. -/
def ofJson? (v : Value) : Option Operation := do
  let name ← v.unitChoice?
  all.find? fun op => op.documentName == name

/-- Writes an operation. -/
def toJson (op : Operation) : Value := Value.ofString op.documentName

end Operation

namespace Word

/-- Reads a word. -/
def ofJson? (v : Value) : Option Word := do
  match ← v.choice? with
  | ("Literal", some x) => push <$> x.single?
  | ("PushVariable", some x) => load <$> x.index?
  | ("Call", some x) => call <$> Operation.ofJson? x
  | ("End", none) | ("End", some .null) => some finish
  | _ => none

/-- Writes a word. -/
def toJson : Word → Value
  | push value => Value.ofFields [("Literal", Value.ofSingle value)]
  | load index => Value.ofFields [("PushVariable", Value.ofNat index)]
  | call op => Value.ofFields [("Call", op.toJson)]
  | finish => Value.ofString "End"

end Word

namespace Program

/-- Reads a program. -/
def ofJson? (v : Value) : Option Program := do
  match ← v.record? ["words"] with
  | [words] => Program.mk <$> Value.required (Value.list? Word.ofJson?) words
  | _ => none

/-- Writes a program. -/
def toJson (p : Program) : Value := Value.ofFields [("words", .array (p.words.map Word.toJson))]

end Program

end Flipbook.Expr
