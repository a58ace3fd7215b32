import Flipbook.Expr.Operation

/-!
# Expr/Word — the words of a program

A program is a list of words: push a literal, load a variable, apply an operation, end.  Encoded, a
word takes 32 bits.  Three values of the top 12 bits, all of them patterns of infinity or NaN, mark
operations, variables and the end; the low 20 bits are then the number of the operation or variable.
Every other pattern is a literal.
-/

namespace Flipbook.Expr

/-- One instruction of a program. -/
inductive Word where
  | push (value : Single)
  | load (index : Nat)
  | call (op : Operation)
  | finish
deriving DecidableEq, Repr

/-- Why encoded words are rejected. -/
inductive DecodeError where
  | unknownOperation (id : Nat)
  | unterminated
deriving DecidableEq, Repr

/-- The wording of a decoding error. -/
def DecodeError.message : DecodeError → String
  | unknownOperation id => "unknown opcode id " ++ toString id
  | unterminated => "byte code is not terminated by END"

namespace Word

/-- One past the largest number that the low bits of a word hold. -/
def payloadBound : Nat := 0x100000

/-- The top bits of an operation. -/
def callTag : Nat := 0x7f8

/-- The top bits of a load. -/
def loadTag : Nat := 0x7f9

/-- The top bits of the end. -/
def finishTag : Nat := 0x7fa

/-- The word with given top bits and payload. -/
def tagged (tag payload : Nat) : UInt32 :=
  UInt32.ofNat (tag * payloadBound + payload % payloadBound)

/-- The 32-bit form of a word. -/
def encode : Word → UInt32
  | push value => value.bits
  | load index => tagged loadTag index
  | call op => tagged callTag op.id
  | finish => tagged finishTag 0

/-- The word of a 32-bit form. -/
def decode (raw : UInt32) : Except DecodeError Word :=
  let tag := raw.toNat / payloadBound
  let payload := raw.toNat % payloadBound
  if tag = callTag then
    match Operation.ofId? payload with
    | some op => .ok (call op)
    | none => .error (.unknownOperation payload)
  else if tag = loadTag then .ok (load payload)
  else if tag = finishTag then .ok finish
  else .ok (push ⟨raw⟩)

/-- Decodes every word of a block; an error comes with the position of its word. -/
def decodeBlock (raw : List UInt32) : Except (Nat × DecodeError) (List Word) :=
  go 0 raw
where
  /-- Decodes the words of a block from position `i` on. -/
  go (i : Nat) : List UInt32 → Except (Nat × DecodeError) (List Word)
    | [] => .ok []
    | w :: ws =>
      match decode w with
      | .ok word => (word :: ·) <$> go (i + 1) ws
      | .error e => .error (i, e)

end Word

end Flipbook.Expr
