import Flipbook.Text.Hex

/-!
# Machine/Name — identifiers and hashed names

A resource stores names as hashes: events and variables as a `ShortHash` of 32 bits, animations as a
`LongHash` of 64.  Both are the FNV-1a hash of the UTF-8 bytes of the name, which takes each byte
into the lowest bits and then multiplies by a fixed prime.
-/

namespace Flipbook.Machine

/-- The handle of an entity, chosen by the host. -/
structure EntityId where
  val : UInt32
deriving DecidableEq, Repr, Hashable

/-- The position of a state in its machine. -/
structure StateId where
  index : Nat
deriving DecidableEq, Repr

/-- The position of a variable in its machine. -/
structure VariableIndex where
  index : Nat
deriving DecidableEq, Repr

/-- The 32-bit hash of a name. -/
structure ShortHash where
  val : UInt32
deriving DecidableEq, Repr

/-- The 64-bit hash of a name. -/
structure LongHash where
  val : UInt64
deriving DecidableEq, Repr, Hashable

/-- The hash of an event or variable name. -/
def ShortHash.ofName (name : String) : ShortHash :=
  ⟨name.toUTF8.data.foldl (fun h b => (h ^^^ b.toUInt32) * 0x01000193) 0x811c9dc5⟩

/-- The hash of an animation name. -/
def LongHash.ofName (name : String) : LongHash :=
  ⟨name.toUTF8.data.foldl (fun h b => (h ^^^ b.toUInt64) * 0x100000001b3) 0xcbf29ce484222325⟩

/-- The event that is raised where a state that does not loop reaches the end of its animation. -/
def animationEnd : ShortHash := ShortHash.ofName "animation_end"

/-- A hash in messages. -/
def ShortHash.text (h : ShortHash) : String := "#" ++ hexText 8 h.val.toNat

/-- A hash in messages. -/
def LongHash.text (h : LongHash) : String := "#" ++ hexText 16 h.val.toNat

/-- An entity in messages. -/
def EntityId.text (e : EntityId) : String := "EntityId(" ++ toString e.val.toNat ++ ")"

/-- A state in messages. -/
def StateId.text (s : StateId) : String := "StateId(" ++ toString s.index ++ ")"

end Flipbook.Machine
