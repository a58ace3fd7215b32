import Flipbook.Json.Schema

/-!
# Machine/Mode — when a transition is taken

A transition switches at once or waits for the end of the animation.  Both have a number in
resources and a name in documents.
-/

namespace Flipbook.Machine

/-- When a transition switches the state. -/
inductive Mode where
  /-- As soon as its event is raised. -/
  | immediate
  /-- When the current animation ends. -/
  | waitUntilEnd
deriving DecidableEq, Repr

namespace Mode

/-- The number of a mode in a resource. -/
def number : Mode → Nat
  | immediate => 0
  | waitUntilEnd => 1

/-- The mode with a given number. -/
def ofNumber? : Nat → Option Mode
  | 0 => some immediate
  | 1 => some waitUntilEnd
  | _ => none

@[simp] theorem ofNumber?_number (m : Mode) : ofNumber? m.number = some m := by
  cases m <;> rfl

/-- The name of a mode in a document. -/
def name : Mode → String
  | immediate => "immediate"
  | waitUntilEnd => "wait_until_end"

/-- Reads a mode. -/
def ofJson? (v : Json.Value) : Option Mode :=
  match v.unitChoice? with
  | some "immediate" => some immediate
  | some "wait_until_end" => some waitUntilEnd
  | _ => none

/-- Writes a mode. -/
def toJson (m : Mode) : Json.Value := Json.Value.ofString m.name

end Mode

end Flipbook.Machine
