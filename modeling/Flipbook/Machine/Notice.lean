import Flipbook.Expr.Compile
import Flipbook.Machine.Resource
import Flipbook.Machine.RuntimeError
import Flipbook.Logged

/-!
# Machine/Notice — what is worth telling the host

A `Notice` reports a step of building, loading or running a machine.  It is data; `Notice.level` and
`Notice.text` say how urgent it is and how it reads.
-/

namespace Flipbook.Machine

/-- The urgency of a notice. -/
inductive NoticeLevel where
  | debug
  | warn
deriving DecidableEq, Repr

/-- The name of a level. -/
def NoticeLevel.name : NoticeLevel → String
  | debug => "DEBUG"
  | warn => "WARN"

/-- The steps that are reported. -/
inductive Notice where
  /-- An expression was compiled. -/
  | compiled (source : String) (words tokens : Nat)
  /-- A transition can never be taken, since an earlier one waits for the same event. -/
  | shadowed (state event : String)
  | built (states vars words bytes : Nat)
  | loaded (states vars words : Nat)
  | created (entity : EntityId)
  | replaced (entity : EntityId)
  | destroyed (entity : EntityId)
  /-- A destroy notice named an entity without a machine. -/
  | nothingToDestroy (entity : EntityId)
  | writeSkipped (error : RuntimeError)
  | triggerSkipped (event : ShortHash) (error : RuntimeError)
  | switched (entity : EntityId) (source target : StateId)
  /-- An evaluation or an animation failed for an entity. -/
  | failed (entity : EntityId) (reason : String)
  | framesDropped (limit count : Nat)
deriving DecidableEq, Repr

namespace Notice

/-- The notice of a finished compilation. -/
def ofCompilation (c : Expr.Compilation) : Notice :=
  compiled c.source c.program.length c.tokenCount

/-- The notice of a loaded resource. -/
def ofResource (r : Resource) : Notice := loaded r.stateCount r.variableCount r.byteCode.length

/-- The urgency of a notice. -/
def level : Notice → NoticeLevel
  | shadowed .. | replaced _ | writeSkipped _ | triggerSkipped .. | failed .. | framesDropped .. =>
    .warn
  | compiled .. | built .. | loaded .. | created _ | destroyed _ | nothingToDestroy _
  | switched .. => .debug

/-- The wording of a notice. -/
def text : Notice → String
  | compiled source words tokens =>
    "compiled `" ++ source ++ "` into " ++ toString words ++ " words (" ++ toString tokens ++
      " tokens)"
  | shadowed state event =>
    "state `" ++ state ++ "`: transition on `" ++ event ++ "` shadowed by an earlier one"
  | built states vars words bytes =>
    "compiled state machine: " ++ toString states ++ " states, " ++ toString vars ++
      " variables, " ++ toString words ++ " byte-code words, " ++ toString bytes ++ " bytes"
  | loaded states vars words =>
    "loaded state machine: " ++ toString states ++ " states, " ++ toString vars ++
      " variables, " ++ toString words ++ " byte-code words"
  | created entity => "entity " ++ entity.text ++ ": state machine created"
  | replaced entity => "entity " ++ entity.text ++ " already has a state machine; replacing it"
  | destroyed entity => "entity " ++ entity.text ++ ": state machine destroyed"
  | nothingToDestroy entity => "destroy notice for " ++ entity.text ++ " without a state machine"
  | writeSkipped error => "variable write skipped: " ++ error.message
  | triggerSkipped event error => "trigger " ++ event.text ++ " skipped: " ++ error.message
  | switched entity source target =>
    "entity " ++ entity.text ++ ": state " ++ source.text ++ " -> " ++ target.text
  | failed entity reason => "entity " ++ entity.text ++ ": " ++ reason
  | framesDropped limit count =>
    "frame change limit " ++ toString limit ++ " reached; dropped " ++ toString count ++ " changes"

/-- The level and the wording of a notice. -/
def line (n : Notice) : String := n.level.name ++ " " ++ n.text

end Notice

/-- A result with the notices raised on the way. -/
abbrev WithNotices (α : Type) := Logged Notice α

end Flipbook.Machine
