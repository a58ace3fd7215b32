import Flipbook.Machine.BuildError
import Flipbook.Machine.Description
import Flipbook.Machine.Layout
import Flipbook.Machine.Notice
import Flipbook.Machine.Settings

/-!
# Machine/Build — from a description to a resource

`build` checks the structure of a description, compiles its expressions into one block of byte code,
and lays everything out as bytes.  The first error ends it; the notices raised until then remain.
-/

namespace Flipbook.Machine

/-- A step of building: it may fail, and it raises notices. -/
abbrev Building (α : Type) := ExceptT BuildError (Logged Notice) α

namespace Building

/-- Raises a notice. -/
def note (notice : Notice) : Building Unit := ExceptT.lift (Logged.note notice)

/-- Fails with an error unless a condition holds. -/
def require (condition : Bool) (error : BuildError) : Building Unit :=
  if condition then pure () else throw error

end Building

/-! ## Structure -/

/-- The most variables that the words of a program can tell apart. -/
def maxVariables : Nat := Expr.Word.payloadBound

/-- The first entry that has come before. -/
def firstRepeated? (seen : List String) : List String → Option String
  | [] => none
  | x :: xs => if x ∈ seen then some x else firstRepeated? (x :: seen) xs

namespace Description

/-- The names of the variables. -/
def variableNames (d : Description) : List String := d.vars.map (·.name)

/-- The names of the states. -/
def stateIds (d : Description) : List String := d.states.map (·.id)

/-- The position of a state. -/
def stateIndex? (d : Description) (id : String) : Option Nat := d.stateIds.idxOf? id

/-- Checks that the transitions of a state lead to declared states, and notes those that an earlier
one for the same event hides. -/
def checkTransitions (d : Description) (state : String) :
    (seen : List String) → List TransitionDescription → Building Unit
  | _, [] => pure ()
  | seen, t :: ts => do
    Building.require (t.target ∈ d.stateIds)
      (.unknownTransitionTarget state t.event t.target)
    if t.event ∈ seen then Building.note (.shadowed state t.event)
    checkTransitions d state (t.event :: seen) ts

/-- Checks one state. -/
def checkState (d : Description) (s : StateDescription) : Building Unit := do
  Building.require (!s.animations.isEmpty) (.noAnimations s.id)
  d.checkTransitions s.id [] s.transitions

/-- Checks the structure of a description. -/
def check (d : Description) : Building Unit := do
  Building.require (!d.states.isEmpty) .noStates
  Building.require (d.vars.length ≤ maxVariables)
    (.tooManyVariables d.vars.length maxVariables)
  if let some name := firstRepeated? [] d.variableNames then throw (.duplicateVariable name)
  if let some id := firstRepeated? [] d.stateIds then throw (.duplicateState id)
  Building.require (d.initialState ∈ d.stateIds) (.unknownInitialState d.initialState)
  d.states.forM d.checkState

end Description

/-! ## Byte code -/

/-- A state with its expressions replaced by their places in the byte code. -/
structure StatePlan where
  speed : Nat
  looping : Bool
  transitions : List TransitionDescription
  /-- The hashed name of each animation and the place of its weight. -/
  animations : List (LongHash × Nat)

/-- The byte code so far. -/
abbrev CodeBlock := List Expr.Word

/-- Compiles an expression to the end of the byte code and gives its place. -/
def placeExpression (env : Expr.Environment) (limit : Nat) (code : CodeBlock)
    (place : ExpressionPlace) (text : String) : Building (Nat × CodeBlock) :=
  match Expr.Compilation.ofSource text env with
  | .error fault => throw (.expression place text fault)
  | .ok c => do
    Building.note (.ofCompilation c)
    let needed := code.length + c.program.length
    Building.require (needed ≤ limit) (.byteCodeCapacityExceeded needed limit)
    return (code.length, code ++ c.program.words)

/-- Compiles the weights of some animations. -/
def placeWeights (env : Expr.Environment) (limit : Nat) (state : String) :
    CodeBlock → List AnimationDescription → Building (List (LongHash × Nat) × CodeBlock)
  | code, [] => return ([], code)
  | code, a :: rest => do
    let (weight, code) ← placeExpression env limit code (.weight state a.name) a.weight
    let (later, code) ← placeWeights env limit state code rest
    return ((LongHash.ofName a.name, weight) :: later, code)

/-- Compiles the speed and the weights of a state. -/
def placeState (env : Expr.Environment) (limit : Nat) (code : CodeBlock) (s : StateDescription) :
    Building (StatePlan × CodeBlock) := do
  let (speed, code) ← placeExpression env limit code (.speed s.id) s.speed
  let (animations, code) ← placeWeights env limit s.id code s.animations
  return (⟨speed, s.looping, s.transitions, animations⟩, code)

/-- Compiles the expressions of all states. -/
def placeStates (env : Expr.Environment) (limit : Nat) :
    CodeBlock → List StateDescription → Building (List StatePlan × CodeBlock)
  | code, [] => return ([], code)
  | code, s :: rest => do
    let (plan, code) ← placeState env limit code s
    let (later, code) ← placeStates env limit code rest
    return (plan :: later, code)

/-! ## Layout -/

namespace StatePlan

/-- The size of the record of a state. -/
def size (p : StatePlan) : Nat := Layout.stateSize p.transitions.length p.animations.length

/-- The places of state records that begin at `start`, and the place behind them. -/
def offsets (start : Nat) : List StatePlan → List Nat × Nat
  | [] => ([], start)
  | p :: ps =>
    let (rest, stop) := offsets (start + p.size) ps
    (start :: rest, stop)

end StatePlan

/-- The word of a number. -/
def wordField (n : Nat) : Field := .word (UInt32.ofNat n)

/-- A machine ready to be written. -/
structure Plan where
  description : Description
  states : List StatePlan
  code : CodeBlock

namespace Plan

/-- The places of the state records. -/
def stateOffsets (p : Plan) : List Nat := (StatePlan.offsets Layout.headerSize p.states).1

/-- The place of the variable list. -/
def variableListOffset (p : Plan) : Nat := (StatePlan.offsets Layout.headerSize p.states).2

/-- The place of the byte code. -/
def byteCodeOffset (p : Plan) : Nat := p.variableListOffset + 8 * p.description.vars.length

/-- The size of the resource. -/
def size (p : Plan) : Nat := p.byteCodeOffset + 4 * p.code.length

/-- The place of the record of a declared state. -/
def offsetOf (p : Plan) (id : String) : Nat :=
  ((p.description.stateIndex? id).bind (p.stateOffsets[·]?)).getD 0

/-- The header. -/
def header (p : Plan) : Header where
  version := UInt32.ofNat Layout.version
  initialStateOffset := UInt32.ofNat (p.offsetOf p.description.initialState)
  variableCount := UInt32.ofNat p.description.vars.length
  variableListOffset := UInt32.ofNat p.variableListOffset
  byteCodeSize := UInt32.ofNat p.code.length
  byteCodeOffset := UInt32.ofNat p.byteCodeOffset

/-- The fields of a transition. -/
def transitionFields (p : Plan) (t : TransitionDescription) : List Field :=
  [.word (ShortHash.ofName t.event).val, wordField (p.offsetOf t.target), wordField t.mode.number]

/-- The fields of an animation entry. -/
def animationFields (a : LongHash × Nat) : List Field :=
  [.long a.1.val, wordField a.2, wordField 0]

/-- The fields of a state record. -/
def stateFields (p : Plan) (s : StatePlan) : List Field :=
  [wordField s.speed, wordField (if s.looping then 1 else 0), wordField s.transitions.length] ++
    s.transitions.flatMap p.transitionFields ++
    wordField s.animations.length :: s.animations.flatMap animationFields

/-- The fields of the variable list. -/
def variableFields (p : Plan) : List Field :=
  p.description.vars.map (fun v => .word (ShortHash.ofName v.name).val) ++
    p.description.vars.map fun v => .single v.value

/-- Every field of the resource. -/
def fields (p : Plan) : List Field :=
  .header p.header :: p.states.flatMap p.stateFields ++ p.variableFields ++
    p.code.map fun w => .word w.encode

/-- The bytes of the resource. -/
def bytes (p : Plan) : Blob := p.fields.foldl writeField #[]

end Plan

/-- The resource of a description. -/
def build (d : Description) (settings : BuildSettings) : Building Blob := do
  d.check
  let env := settings.environment d.variableNames
  let (states, code) ← placeStates env settings.maxByteCodeWords [] d.states
  let plan : Plan := ⟨d, states, code⟩
  Building.require (plan.size ≤ 0xffffffff) (.resourceTooLarge plan.size)
  Building.note (.built states.length d.vars.length code.length plan.bytes.size)
  return plan.bytes

/-- The resource of a document. -/
def buildDocument (text : String) (settings : BuildSettings) : Building Blob :=
  match Description.parse? text with
  | some d => build d settings
  | none => throw .unreadable

end Flipbook.Machine
