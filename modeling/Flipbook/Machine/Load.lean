import Flipbook.Machine.Verify

/-!
# Machine/Load — from bytes to a resource

`load` checks every place, count and program in the bytes of a resource, in a fixed order, and
refuses the bytes at the first thing that is wrong.  A loaded resource needs no further checks.
-/

namespace Flipbook.Machine

/-- The end of a region of `count` entries; fails where it lies outside the bytes. -/
def regionEnd (bytes : Blob) (region : Region) (start count stride : Nat) : Except LoadError Nat :=
  if start + count * stride ≤ bytes.size then .ok (start + count * stride)
  else .error (.outOfBounds region start)

/-- Fails with an error unless a condition holds. -/
def ensure (condition : Bool) (error : LoadError) : Except LoadError Unit :=
  if condition then .ok () else .error error

/-- A transition as it is stored: its target is still an offset. -/
structure StoredTransition where
  event : ShortHash
  targetOffset : Nat
  mode : Mode
deriving DecidableEq, Repr

/-- A state record as it is stored. -/
structure StoredState where
  offset : Nat
  speed : Nat
  looping : Bool
  transitions : List StoredTransition
  animations : List AnimationEntry
deriving DecidableEq, Repr

namespace Read

/-- The next word, as a natural number. -/
def nat : Read Nat := UInt32.toNat <$> word

/-- The next transition of the state record at `stateOffset`. -/
def transition (stateOffset : Nat) : Read StoredTransition := do
  let event ← word
  let targetOffset ← nat
  let number ← nat
  match Mode.ofNumber? number with
  | some mode => return ⟨⟨event⟩, targetOffset, mode⟩
  | none => throw (.unknownTransitionMode number stateOffset)

/-- The next animation entry. -/
def animation : Read AnimationEntry := do
  let name ← long
  let weight ← nat
  let _ ← word
  return ⟨⟨name⟩, weight⟩

/-- The next state record. -/
def state : Read StoredState := do
  let offset := (← get).position
  let speed ← nat
  let looping ← nat
  let transitionCount ← nat
  let transitions ← times transitionCount (transition offset)
  let animationCount ← nat
  if animationCount = 0 then throw (.emptyState offset)
  let animations ← times animationCount animation
  return ⟨offset, speed, looping ≠ 0, transitions, animations⟩

/-- State records up to the end of the bytes; each takes at least one byte, so `fuel` may be the
number of bytes. -/
def states : (fuel : Nat) → Read (List StoredState)
  | 0 => return []
  | fuel + 1 => do
    if (← get).remaining = 0 then return []
    let first ← state
    let rest ← states fuel
    return first :: rest

end Read

/-- The position of the state whose record is at an offset. -/
def resolve (stored : List StoredState) (referrer : Referrer) (offset : Nat) :
    Except LoadError StateId :=
  match stored.findIdx? fun s => s.offset = offset with
  | some i => .ok ⟨i⟩
  | none => .error (.notAState referrer offset)

/-- A transition with its target found. -/
def StoredTransition.resolve (stored : List StoredState) (t : StoredTransition) :
    Except LoadError Transition :=
  (Machine.resolve stored .transition t.targetOffset).map fun target => ⟨t.event, target, t.mode⟩

/-- A state with the targets of its transitions found. -/
def StoredState.resolve (stored : List StoredState) (s : StoredState) : Except LoadError State :=
  (s.transitions.mapM (StoredTransition.resolve stored)).map fun transitions =>
    ⟨s.offset, s.speed, s.looping, transitions, s.animations⟩

/-- The words of a block of byte code. -/
def decodeByteCode (raw : List UInt32) : Except LoadError (List Expr.Word) :=
  match Expr.Word.decodeBlock raw with
  | .ok words => .ok words
  | .error (index, e) => .error (.byteCode index e)

/-- Verifies the speed of every state, then the weight of every animation. -/
def Resource.verify (r : Resource) : Except LoadError Unit := do
  r.states.forM fun s => verifyProgram r.variableCount r.byteCode s.speed
  (r.states.flatMap State.animations).forM fun a =>
    verifyProgram r.variableCount r.byteCode a.weight

/-- The resource that some bytes hold. -/
def load (bytes : Blob) : Except LoadError Resource := do
  let header ← Read.header.result bytes 0
  ensure (header.version.toNat = Layout.version)
    (.unsupportedVersion header.version.toNat Layout.version)
  let variableCount := header.variableCount.toNat
  let variableStart := header.variableListOffset.toNat
  let variableEnd ← regionEnd bytes .variableList variableStart variableCount 8
  let codeStart := header.byteCodeOffset.toNat
  let codeSize := header.byteCodeSize.toNat
  let _ ← regionEnd bytes .byteCode codeStart codeSize 4
  ensure (Layout.headerSize ≤ variableStart) (.outOfBounds .variableList variableStart)
  ensure (variableEnd ≤ codeStart) (.outOfBounds .byteCode codeStart)
  let region := bytes.extract 0 variableStart
  let stored ← (Read.states region.size).result region Layout.headerSize
  ensure (!stored.isEmpty) .noStates
  let initialState ← resolve stored .initialState header.initialStateOffset.toNat
  let states ← stored.mapM (StoredState.resolve stored)
  let (names, defaults) ← Read.result (do
    let names ← Read.times variableCount Read.word
    let defaults ← Read.times variableCount Read.single
    return (names, defaults)) bytes variableStart
  let raw ← (Read.times codeSize Read.word).result bytes codeStart
  let byteCode ← decodeByteCode raw
  let resource : Resource :=
    { size := bytes.size, header, initialState, states, variableNames := names.map ShortHash.mk,
      defaultValues := defaults, byteCode }
  resource.verify
  return resource

end Flipbook.Machine
