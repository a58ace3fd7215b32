import Std.Data.HashMap
import Flipbook.Machine.Record
import Flipbook.Machine.Settings

/-!
# Machine/Engine — many entities, tick by tick

An `Engine` keeps one record for each entity in a table without gaps: destroying a record moves the
last one into its place.  An index gives the place of each entity.  Events raised between two ticks
wait in a backlog for the next one.
-/

namespace Flipbook.Machine

/-- Records of entities, and what the last tick reported. -/
structure Engine where
  settings : EngineSettings
  records : Array Record := #[]
  /-- The place of each entity in the table. -/
  index : Std.HashMap EntityId Nat := {}
  outputs : Outputs := {}
  /-- Events raised since the last tick. -/
  backlog : List Event := []

namespace Engine

/-- The engine without entities. -/
def new (settings : EngineSettings) : Engine := { settings }

/-! ## Looking up -/

/-- The number of entities. -/
def size (e : Engine) : Nat := e.records.size

/-- Whether an entity has a record. -/
def contains (e : Engine) (entity : EntityId) : Bool := e.index.contains entity

/-- The record of an entity. -/
def record? (e : Engine) (entity : EntityId) : Option Record :=
  (e.index[entity]?).bind (e.records[·]?)

/-- The record of an entity, or the error that there is none. -/
def record (e : Engine) (entity : EntityId) : Except RuntimeError Record :=
  match e.record? entity with
  | some r => .ok r
  | none => .error (.unknownEntity entity)

/-- The state that an entity is in. -/
def state? (e : Engine) (entity : EntityId) : Option StateId := (e.record? entity).map Record.state

/-- The state that an entity switches to at the end of its animation. -/
def pending? (e : Engine) (entity : EntityId) : Option StateId :=
  (e.record? entity).bind Record.pending

/-- The seconds that an entity is into its animation. -/
def elapsed? (e : Engine) (entity : EntityId) : Option Single :=
  (e.record? entity).map Record.time

/-- The engine with another record for an entity that has one. -/
def setRecord (e : Engine) (entity : EntityId) (r : Record) : Engine :=
  match e.index[entity]? with
  | some slot => { e with records := e.records.setIfInBounds slot r }
  | none => e

/-! ## Entities -/

/-- Gives an entity a machine in its initial state; a machine that it had is replaced. -/
def create (e : Engine) (entity : EntityId) (resource : Resource) : WithNotices Engine :=
  let r := Record.start entity resource
  if e.contains entity then ⟨e.setRecord entity r, [.replaced entity]⟩
  else
    ⟨{ e with index := e.index.insert entity e.records.size, records := e.records.push r },
      [.created entity]⟩

/-- The table without the record at a place, the last one in its stead. -/
def swapRemove (records : Array Record) (slot : Nat) : Array Record :=
  match records.back? with
  | some last => (records.setIfInBounds slot last).pop
  | none => records

/-- Takes the machine of an entity away; tells whether there was one. -/
def destroy (e : Engine) (entity : EntityId) : WithNotices (Bool × Engine) :=
  match e.index[entity]? with
  | none => ⟨(false, e), []⟩
  | some slot =>
    let records := swapRemove e.records slot
    let index := e.index.erase entity
    let index := match records[slot]? with
      | some moved => index.insert moved.entity slot
      | none => index
    ⟨(true, { e with records, index }), [.destroyed entity]⟩

/-! ## Events and variables -/

/-- Delivers an event to an entity. -/
def trigger (e : Engine) (entity : EntityId) (event : ShortHash) :
    WithNotices (Except RuntimeError TriggerOutcome × Engine) :=
  match e.record entity with
  | .error error => ⟨(.error error, e), []⟩
  | .ok r =>
    let (outcome, events, r) := r.fire event
    ⟨(.ok outcome, { e.setRecord entity r with backlog := e.backlog ++ events }),
      events.map Event.notice⟩

/-- The position of a variable of an entity. -/
def variableIndex (e : Engine) (entity : EntityId) (name : String) :
    Except RuntimeError VariableIndex := do
  let r ← e.record entity
  match r.resource.variableIndex? (ShortHash.ofName name) with
  | some index => return index
  | none => throw (.unknownVariable name)

/-- The value of a variable of an entity. -/
def getVariable (e : Engine) (entity : EntityId) (index : VariableIndex) :
    Except RuntimeError Single := do
  let r ← e.record entity
  match r.vars[index.index]? with
  | some value => return value
  | none => throw (.variableOutOfRange index.index r.vars.length)

/-- The engine with another value for a variable of an entity. -/
def setVariable (e : Engine) (entity : EntityId) (index : VariableIndex) (value : Single) :
    Except RuntimeError Engine := do
  let r ← e.record entity
  if index.index < r.vars.length then
    return e.setRecord entity { r with vars := r.vars.set index.index value }
  else throw (.variableOutOfRange index.index r.vars.length)

/-! ## Ticks -/

/-- Destroys an entity as asked for. -/
def applyDestroy (e : Engine) (entity : EntityId) : WithNotices Engine := do
  let (found, e) ← e.destroy entity
  unless found do Logged.note (.nothingToDestroy entity)
  return e

/-- Writes a variable as asked for. -/
def applyWrite (e : Engine) (w : VariableWrite) : WithNotices Engine :=
  match e.setVariable w.entity w.index w.value with
  | .ok e => pure e
  | .error error => ⟨e, [.writeSkipped error]⟩

/-- Raises an event as asked for. -/
def applyTrigger (e : Engine) (t : Trigger) : WithNotices Engine := do
  match ← e.trigger t.entity t.event with
  | (.ok _, e) => return e
  | (.error error, e) =>
    Logged.note (.triggerSkipped t.event error)
    return e

/-- Applies requests: entities to destroy, then writes, then events. -/
def applyInputs (e : Engine) (inputs : Inputs) : WithNotices Engine := do
  let e ← inputs.destroyed.foldlM applyDestroy e
  let e ← inputs.writes.foldlM applyWrite e
  inputs.triggers.foldlM applyTrigger e

/-- The notice of frames that a tick did not report. -/
def droppedNotice (limit count : Nat) : List Notice :=
  if limit < count then [.framesDropped limit (count - limit)] else []

/-- Steps every record: events join those of the backlog, and the first frames are reported. -/
def stepAll (e : Engine) (dt : Single) (source : SpriteSource) : WithNotices Engine :=
  let steps := e.records.toList.map fun r => (r, r.step dt e.settings.stackCapacity source)
  let frames := steps.filterMap fun (r, frame, _) => frame.map (FrameChange.mk r.entity)
  let events := steps.flatMap fun (_, _, events, _) => events
  let limit := e.settings.maxEventsPerTick
  ⟨{ e with
      records := (steps.map fun (_, _, _, r) => r).toArray
      outputs := ⟨frames.take limit, e.backlog ++ events⟩
      backlog := [] },
    events.map Event.notice ++ droppedNotice limit frames.length⟩

/-- One tick of `dt` seconds: applies requests, then steps every record. -/
def update (e : Engine) (dt : Single) (inputs : Inputs) (source : SpriteSource) :
    WithNotices Engine := do
  let e ← { e with outputs := {} }.applyInputs inputs
  e.stepAll dt source

/-- The reported frames, and the engine without them. -/
def drainFrames (e : Engine) : List FrameChange × Engine :=
  (e.outputs.frames, { e with outputs := { e.outputs with frames := [] } })

end Engine

end Flipbook.Machine
