import Flipbook.Proofs.Machine.Requests
import Flipbook.Proofs.Machine.SharedStack

/-!
# Proofs/Machine/Noninterference — entities do not interfere

Two engines may hold other entities in other places, and let them fail: what a tick does to an
entity depends on its record, on the events about it that wait, and on the requests about it
(`undisturbed`).  For the record and the events this is `Engine.Holds.call`, twice.  The frame of an
entity is the one that its record shows (`Engine.Holds.filter_shownFrames`), unless the tick reports
so many others that it drops it.
-/

namespace Flipbook.Machine

/-- The frame reported for an entity is told by the frame changes of the entity. -/
theorem Outputs.frameOf?_eq_of_filter {o o' : Outputs} {entity : EntityId}
    (h : o.frames.filter (·.entity = entity) = o'.frames.filter (·.entity = entity)) :
    o.frameOf? entity = o'.frameOf? entity := by
  rw [frameOf?, frameOf?, ← List.head?_filter, ← List.head?_filter, List.filter_reverse,
    List.filter_reverse, h]

namespace Engine

/-! ## What a tick tells of one entity -/

section Tick

variable (e : Engine) (dt : Single) (inputs : Inputs) (source : SpriteSource)

/-- The frame changes of a tick, those that are not reported included. -/
def shownFrames : List FrameChange :=
  (e.requested inputs).records.toList.filterMap fun r =>
    (r.step dt e.settings.stackCapacity source).1.map (FrameChange.mk r.entity)

/-- Whether a frame change of an entity is among those that a tick leaves out, since it reports no
more. -/
def Drops (entity : EntityId) : Prop :=
  ∃ c ∈ (e.shownFrames dt inputs source).drop e.settings.maxEventsPerTick, c.entity = entity

/-- A tick reports as many of its frame changes as it may. -/
theorem frames_update : (e.update dt inputs source).value.outputs.frames
    = (e.shownFrames dt inputs source).take e.settings.maxEventsPerTick := by
  have hframes : (e.update dt inputs source).value.outputs.frames
      = ((e.requested inputs).stepAll dt source).value.outputs.frames := rfl
  rw [hframes, shownFrames, ← e.settings_requested inputs]
  simp only [stepAll, List.filterMap_map]
  rfl

/-- A tick reports the events that waited and those that it raises. -/
theorem events_update : (e.update dt inputs source).value.outputs.events
    = e.backlog ++ raised (e.update dt inputs source) := by
  have hreported := e.reported_append_backlog (.update dt inputs source)
  have hnone : (e.update dt inputs source).value.backlog = [] := rfl
  rwa [call, hnone, List.append_nil] at hreported

variable {e dt inputs source} {entity : EntityId}

/-- Where no frame change of an entity is dropped, all of them are reported. -/
theorem filter_frames_update (h : ¬ e.Drops dt inputs source entity) :
    (e.update dt inputs source).value.outputs.frames.filter (·.entity = entity)
      = (e.shownFrames dt inputs source).filter (·.entity = entity) := by
  have hnone : ((e.shownFrames dt inputs source).drop e.settings.maxEventsPerTick).filter
      (·.entity = entity) = [] := by
    rw [List.filter_eq_nil_iff]
    exact fun c hc hentity => h ⟨c, hc, of_decide_eq_true hentity⟩
  have hsplit := congrArg (List.filter (·.entity = entity))
    (List.take_append_drop e.settings.maxEventsPerTick (e.shownFrames dt inputs source))
  rwa [List.filter_append, hnone, List.append_nil, ← frames_update] at hsplit

/-- **The frame changes of an entity are those of its record**, as the requests leave it. -/
theorem Holds.filter_shownFrames {capacity : Nat} {r? : Option Record}
    (h : Holds entity capacity e r?) : (e.shownFrames dt inputs source).filter (·.entity = entity)
      = (((inputs.about entity).calls.foldlM (Solo.request entity) r?).value.map fun r =>
        ((r.step dt capacity source).1.map (FrameChange.mk r.entity)).toList).getD [] := by
  have hrequested := h.requested inputs
  have hentity : ∀ r : Record, ∀ c ∈ ((r.step dt e.settings.stackCapacity source).1.map
      (FrameChange.mk r.entity)).toList, c.entity = r.entity := by
    intro r c hc
    obtain ⟨frame, -, rfl⟩ := Option.map_eq_some_iff.1 (Option.mem_toList.1 hc)
    rfl
  rw [shownFrames, List.filterMap_eq_flatMap_toList,
    filter_key_flatMap_of_nodup FrameChange.entity hentity hrequested.indexed.nodup,
    hrequested.find?_eq, Solo.foldlM_request_about, h.capacity]

end Tick

/-- What was reported about an entity and what still waits is what happened to the entity by
itself. -/
theorem about_published_append_backlog (entity : EntityId) (settings : EngineSettings)
    (cs : List Call) : about entity ((new settings).published cs)
      ++ about entity (after settings cs).backlog
        = (Solo.run entity settings.stackCapacity none cs).notices := by
  have hall := (new settings).published_append_backlog cs
  rw [← ((holds_new entity settings).run cs).events, ← about_append]
  exact congrArg (about entity) hall

/-- Before anything was reported, all that happened to an entity waits. -/
theorem about_backlog (entity : EntityId) {settings : EngineSettings} {cs : List Call}
    (h : (new settings).published cs = []) : about entity (after settings cs).backlog
      = (Solo.run entity settings.stackCapacity none cs).notices := by
  rw [← about_published_append_backlog, h]
  rfl

/-! ## Ticks of two engines -/

/-- Whether an entity cannot tell a tick of one engine from a tick of another one. -/
structure Undisturbed (entity : EntityId) (e e' : Engine) (dt : Single) (inputs inputs' : Inputs)
    (source : SpriteSource) : Prop where
  /-- The entity has no record in either engine, or the same one. -/
  record : (e.update dt inputs source).value.record? entity
    = (e'.update dt inputs' source).value.record? entity
  /-- The same events about the entity are reported, in the same order. -/
  events : about entity (e.update dt inputs source).value.outputs.events
    = about entity (e'.update dt inputs' source).value.outputs.events
  /-- The same frame is reported for the entity, if any, unless an engine drops it. -/
  frame : ¬ e.Drops dt inputs source entity → ¬ e'.Drops dt inputs' source entity →
    (e.update dt inputs source).value.outputs.frameOf? entity
      = (e'.update dt inputs' source).value.outputs.frameOf? entity

/-- **Entities do not interfere**: what becomes of an entity in a tick depends on its record, on
what waits about it and on the requests about it.  The ticks may do their evaluations on stacks that
were used for all calls before them. -/
theorem undisturbed {settings settings' : EngineSettings} {cs cs' : List Call} {entity : EntityId}
    {r : Record} {inputs inputs' : Inputs}
    (hcapacity : settings.stackCapacity = settings'.stackCapacity)
    (hr : (after settings cs).record? entity = some r)
    (hr' : (after settings' cs').record? entity = some r)
    (hbacklog : about entity (after settings cs).backlog
      = about entity (after settings' cs').backlog)
    (hinputs : inputs.about entity = inputs'.about entity) (dt : Single) (source : SpriteSource) :
    Undisturbed entity (after settings cs) (after settings' cs') dt inputs inputs' source ∧
      OnStack.Yields settings.stackCapacity
        ((new settings).runOn (cs ++ [.update dt inputs source]))
        ((after settings cs).update dt inputs source).value ∧
      OnStack.Yields settings'.stackCapacity
        ((new settings').runOn (cs' ++ [.update dt inputs' source]))
        ((after settings' cs').update dt inputs' source).value := by
  have h := holds_after entity settings cs
  have h' := holds_after entity settings' cs'
  rw [← h.record, hr] at h
  rw [← h'.record, hr', ← hcapacity] at h'
  have hsees := h.call (.update dt inputs source)
  have hsees' := h'.call (.update dt inputs' source)
  rw [Solo.call_update_congr hinputs] at hsees
  have hraised := hsees.events.trans hsees'.events.symm
  refine ⟨⟨hsees.holds.record.trans hsees'.holds.record.symm, ?_, fun hd hd' => ?_⟩, ?_, ?_⟩
  · rw [events_update, events_update, about_append, about_append, hbacklog]
    exact congrArg _ hraised
  · refine Outputs.frameOf?_eq_of_filter ?_
    rw [filter_frames_update hd, filter_frames_update hd', h.filter_shownFrames,
      h'.filter_shownFrames, hinputs]
  · have hrun := (new settings).yields_runOn (cs ++ [.update dt inputs source])
    rwa [run_append] at hrun
  · have hrun := (new settings').yields_runOn (cs' ++ [.update dt inputs' source])
    rwa [run_append] at hrun

/-- A door whose weights and speeds need room for two values. -/
def heavyDoor : Resource :=
  { door with byteCode := [.push ⟨0x3f800000⟩, .push ⟨0x3f800000⟩, .call .add, .finish] }

/-- A door that opens alone. -/
def loneDoorCalls : List Call := [.create ⟨7⟩ door, .trigger ⟨7⟩ ⟨1⟩]

/-- The door that opens behind two others. -/
def thirdDoorCalls : List Call :=
  [.create ⟨8⟩ door, .create ⟨6⟩ heavyDoor, .create ⟨7⟩ door, .trigger ⟨8⟩ ⟨1⟩, .trigger ⟨7⟩ ⟨1⟩]

/-- A request to close the door. -/
def loneDoorInputs : Inputs := { triggers := [⟨⟨7⟩, ⟨2⟩⟩] }

/-- The same request among others, by which the door moves to the front. -/
def thirdDoorInputs : Inputs where
  destroyed := [⟨8⟩, ⟨9⟩]
  writes := [⟨⟨6⟩, ⟨0⟩, Single.zero⟩]
  triggers := [⟨⟨6⟩, ⟨1⟩⟩, ⟨⟨7⟩, ⟨2⟩⟩]

theorem undisturbed_door :
    (after { stackCapacity := 1 } loneDoorCalls).record? ⟨7⟩
        = some { Record.start ⟨7⟩ door with state := ⟨1⟩ } ∧
      (after { stackCapacity := 1, maxEventsPerTick := 1 } thirdDoorCalls).record? ⟨7⟩
        = some { Record.start ⟨7⟩ door with state := ⟨1⟩ } ∧
      about ⟨7⟩ (after { stackCapacity := 1 } loneDoorCalls).backlog
        = about ⟨7⟩ (after { stackCapacity := 1, maxEventsPerTick := 1 } thirdDoorCalls).backlog ∧
      loneDoorInputs.about ⟨7⟩ = thirdDoorInputs.about ⟨7⟩ ∧
      Undisturbed ⟨7⟩ (after { stackCapacity := 1 } loneDoorCalls)
        (after { stackCapacity := 1, maxEventsPerTick := 1 } thirdDoorCalls) Single.one
        loneDoorInputs thirdDoorInputs fun _ => some ⟨[4, 5], Single.one⟩ := by
  have hr : (after { stackCapacity := 1 } loneDoorCalls).record? ⟨7⟩
      = some { Record.start ⟨7⟩ door with state := ⟨1⟩ } := by
    rw [(holds_after ⟨7⟩ _ _).record]
    decide +kernel
  have hr' : (after { stackCapacity := 1, maxEventsPerTick := 1 } thirdDoorCalls).record? ⟨7⟩
      = some { Record.start ⟨7⟩ door with state := ⟨1⟩ } := by
    rw [(holds_after ⟨7⟩ _ _).record]
    decide +kernel
  have hbacklog : about ⟨7⟩ (after { stackCapacity := 1 } loneDoorCalls).backlog
      = about ⟨7⟩ (after { stackCapacity := 1, maxEventsPerTick := 1 } thirdDoorCalls).backlog := by
    rw [about_backlog ⟨7⟩ rfl, about_backlog ⟨7⟩ rfl]
    decide +kernel
  have hinputs : loneDoorInputs.about ⟨7⟩ = thirdDoorInputs.about ⟨7⟩ := by decide
  have hcapacity : ({ stackCapacity := 1 } : EngineSettings).stackCapacity
      = ({ stackCapacity := 1, maxEventsPerTick := 1 } : EngineSettings).stackCapacity := rfl
  exact ⟨hr, hr', hbacklog, hinputs, (undisturbed hcapacity hr hr' hbacklog hinputs _ _).1⟩

end Engine

end Flipbook.Machine
