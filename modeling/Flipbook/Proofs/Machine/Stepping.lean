import Flipbook.Machine.Record

/-!
# Proofs/Machine/Stepping — what can happen to one record

Three facts say all that an event, the end of an animation and a tick can do to a record:
`fire_cases`, `finish_cases` and `step_cases`.  A tick does two different things, and `moved?` tells
which.  What a record keeps and which entity its events are about follows from these facts.
-/

namespace Flipbook.Machine.Record

variable (r : Record)

/-- **An event is ignored, or switches the state at once, or leaves a target waiting.** -/
theorem fire_cases (event : ShortHash) :
    ((r.resource.state? r.state).bind (·.transition? event) = none ∧
        r.fire event = (.ignored, [], r)) ∨
      ∃ t, (r.resource.state? r.state).bind (·.transition? event) = some t ∧
        ((t.mode = .immediate ∧
            r.fire event = (.switched t.target, [.stateChanged r.entity r.state t.target],
              { r with pending := none, state := t.target })) ∨
          (t.mode = .waitUntilEnd ∧
            r.fire event = (.deferred t.target, [], { r with pending := some t.target }))) := by
  unfold fire
  split
  · rename_i hnone
    exact .inl ⟨hnone, rfl⟩
  · rename_i t ht
    refine .inr ⟨t, ht, ?_⟩
    split
    · rename_i hmode
      exact .inl ⟨hmode, rfl⟩
    · rename_i hmode
      exact .inr ⟨hmode, rfl⟩

/-- **The end of an animation changes the time at most, or takes the waiting transition, or is told
to the state.** -/
theorem finish_cases (state : State) :
    (∃ time, r.finish state = ([], { r with time })) ∨
      (∃ target, r.pending = some target ∧
        r.finish state = ([.stateChanged r.entity r.state target],
          { r with pending := none, state := target, time := Single.zero })) ∨
      (r.pending = none ∧ state.looping = false ∧ ∃ time,
        r.finish state = ((r.fire animationEnd).2.1, { (r.fire animationEnd).2.2 with time })) := by
  unfold finish
  dsimp only
  split
  · split
    · rename_i target htarget
      exact .inr (.inl ⟨target, htarget, rfl⟩)
    · rename_i hnone
      split
      · exact .inl ⟨_, rfl⟩
      · rename_i hlooping
        refine .inr (.inr ⟨hnone, by simpa using hlooping, ?_⟩)
        split
        · rename_i heq
          exact ⟨_, by rw [heq]⟩
        · rename_i heq
          exact ⟨_, by rw [heq]⟩
  · exact .inl ⟨r.time, rfl⟩

/-- Whether an event tells of a failure of the entity. -/
def IsFailure (event : Event) : Prop := ∃ reason, event = r.failure reason

variable {r} in
theorem isFailure_of_mem_weightFailures {weighed : List (LongHash × Except String Single)}
    {event : Event} (h : event ∈ r.weightFailures weighed) : r.IsFailure event := by
  obtain ⟨⟨name, _ | _⟩, -, hevent⟩ := List.mem_filterMap.1 h
  · exact ⟨_, (Option.some.inj hevent).symm⟩
  · cases hevent

/-- Failures of the speed are about the entity. -/
theorem isFailure_of_mem_speed {capacity : Nat} {state : State} {event : Event}
    (h : event ∈ (r.speed capacity state).2) : r.IsFailure event := by
  unfold speed at h
  split at h
  · split at h
    · cases h
    · exact ⟨_, List.mem_singleton.1 h⟩
  · exact ⟨_, List.mem_singleton.1 h⟩

/-- A record that shows an animation differs in what it shows and in the time. -/
theorem display_eq_some {source : SpriteSource} {name : LongHash} {shown : Record}
    (h : r.display source name = some shown) :
    ∃ animation time, shown = { r with animation, active := some name, time } := by
  unfold display at h
  split at h
  · rename_i hactive
    obtain rfl := Option.some.inj h
    exact ⟨r.animation, r.time, by rw [← hactive]⟩
  · obtain ⟨sprite, -, rfl⟩ := Option.map_eq_some_iff.1 h
    exact ⟨sprite, _, rfl⟩

/-- The record with its animation shown and its time moved on, as a tick has it when it looks for
the end of the animation; `none` if there is nothing to show. -/
def moved? (dt : Single) (capacity : Nat) (source : SpriteSource) : Option Record := do
  let state ← r.resource.state? r.state
  let (_, name) ← heaviest none
    (state.animations.map fun entry => (entry.name, r.weigh capacity entry))
  let shown ← r.display source name
  return { shown with time := shown.time + dt * (shown.speed capacity state).1 }

variable {r} in
theorem moved?_eq_some {dt : Single} {capacity : Nat} {source : SpriteSource} {m : Record}
    (h : r.moved? dt capacity source = some m) :
    ∃ animation active time, m = { r with animation, active, time } := by
  obtain ⟨state, -, h⟩ := Option.bind_eq_some_iff.1 h
  obtain ⟨⟨weight, name⟩, -, h⟩ := Option.bind_eq_some_iff.1 h
  obtain ⟨shown, hshown, h⟩ := Option.bind_eq_some_iff.1 h
  obtain ⟨animation, time, rfl⟩ := r.display_eq_some hshown
  obtain rfl := Option.some.inj h
  exact ⟨animation, some name, _, rfl⟩

/-- **A tick with nothing to show leaves the record as it is** and tells of failures. -/
theorem step_of_moved?_eq_none {dt : Single} {capacity : Nat} {source : SpriteSource}
    (h : r.moved? dt capacity source = none) : ∃ failures, (∀ event ∈ failures, r.IsFailure event) ∧
      r.step dt capacity source = (none, failures, r) := by
  unfold moved? at h
  unfold step
  split
  · exact ⟨[], by simp, rfl⟩
  · rename_i state hstate
    simp only [hstate, Option.bind_eq_bind, Option.bind_some] at h
    dsimp only
    split
    · exact ⟨_, fun _ => isFailure_of_mem_weightFailures, rfl⟩
    · rename_i name hbest
      rw [hbest, Option.bind_some] at h
      split
      · refine ⟨_, fun event hevent => ?_, rfl⟩
        rcases List.mem_append.1 hevent with hweight | hmissing
        · exact isFailure_of_mem_weightFailures hweight
        · exact ⟨_, List.mem_singleton.1 hmissing⟩
      · rename_i shown hshown
        rw [hshown] at h
        cases h

/-- **A tick with an animation to show acts on the end of the animation**, after failures. -/
theorem step_of_moved?_eq_some {dt : Single} {capacity : Nat} {source : SpriteSource} {m : Record}
    (h : r.moved? dt capacity source = some m) :
    ∃ state failures, r.resource.state? r.state = some state ∧
      (∀ event ∈ failures, r.IsFailure event) ∧ r.step dt capacity source
        = (m.frame? state, failures ++ (m.finish state).1, (m.finish state).2) := by
  obtain ⟨state, hstate, h⟩ := Option.bind_eq_some_iff.1 h
  obtain ⟨⟨weight, name⟩, hbest, h⟩ := Option.bind_eq_some_iff.1 h
  obtain ⟨shown, hshown, h⟩ := Option.bind_eq_some_iff.1 h
  obtain rfl := Option.some.inj h
  refine ⟨state, r.weightFailures (state.animations.map fun entry =>
    (entry.name, r.weigh capacity entry)) ++ (shown.speed capacity state).2, hstate,
    fun event hevent => ?_, ?_⟩
  · rcases List.mem_append.1 hevent with hweight | hspeed
    · exact isFailure_of_mem_weightFailures hweight
    · obtain ⟨animation, time, rfl⟩ := r.display_eq_some hshown
      exact isFailure_of_mem_speed _ hspeed
  · unfold step
    simp only [hstate, hbest, hshown]

/-- **A tick leaves the record as it is and tells of failures, or moves the time on and acts on the
end of the animation.** -/
theorem step_cases (dt : Single) (capacity : Nat) (source : SpriteSource) :
    ∃ failures, (∀ event ∈ failures, r.IsFailure event) ∧
      (r.step dt capacity source = (none, failures, r) ∨
        ∃ state animation active time, r.resource.state? r.state = some state ∧
          r.step dt capacity source =
            (({ r with animation, active, time } : Record).frame? state,
              failures ++ (({ r with animation, active, time } : Record).finish state).1,
              (({ r with animation, active, time } : Record).finish state).2)) := by
  cases hmoved : r.moved? dt capacity source with
  | none =>
    obtain ⟨failures, hfailures, hstep⟩ := r.step_of_moved?_eq_none hmoved
    exact ⟨failures, hfailures, .inl hstep⟩
  | some m =>
    obtain ⟨state, failures, hstate, hfailures, hstep⟩ := r.step_of_moved?_eq_some hmoved
    obtain ⟨animation, active, time, rfl⟩ := moved?_eq_some hmoved
    exact ⟨failures, hfailures, .inr ⟨state, animation, active, time, hstate, hstep⟩⟩

/-! ## What a record keeps -/

/-- Whether a record is of the same entity and machine as another one, with the same values of the
variables. -/
structure SameMachine (r' : Record) : Prop where
  entity : r'.entity = r.entity
  resource : r'.resource = r.resource
  vars : r'.vars = r.vars

/-- An event changes neither the machine nor its variables. -/
theorem sameMachine_fire (event : ShortHash) : r.SameMachine (r.fire event).2.2 := by
  rcases r.fire_cases event with ⟨-, h⟩ | ⟨t, -, ⟨-, h⟩ | ⟨-, h⟩⟩ <;> rw [h] <;>
    exact ⟨rfl, rfl, rfl⟩

theorem sameMachine_finish (state : State) : r.SameMachine (r.finish state).2 := by
  rcases r.finish_cases state with ⟨time, h⟩ | ⟨target, -, h⟩ | ⟨-, -, time, h⟩ <;> rw [h]
  · exact ⟨rfl, rfl, rfl⟩
  · exact ⟨rfl, rfl, rfl⟩
  · have hfire := r.sameMachine_fire animationEnd
    exact ⟨hfire.entity, hfire.resource, hfire.vars⟩

/-- A tick changes neither the machine nor its variables. -/
theorem sameMachine_step (dt : Single) (capacity : Nat) (source : SpriteSource) :
    r.SameMachine (r.step dt capacity source).2.2 := by
  obtain ⟨failures, -, h | ⟨state, animation, active, time, -, h⟩⟩ :=
    r.step_cases dt capacity source
  · rw [h]
    exact ⟨rfl, rfl, rfl⟩
  · rw [h]
    have hfinish := ({ r with animation, active, time } : Record).sameMachine_finish state
    exact ⟨hfinish.entity, hfinish.resource, hfinish.vars⟩

/-- The events of a record are about its entity. -/
theorem entity_of_mem_fire {event : ShortHash} {raised : Event} (h : raised ∈ (r.fire event).2.1) :
    raised.entity = r.entity := by
  rcases r.fire_cases event with ⟨-, hfire⟩ | ⟨t, -, ⟨-, hfire⟩ | ⟨-, hfire⟩⟩ <;> rw [hfire] at h
  · cases h
  · rw [List.mem_singleton.1 h]
    rfl
  · cases h

theorem entity_of_mem_finish {state : State} {raised : Event} (h : raised ∈ (r.finish state).1) :
    raised.entity = r.entity := by
  rcases r.finish_cases state with
      ⟨time, hfinish⟩ | ⟨target, -, hfinish⟩ | ⟨-, -, time, hfinish⟩ <;>
    rw [hfinish] at h
  · cases h
  · rw [List.mem_singleton.1 h]
    rfl
  · exact r.entity_of_mem_fire h

theorem entity_of_mem_step {dt : Single} {capacity : Nat} {source : SpriteSource} {raised : Event}
    (h : raised ∈ (r.step dt capacity source).2.1) : raised.entity = r.entity := by
  obtain ⟨failures, hfailures, hstep | ⟨state, animation, active, time, -, hstep⟩⟩ :=
    r.step_cases dt capacity source
  · rw [hstep] at h
    obtain ⟨reason, rfl⟩ := hfailures _ h
    rfl
  · rw [hstep] at h
    rcases List.mem_append.1 h with hfailure | hend
    · obtain ⟨reason, rfl⟩ := hfailures _ hfailure
      rfl
    · exact ({ r with animation, active, time } : Record).entity_of_mem_finish hend

end Flipbook.Machine.Record
