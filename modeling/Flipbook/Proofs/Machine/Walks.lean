import Flipbook.Proofs.Machine.Solo

/-!
# Proofs/Machine/Walks — entities walk along declared transitions

The changes of state of an entity form a walk in the graph that its machine declares, from the
initial state to the state that the entity is in (`lives_of_contains`).  The invariant behind it is
`Record.Waiting`: the target that waits for the end of an animation was declared by the state that
the record is still in.  `Record.Moves` says what one record does between two moments; events, ends
of animations, ticks and calls are such moves, and so is any row of them.
-/

namespace Flipbook.Machine

/-! ## The declared graph -/

namespace Resource

variable (m : Resource)

/-- Whether a state has a transition to another one. -/
def Declares (source target : StateId) : Prop :=
  ∃ state t, m.state? source = some state ∧ t ∈ state.transitions ∧ t.target = target

/-- Whether a state has a transition to another one that waits for the end of the animation. -/
def DeclaresAtEnd (source target : StateId) : Prop :=
  ∃ state t, m.state? source = some state ∧ t ∈ state.transitions ∧ t.target = target ∧
    t.mode = .waitUntilEnd

/-- Changes of state, one after the other, along declared transitions. -/
inductive Walk : StateId → List (StateId × StateId) → StateId → Prop
  | nil (state : StateId) : Walk state [] state
  | cons {source target last : StateId} {changes : List (StateId × StateId)} :
    m.Declares source target → Walk target changes last →
      Walk source ((source, target) :: changes) last

variable {m} {source target last : StateId} {xs ys : List (StateId × StateId)}

theorem DeclaresAtEnd.declares (h : m.DeclaresAtEnd source target) : m.Declares source target := by
  obtain ⟨state, t, hstate, ht, htarget, -⟩ := h
  exact ⟨state, t, hstate, ht, htarget⟩

theorem Walk.single (h : m.Declares source target) : m.Walk source [(source, target)] target :=
  .cons h (.nil target)

/-- Walks go on where others end. -/
theorem Walk.append (h : m.Walk source xs target) (h' : m.Walk target ys last) :
    m.Walk source (xs ++ ys) last := by
  induction h with
  | nil => exact h'
  | cons hdeclares _ ih => exact .cons hdeclares (ih h')

end Resource

/-- The change of state that an event tells of. -/
def Event.change? : Event → Option (StateId × StateId)
  | .stateChanged _ source target => some (source, target)
  | .evaluationFailed .. => none

/-- The changes of state of an entity among some events. -/
def changes (entity : EntityId) (events : List Event) : List (StateId × StateId) :=
  (about entity events).filterMap Event.change?

namespace Record

/-! ## Moves of one record -/

/-- Whether the target that waits was declared by the state of the record. -/
def Waiting (r : Record) : Prop :=
  ∀ target, r.pending = some target → r.resource.DeclaresAtEnd r.state target

/-- Whether a record becomes another one by changes of state along declared transitions, which
events tell of. -/
structure Moves (r : Record) (events : List Event) (r' : Record) : Prop where
  resource : r'.resource = r.resource
  walk : r.resource.Walk r.state (events.filterMap Event.change?) r'.state
  waiting : r'.Waiting

variable {r r' r'' : Record} {xs ys : List Event}

theorem Moves.refl (h : r.Waiting) : r.Moves [] r := ⟨rfl, .nil _, h⟩

theorem Moves.trans (h : r.Moves xs r') (h' : r'.Moves ys r'') : r.Moves (xs ++ ys) r'' where
  resource := h'.resource.trans h.resource
  walk := by
    rw [List.filterMap_append]
    exact h.walk.append (h.resource ▸ h'.walk)
  waiting := h'.waiting

/-- Failures are no changes of state. -/
theorem filterMap_change?_failures (h : ∀ event ∈ xs, r.IsFailure event) :
    xs.filterMap Event.change? = [] := by
  rw [List.filterMap_eq_nil_iff]
  intro event hevent
  obtain ⟨reason, rfl⟩ := h event hevent
  rfl

theorem Moves.of_failures (h : r.Moves ys r') (hxs : ∀ event ∈ xs, r.IsFailure event) :
    r.Moves (xs ++ ys) r' := by
  refine ⟨h.resource, ?_, h.waiting⟩
  rw [List.filterMap_append, filterMap_change?_failures hxs]
  exact h.walk

theorem waiting_start (entity : EntityId) (resource : Resource) :
    (start entity resource).Waiting := by
  intro target htarget
  cases htarget

/-- **An event moves the record along a transition that the state declares, or makes it wait for
one.** -/
theorem Waiting.fire (h : r.Waiting) (event : ShortHash) :
    r.Moves (r.fire event).2.1 (r.fire event).2.2 := by
  rcases r.fire_cases event with ⟨-, hfire⟩ | ⟨t, ht, hfire⟩
  · rw [hfire]
    exact .refl h
  obtain ⟨state, hstate, hfind⟩ := Option.bind_eq_some_iff.1 ht
  have hmem : t ∈ state.transitions := List.mem_of_find?_eq_some hfind
  rcases hfire with ⟨-, hfire⟩ | ⟨hmode, hfire⟩ <;> rw [hfire]
  · refine ⟨rfl, .single ⟨state, t, hstate, hmem, rfl⟩, ?_⟩
    intro target htarget
    cases htarget
  · refine ⟨rfl, .nil _, ?_⟩
    intro target htarget
    obtain rfl := Option.some.inj htarget
    exact ⟨state, t, hstate, hmem, rfl, hmode⟩

/-- **The end of an animation moves the record along the transition that waits**, which the state
declares. -/
theorem Waiting.finish (h : r.Waiting) (state : State) :
    r.Moves (r.finish state).1 (r.finish state).2 := by
  rcases r.finish_cases state with ⟨time, hfinish⟩ | ⟨target, htarget, hfinish⟩ |
    ⟨-, -, time, hfinish⟩ <;> rw [hfinish]
  · exact ⟨rfl, .nil _, h⟩
  · refine ⟨rfl, .single (h target htarget).declares, ?_⟩
    intro target htarget
    cases htarget
  · have hfire := h.fire animationEnd
    exact ⟨hfire.resource, hfire.walk, hfire.waiting⟩

/-- **A tick moves the record** as the end of its animation does. -/
theorem Waiting.step (h : r.Waiting) (dt : Single) (capacity : Nat) (source : SpriteSource) :
    r.Moves (r.step dt capacity source).2.1 (r.step dt capacity source).2.2 := by
  obtain ⟨failures, hfailures, hstep | ⟨state, animation, active, time, -, hstep⟩⟩ :=
    r.step_cases dt capacity source <;> rw [hstep]
  · simpa using (Moves.refl h).of_failures hfailures
  · have hshown : ({ r with animation, active, time } : Record).Waiting := h
    have hfinish := hshown.finish state
    exact Moves.of_failures ⟨hfinish.resource, hfinish.walk, hfinish.waiting⟩ hfailures

/-- Moves are all that can happen to a record whose waiting target was declared. -/
theorem evolution_moves : Evolution fun r events r' => r.Waiting → r.Moves events r' where
  refl _ := .refl
  trans _ _ _ _ _ h h' hwaiting := (h hwaiting).trans (h' (h hwaiting).waiting)
  fire _ event hwaiting := hwaiting.fire event
  write _ _ _ hwaiting := ⟨rfl, .nil _, hwaiting⟩
  step _ dt capacity source hwaiting := hwaiting.step dt capacity source

end Record

/-! ## Lives of entities -/

namespace Engine

/-- The life of an entity from the engine in which it was just created to a later one. -/
structure Lives (entity : EntityId) (resource : Resource) (created : Engine) (since : List Call)
    (e : Engine) : Prop where
  /-- The later engine is what calls made of the first one. -/
  reached : (created.run since).value = e
  /-- The entity was not created again. -/
  latest : ∀ c ∈ since, c.creates entity = false
  /-- What ticks have reported since then, and what waits for the next one, is what waited at first
  and what was raised since then; each event once and in order. -/
  reported : created.published since ++ e.backlog
    = created.backlog ++ raised (created.run since)
  /-- The changes of state lead from the initial state to the current one, along declared
  transitions. -/
  walk : ∃ state, e.state? entity = some state ∧
    resource.Walk resource.initialState (changes entity (raised (created.run since))) state
  /-- What waits for the end of the animation was declared so by the current state. -/
  waiting : ∀ target, e.pending? entity = some target →
    ∃ state, e.state? entity = some state ∧ resource.DeclaresAtEnd state target

/-- **Entities walk along the transitions that their machines declare**, from the latest call that
created them on. -/
theorem lives_of_contains {settings : EngineSettings} {cs : List Call} {entity : EntityId}
    (h : (after settings cs).contains entity) :
    ∃ before resource since, cs = before ++ .create entity resource :: since ∧
      Lives entity resource (after settings (before ++ [.create entity resource])) since
        (after settings cs) := by
  obtain ⟨r, hr⟩ := Option.isSome_iff_exists.1
    ((indexed_after settings cs).contains_eq entity ▸ h)
  obtain ⟨before, resource, since, rfl, hlatest, hmoves⟩ :=
    exists_created Record.evolution_moves hr
  have hmoves := hmoves (Record.waiting_start entity resource)
  refine ⟨before, resource, since, rfl, ?_⟩
  have hreached := after_append_create settings before entity resource since
  generalize after settings (before ++ [.create entity resource]) = created at *
  rw [hreached] at hr ⊢
  refine ⟨rfl, hlatest, published_append_backlog _ since, ⟨r.state, ?_, hmoves.walk⟩,
    fun target htarget => ⟨r.state, ?_, ?_⟩⟩
  · rw [state?, hr, Option.map_some]
  · rw [state?, hr, Option.map_some]
  · rw [pending?, hr, Option.bind_some] at htarget
    have hdeclared := hmoves.waiting target htarget
    rwa [hmoves.resource] at hdeclared

/-- A machine that opens at once and closes at the end of its animation. -/
def door : Resource where
  size := 120
  header := ⟨1, 24, 0, 112, 2, 112⟩
  initialState := ⟨0⟩
  states := [⟨24, 0, false, [⟨⟨1⟩, ⟨1⟩, .immediate⟩], [⟨⟨9⟩, 0⟩]⟩,
    ⟨68, 0, false, [⟨⟨2⟩, ⟨0⟩, .waitUntilEnd⟩], [⟨⟨9⟩, 0⟩]⟩]
  variableNames := []
  defaultValues := []
  byteCode := [.push ⟨0x3f800000⟩, .finish]

/-- A door that opens before a tick, and is told to close after it. -/
def doorCalls : List Call :=
  [.create ⟨7⟩ door, .trigger ⟨7⟩ ⟨1⟩, .update Single.zero {} fun _ => none, .trigger ⟨7⟩ ⟨2⟩]

theorem lives_of_contains_door : (after {} doorCalls).contains ⟨7⟩ ∧
    ∃ before resource since, doorCalls = before ++ .create ⟨7⟩ resource :: since ∧
      Lives ⟨7⟩ resource (after {} (before ++ [.create ⟨7⟩ resource])) since
        (after {} doorCalls) := by
  have hcontains : (after {} doorCalls).contains ⟨7⟩ := by
    have hafter := holds_after ⟨7⟩ {} doorCalls
    rw [hafter.indexed.contains_eq, hafter.record]
    decide +kernel
  exact ⟨hcontains, lives_of_contains hcontains⟩

end Engine

end Flipbook.Machine
