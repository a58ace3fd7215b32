import Flipbook.Expr.Run
import Flipbook.Machine.Outputs
import Flipbook.Machine.Resource
import Flipbook.Machine.Sprite

/-!
# Machine/Record — one entity and its machine

A `Record` holds where an entity stands in its machine.  `Record.fire` delivers an event, and
`Record.step` is one tick: weigh the animations of the state, show the heaviest, move its time on by
the speed, pick the frame, and act on the end of the animation.  A weight, speed or animation that
fails raises an event; without any animation to show the record stays as it is.
-/

namespace Flipbook.Machine

/-- Where sprites come from. -/
abbrev SpriteSource := LongHash → Option Sprite

/-- What an event did to a record. -/
inductive TriggerOutcome where
  /-- The state does not wait for the event. -/
  | ignored
  | switched (target : StateId)
  /-- The switch waits for the end of the animation. -/
  | deferred (target : StateId)
deriving DecidableEq, Repr

/-- An entity and the state of its machine. -/
structure Record where
  entity : EntityId
  resource : Resource
  state : StateId
  /-- The target of a transition that waits for the end of the animation. -/
  pending : Option StateId := none
  /-- The seconds into the animation. -/
  time : Single := Single.zero
  /-- The name of the animation that is shown. -/
  active : Option LongHash := none
  /-- The animation that is shown. -/
  animation : Sprite := Sprite.empty
  vars : List Single
deriving DecidableEq, Repr

namespace Record

/-- The record of an entity whose machine begins. -/
def start (entity : EntityId) (resource : Resource) : Record :=
  { entity, resource, state := resource.initialState, vars := resource.defaultValues }

/-! ## Events -/

/-- The record in another state, and the event that tells so. -/
def switch (r : Record) (target : StateId) : List Event × Record :=
  ([.stateChanged r.entity r.state target], { r with state := target })

/-- Delivers an event to the current state. -/
def fire (r : Record) (event : ShortHash) : TriggerOutcome × List Event × Record :=
  match (r.resource.state? r.state).bind (·.transition? event) with
  | none => (.ignored, [], r)
  | some t =>
    match t.mode with
    | .immediate => (.switched t.target, { r with pending := none }.switch t.target)
    | .waitUntilEnd => (.deferred t.target, [], { r with pending := some t.target })

/-! ## One tick -/

/-- The event that tells of a failure. -/
def failure (r : Record) (reason : String) : Event := .evaluationFailed r.entity reason

/-- The value of a program of the machine. -/
def evaluate (r : Record) (capacity : Nat) (place : Nat) : Except Expr.EvalError Single :=
  Expr.evaluate capacity r.vars (r.resource.program place)

/-- The weight of an animation, if it is finite; otherwise why there is none. -/
def weigh (r : Record) (capacity : Nat) (entry : AnimationEntry) : Except String Single :=
  match r.evaluate capacity entry.weight with
  | .ok weight =>
    if weight.isFinite then .ok weight
    else .error ("weight of animation " ++ entry.name.text ++ " evaluated to " ++ weight.text)
  | .error e => .error ("weight of animation " ++ entry.name.text ++ ": " ++ e.message)

/-- The heaviest of some weighed animations and a first choice; the earliest wins a tie. -/
def heaviest : Option (Single × LongHash) → List (LongHash × Except String Single) →
    Option (Single × LongHash)
  | best, [] => best
  | best, (_, .error _) :: rest => heaviest best rest
  | none, (name, .ok weight) :: rest => heaviest (some (weight, name)) rest
  | some (top, leader), (name, .ok weight) :: rest =>
    heaviest (if top.less weight then some (weight, name) else some (top, leader)) rest

/-- The failures among some weighed animations. -/
def weightFailures (r : Record) (weighed : List (LongHash × Except String Single)) : List Event :=
  weighed.filterMap fun
    | (_, .ok _) => none
    | (_, .error reason) => some (r.failure reason)

/-- The record showing an animation; one that is new begins at its start.  `none` if it is new and
there is no playable sprite of its name. -/
def display (r : Record) (source : SpriteSource) (name : LongHash) : Option Record :=
  if r.active = some name then some r
  else
    ((source name).filter Sprite.isPlayable).map fun sprite =>
      { r with animation := sprite, active := some name, time := Single.zero }

/-- The playback speed, and the failure if it has no finite value; then it is zero. -/
def speed (r : Record) (capacity : Nat) (state : State) : Single × List Event :=
  match r.evaluate capacity state.speed with
  | .ok speed =>
    if speed.isFinite then (speed, [])
    else (Single.zero, [r.failure ("speed evaluated to " ++ speed.text)])
  | .error e => (Single.zero, [r.failure ("speed: " ++ e.message)])

/-- The frame at the time of the record. -/
def frame? (r : Record) (state : State) : Option Nat :=
  if state.looping then r.animation.loopingFrameAt? r.time else r.animation.frameAt? r.time

/-- The time behind the end of a repeating animation, taken back to its last period. -/
def wrapTime (time total : Single) : Single :=
  let once := time - total
  if total.less once then once.remainder total else once

/-- Acts on the end of the animation: a waiting transition is taken, a looping state starts over,
and any other state hears of the end and stays there unless it switches. -/
def finish (r : Record) (state : State) : List Event × Record :=
  let total := r.animation.totalTime
  if total.less r.time then
    match r.pending with
    | some target =>
      let (events, r) := { r with pending := none }.switch target
      (events, { r with time := Single.zero })
    | none =>
      if state.looping then ([], { r with time := wrapTime r.time total })
      else
        match r.fire animationEnd with
        | (.switched _, events, r) => (events, { r with time := Single.zero })
        | (_, events, r) => (events, { r with time := total })
  else ([], r)

/-- One tick of `dt` seconds: the frame to show, the events raised, and the record after it. -/
def step (r : Record) (dt : Single) (capacity : Nat) (source : SpriteSource) :
    Option Nat × List Event × Record :=
  match r.resource.state? r.state with
  | none => (none, [], r)
  | some state =>
    let weighed := state.animations.map fun entry => (entry.name, r.weigh capacity entry)
    let failures := r.weightFailures weighed
    match heaviest none weighed with
    | none => (none, failures, r)
    | some (_, name) =>
      match r.display source name with
      | none =>
        let missing := r.failure ("animation " ++ name.text ++ " is missing or empty")
        (none, failures ++ [missing], r)
      | some shown =>
        let (speed, speedFailures) := shown.speed capacity state
        let moved := { shown with time := shown.time + dt * speed }
        let (endEvents, after) := moved.finish state
        (moved.frame? state, failures ++ speedFailures ++ endEvents, after)

end Record

end Flipbook.Machine
