import Flipbook.Proofs.Machine.Evaluations

/-!
# Proofs/Machine/SharedStack — one stack for all evaluations

The records of an engine need no stacks of their own: `Engine.updateOn` is a tick that does all
evaluations of all records on one stack, each on what the evaluation before it left there.  Since an
evaluation clears the stack first and never changes its room, what comes out depends on the room
alone (`OnStack.Yields`), and the tick is the one that gives every evaluation a fresh stack
(`Engine.yields_updateOn`, `Engine.yields_runOn`).
-/

namespace Flipbook

open Flipbook.Expr (Stack Word EvalError)

/-! ## The room of a stack -/

namespace Expr.Stack

variable (vars : List Single) (s : Stack)

theorem capacity_pushValue (value : Single) : (s.pushValue value).2.capacity = s.capacity := by
  by_cases hroom : s.size < s.capacity <;> simp [pushValue, push, hroom]

/-- No word changes how many values a stack may hold. -/
theorem capacity_step (w : Word) : (s.step vars w).2.capacity = s.capacity := by
  cases w with
  | push value => exact s.capacity_pushValue value
  | load index =>
    cases hvar : vars[index]? with
    | none => simp [step, hvar]
    | some value => simpa [step, hvar] using s.capacity_pushValue value
  | call op => by_cases hargs : s.size < op.arity <;> simp [step, execute, clear, hargs]
  | finish => rfl

theorem capacity_run (ws : List Word) : (s.run vars ws).2.capacity = s.capacity := by
  induction ws generalizing s with
  | nil => rfl
  | cons w ws ih =>
    by_cases hw : w = .finish
    · rw [hw]
      rfl
    · have hstep := s.capacity_step vars w
      rw [run_cons vars hw]
      generalize s.step vars w = outcome at hstep
      obtain ⟨_ | _, s'⟩ := outcome
      · exact hstep
      · exact (ih s').trans hstep

/-- **No evaluation changes how many values a stack may hold.** -/
theorem capacity_eval (ws : List Word) : (s.eval vars ws).2.capacity = s.capacity := by
  have hrun := s.clear.capacity_run vars ws
  rw [eval]
  generalize s.clear.run vars ws = outcome at hrun
  obtain ⟨_ | _, s'⟩ := outcome
  · exact hrun
  · dsimp only
    cases s'.top? <;> exact hrun

/-- **What an evaluation comes to depends on the room of the stack alone**: it is the same on a
fresh one. -/
theorem eval_fst (ws : List Word) : (s.eval vars ws).1 = Expr.evaluate s.capacity vars ws := rfl

end Expr.Stack

namespace Machine

/-- A computation that uses a stack, and leaves it as it happens to be. -/
abbrev OnStack (α : Type) := StateM Stack α

namespace OnStack

variable {α β : Type}

/-- Whether a computation comes to a value on every stack of a given room, and keeps the room as it
is. -/
def Yields (capacity : Nat) (x : OnStack α) (a : α) : Prop :=
  ∀ items, ∃ items', x ⟨capacity, items⟩ = (a, ⟨capacity, items'⟩)

namespace Yields

variable {capacity : Nat}

theorem pure (a : α) : Yields capacity (Pure.pure a) a := fun items => ⟨items, rfl⟩

theorem bind {x : OnStack α} {a : α} {g : α → OnStack β} {b : β} (hx : Yields capacity x a)
    (hg : Yields capacity (g a) b) : Yields capacity (x >>= g) b := by
  intro items
  obtain ⟨items', hx⟩ := hx items
  obtain ⟨items'', hg⟩ := hg items'
  refine ⟨items'', ?_⟩
  show g (x ⟨capacity, items⟩).1 (x ⟨capacity, items⟩).2 = _
  rw [hx, hg]

/-- Computations over a list come to what each of them comes to by itself. -/
theorem mapM {x : α → OnStack β} {f : α → β} (h : ∀ a, Yields capacity (x a) (f a))
    (as : List α) : Yields capacity (as.mapM x) (as.map f) := by
  induction as with
  | nil => exact pure []
  | cons a as ih =>
    rw [List.mapM_cons]
    exact (h a).bind (ih.bind (pure _))

end Yields

/-! ## Ticks on a stack -/

variable (r : Record)

/-- Evaluates a program of the machine. -/
def evaluate (place : Nat) : OnStack (Except EvalError Single) :=
  Stack.eval r.vars (r.resource.program place)

/-- The weight of an animation, if it is finite; otherwise why there is none. -/
def weigh (entry : AnimationEntry) : OnStack (Except String Single) := do
  match ← evaluate r entry.weight with
  | .ok weight =>
    if weight.isFinite then return .ok weight
    else
      return .error
        ("weight of animation " ++ entry.name.text ++ " evaluated to " ++ weight.text)
  | .error e => return .error ("weight of animation " ++ entry.name.text ++ ": " ++ e.message)

/-- The playback speed, and the failure if it has no finite value; then it is zero. -/
def speed (state : State) : OnStack (Single × List Event) := do
  match ← evaluate r state.speed with
  | .ok speed =>
    if speed.isFinite then return (speed, [])
    else return (Single.zero, [r.failure ("speed evaluated to " ++ speed.text)])
  | .error e => return (Single.zero, [r.failure ("speed: " ++ e.message)])

/-- One tick of `dt` seconds: the frame to show, the events raised, and the record after it. -/
def step (dt : Single) (source : SpriteSource) : OnStack (Option Nat × List Event × Record) := do
  match r.resource.state? r.state with
  | none => return (none, [], r)
  | some state =>
    let weighed ← state.animations.mapM fun entry => do return (entry.name, ← weigh r entry)
    let failures := r.weightFailures weighed
    match Record.heaviest none weighed with
    | none => return (none, failures, r)
    | some (_, name) =>
      match r.display source name with
      | none =>
        let missing := r.failure ("animation " ++ name.text ++ " is missing or empty")
        return (none, failures ++ [missing], r)
      | some shown =>
        let (speed, speedFailures) ← speed shown state
        let moved := { shown with time := shown.time + dt * speed }
        let (endEvents, after) := moved.finish state
        return (moved.frame? state, failures ++ speedFailures ++ endEvents, after)

/-! ### What ticks on a stack come to -/

variable (capacity : Nat)

theorem yields_evaluate (place : Nat) :
    Yields capacity (evaluate r place) (r.evaluate capacity place) := by
  intro items
  have hroom := (⟨capacity, items⟩ : Stack).capacity_eval r.vars (r.resource.program place)
  refine ⟨((⟨capacity, items⟩ : Stack).eval r.vars (r.resource.program place)).2.items, ?_⟩
  exact Prod.ext (Stack.eval_fst _ _ _) (Stack.mk.injEq .. ▸ ⟨hroom, rfl⟩)

theorem yields_weigh (entry : AnimationEntry) :
    Yields capacity (weigh r entry) (r.weigh capacity entry) := by
  refine (yields_evaluate r capacity entry.weight).bind ?_
  rw [Record.weigh]
  cases r.evaluate capacity entry.weight with
  | ok weight =>
    dsimp only
    split <;> exact .pure _
  | error e => exact .pure _

theorem yields_speed (state : State) :
    Yields capacity (speed r state) (r.speed capacity state) := by
  refine (yields_evaluate r capacity state.speed).bind ?_
  rw [Record.speed]
  cases r.evaluate capacity state.speed with
  | ok speed =>
    dsimp only
    split <;> exact .pure _
  | error e => exact .pure _

/-- **A tick on a stack is the tick whose evaluations have fresh ones.** -/
theorem yields_step (dt : Single) (source : SpriteSource) :
    Yields capacity (step r dt source) (r.step dt capacity source) := by
  rw [step, Record.step]
  cases r.resource.state? r.state with
  | none => exact .pure _
  | some state =>
    have hweighed : Yields capacity
        (state.animations.mapM fun entry => do return (entry.name, ← weigh r entry))
        (state.animations.map fun entry => (entry.name, r.weigh capacity entry)) :=
      .mapM (fun entry => (yields_weigh r capacity entry).bind (.pure (entry.name, _))) _
    refine hweighed.bind ?_
    dsimp only
    generalize state.animations.map (fun entry => (entry.name, r.weigh capacity entry)) = weighed
    cases Record.heaviest none weighed with
    | none => exact .pure _
    | some best =>
      dsimp only
      cases r.display source best.2 with
      | none => exact .pure _
      | some shown => exact (yields_speed shown capacity state).bind (.pure _)

end OnStack

namespace Engine

/-- One tick of `dt` seconds, with all evaluations on one stack: applies requests, then steps every
record. -/
def updateOn (e : Engine) (dt : Single) (inputs : Inputs) (source : SpriteSource) :
    OnStack Engine := do
  let e := e.requested inputs
  let steps ← e.records.toList.mapM fun r => do return (r, ← OnStack.step r dt source)
  let frames := steps.filterMap fun (r, frame, _) => frame.map (FrameChange.mk r.entity)
  let events := steps.flatMap fun (_, _, events, _) => events
  return { e with
    records := (steps.map fun (_, _, _, r) => r).toArray
    outputs := ⟨frames.take e.settings.maxEventsPerTick, e.backlog ++ events⟩
    backlog := [] }

/-- What an engine becomes by a call, with all evaluations on one stack. -/
def callOn (e : Engine) : Call → OnStack Engine
  | .update dt inputs source => e.updateOn dt inputs source
  | c => return (e.call c).value

/-- What an engine becomes by calls, one after the other, with all evaluations on one stack. -/
def runOn (e : Engine) (calls : List Call) : OnStack Engine := calls.foldlM callOn e

theorem settings_requested (e : Engine) (inputs : Inputs) :
    (e.requested inputs).settings = e.settings :=
  (Orderly.applyInputs_update e inputs).settings

/-- **An update on a stack is the update whose evaluations have fresh ones.** -/
theorem yields_updateOn (e : Engine) (dt : Single) (inputs : Inputs) (source : SpriteSource) :
    OnStack.Yields e.settings.stackCapacity (e.updateOn dt inputs source)
      (e.update dt inputs source).value := by
  have hsteps : OnStack.Yields (e.requested inputs).settings.stackCapacity
      ((e.requested inputs).records.toList.mapM fun r => do
        return (r, ← OnStack.step r dt source))
      ((e.requested inputs).records.toList.map fun r =>
        (r, r.step dt (e.requested inputs).settings.stackCapacity source)) :=
    .mapM (fun r => (OnStack.yields_step r _ dt source).bind (.pure (r, _))) _
  rw [← e.settings_requested inputs]
  exact hsteps.bind (.pure _)

theorem yields_callOn (e : Engine) (c : Call) :
    OnStack.Yields e.settings.stackCapacity (e.callOn c) (e.call c).value := by
  cases c with
  | update dt inputs source => exact e.yields_updateOn dt inputs source
  | _ => exact .pure _

/-- **Calls on one stack lead where they lead with fresh ones**, whatever the stack holds at
first. -/
theorem yields_runOn (e : Engine) (cs : List Call) :
    OnStack.Yields e.settings.stackCapacity (e.runOn cs) (e.run cs).value := by
  induction cs generalizing e with
  | nil => exact .pure e
  | cons c cs ih =>
    have hrest := ih (e.call c).value
    rw [settings_call] at hrest
    exact (e.yields_callOn c).bind hrest

end Engine

end Machine

end Flipbook
