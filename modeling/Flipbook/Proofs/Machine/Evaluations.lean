import Flipbook.Proofs.Expr.Execution
import Flipbook.Proofs.Machine.Loading
import Flipbook.Proofs.Machine.Walks

/-!
# Proofs/Machine/Evaluations — what ticks evaluate

A tick evaluates the weights of the animations of a state and, where there is one to show, the speed
of the state.  `Traced.step` is a tick that also tells which programs it evaluates, and is otherwise
the same (`Traced.value_step`), and so is `Engine.tracedUpdate`.  In an engine whose machines were
loaded every record stays in the bounds of its machine, and nothing but want of room stops an
evaluation (`neverFaults_after`).
-/

namespace Flipbook.Machine

open Flipbook.Expr (Word Stack)

/-! ## Loaded machines -/

/-- Whether a machine was loaded from some bytes. -/
def Resource.Loaded (m : Resource) : Prop := ∃ bytes, load bytes = .ok m

/-- Whether a machine starts and stays within its states and variables, and has programs that cannot
fail. -/
structure Resource.Playable (m : Resource) : Prop where
  defaults : m.defaultValues.length = m.variableCount
  initialState : m.initialState.index < m.stateCount
  targets : ∀ s ∈ m.states, ∀ t ∈ s.transitions, t.target.index < m.stateCount
  speeds : ∀ s ∈ m.states, SoundAt m.variableCount m.byteCode s.speed
  weights : ∀ s ∈ m.states, ∀ a ∈ s.animations, SoundAt m.variableCount m.byteCode a.weight

theorem Resource.lt_stateCount {m : Resource} {id : StateId} {offset : Nat}
    (h : m.stateOffset? id = some offset) : id.index < m.stateCount := by
  obtain ⟨s, hs, -⟩ := Option.map_eq_some_iff.1 h
  exact (List.getElem?_eq_some_iff.1 hs).1

/-- As many default values are read as names. -/
theorem LoadedFrom.length_defaultValues {bytes : Blob} {stored : List StoredState}
    {raw : List UInt32} {m : Resource} (h : LoadedFrom bytes stored raw m) :
    m.defaultValues.length = m.variableCount := by
  obtain ⟨c, hc⟩ := Read.result_eq_ok.1 h.vars
  obtain ⟨names, c₁, hnames, hc⟩ := Read.run_bind_eq_ok.1 hc
  obtain ⟨defaults, c₂, hdefaults, hc⟩ := Read.run_bind_eq_ok.1 hc
  obtain ⟨hpair, -⟩ := Read.run_pure_eq_ok.1 hc
  obtain ⟨hnames', rfl⟩ := Prod.mk.inj hpair
  have hcount : m.variableCount = names.length := by
    rw [Resource.variableCount, hnames', List.length_map]
  rw [hcount, (Read.run_times_eq_ok .word hnames).1, (Read.run_times_eq_ok .single hdefaults).1]

/-- **A loaded machine is playable.** -/
theorem Resource.Loaded.playable {m : Resource} (h : m.Loaded) : m.Playable := by
  obtain ⟨bytes, h⟩ := h
  obtain ⟨stored, raw, hloaded⟩ := load_eq_ok.1 h
  have hsound := hloaded.sound
  obtain ⟨_, hinitial, -⟩ := hsound.initialState
  refine ⟨hloaded.length_defaultValues, lt_stateCount hinitial, fun s hs t ht => ?_, hsound.speeds,
    hsound.weights⟩
  obtain ⟨i, hi⟩ := List.mem_iff_getElem?.1 ht
  obtain ⟨_, htarget, -⟩ := hsound.targets s hs i t hi
  exact lt_stateCount htarget

/-! ## Records in the bounds of their machines -/

namespace Record

/-- Whether a record has a value for every variable of its machine, and is in a state of it. -/
structure InBounds (r : Record) : Prop where
  vars : r.vars.length = r.resource.variableCount
  state : r.state.index < r.resource.stateCount
  pending : ∀ target, r.pending = some target → target.index < r.resource.stateCount

/-- Nothing that happens to a record changes its machine, or the number of values. -/
theorem evolution_machine :
    Evolution fun r _ r' => r'.resource = r.resource ∧ r'.vars.length = r.vars.length where
  refl _ := ⟨rfl, rfl⟩
  trans _ _ _ _ _ h h' := ⟨h'.1.trans h.1, h'.2.trans h.2⟩
  fire r event :=
    ⟨(r.sameMachine_fire event).resource, congrArg List.length (r.sameMachine_fire event).vars⟩
  write _ _ _ := ⟨rfl, List.length_set⟩
  step r dt capacity source :=
    have h := r.sameMachine_step dt capacity source
    ⟨h.resource, congrArg List.length h.vars⟩

end Record

namespace Resource

variable {m : Resource} {source target last : StateId} {changes : List (StateId × StateId)}

theorem Playable.declares (h : m.Playable) (ht : m.Declares source target) :
    target.index < m.stateCount := by
  obtain ⟨s, t, hs, hmem, rfl⟩ := ht
  exact h.targets s (List.mem_of_getElem? hs) t hmem

/-- A walk that begins in a state ends in a state. -/
theorem Playable.walk (h : m.Playable) (hw : m.Walk source changes last)
    (hsource : source.index < m.stateCount) : last.index < m.stateCount := by
  induction hw with
  | nil => exact hsource
  | cons hdeclares _ ih => exact ih (h.declares hdeclares)

end Resource

/-- **Records of playable machines stay in bounds.** -/
theorem Engine.inBounds_of_record? {settings : EngineSettings} {cs : List Call} {entity : EntityId}
    {r : Record} (hr : (after settings cs).record? entity = some r) (hm : r.resource.Playable) :
    r.InBounds := by
  obtain ⟨before, resource, since, -, -, hmoves, hmachine, hvars⟩ :=
    exists_created (Record.evolution_moves.and Record.evolution_machine) hr
  have hmoves := hmoves (Record.waiting_start entity resource)
  have hresource : r.resource = resource := hmachine
  subst hresource
  refine ⟨hvars.trans hm.defaults, hm.walk hmoves.walk hm.initialState, fun target htarget => ?_⟩
  exact hm.declares (hmoves.waiting target htarget).declares

/-! ## Evaluations -/

/-- A program that is evaluated. -/
structure Evaluation where
  /-- The room on the stack. -/
  capacity : Nat
  vars : List Single
  words : List Word

namespace Evaluation

/-- What becomes of the program. -/
def outcome (v : Evaluation) : Except Expr.EvalError Single :=
  Expr.evaluate v.capacity v.vars v.words

/-- Whether nothing but want of room can stop the program. -/
structure Safe (v : Evaluation) : Prop where
  /-- What the stack held before does not matter. -/
  anyStack : ∀ items, ((⟨v.capacity, items⟩ : Stack).eval v.vars v.words).1 = v.outcome
  /-- With room for its peak it has a value. -/
  ok_of_peak_le : Word.peak 0 v.words ≤ v.capacity → ∃ value, v.outcome = .ok value
  /-- With less it overflows. -/
  overflow_of_lt_peak : v.capacity < Word.peak 0 v.words →
    v.outcome = .error (.stack (.overflow v.capacity))

/-- **A program that was found sound is safe** wherever its variables exist. -/
theorem safe_of_soundFrom {v : Evaluation} {count : Nat} (h : SoundFrom count 0 v.words)
    (hvars : count ≤ v.vars.length) : v.Safe := by
  obtain ⟨capacity, vars, words⟩ := v
  obtain ⟨body, rest, rfl, hbody⟩ := h
  have hempty : SoundBody count ([] : List Single).length body := hbody
  obtain ⟨value, hvalue⟩ := exists_effects?_of_soundBody hempty hvars
  have heval := Stack.eval_of_leavesOne hbody.endless hvalue ⟨capacity, []⟩ rest
  refine ⟨fun _ => rfl, fun hpeak => ⟨value, ?_⟩, fun hpeak => ?_⟩ <;>
    rw [Word.peak_append_finish 0 hbody.endless] at hpeak
  · exact congrArg Prod.fst (heval.1 hpeak)
  · exact heval.2 hpeak

end Evaluation

/-! ## Ticks that tell what they evaluate -/

/-- A value, and the programs that were evaluated on the way to it. -/
abbrev Traced (α : Type) := Logged Evaluation α

namespace Traced

variable (r : Record) (capacity : Nat)

/-- The evaluation of a program of the machine. -/
def evaluation (place : Nat) : Evaluation := ⟨capacity, r.vars, r.resource.program place⟩

/-- The value of a program of the machine. -/
def evaluate (place : Nat) : Traced (Except Expr.EvalError Single) :=
  ⟨(evaluation r capacity place).outcome, [evaluation r capacity place]⟩

/-- The weight of an animation, if it is finite; otherwise why there is none. -/
def weigh (entry : AnimationEntry) : Traced (Except String Single) := do
  match ← evaluate r capacity entry.weight with
  | .ok weight =>
    if weight.isFinite then return .ok weight
    else
      return .error
        ("weight of animation " ++ entry.name.text ++ " evaluated to " ++ weight.text)
  | .error e => return .error ("weight of animation " ++ entry.name.text ++ ": " ++ e.message)

/-- The playback speed, and the failure if it has no finite value; then it is zero. -/
def speed (state : State) : Traced (Single × List Event) := do
  match ← evaluate r capacity state.speed with
  | .ok speed =>
    if speed.isFinite then return (speed, [])
    else return (Single.zero, [r.failure ("speed evaluated to " ++ speed.text)])
  | .error e => return (Single.zero, [r.failure ("speed: " ++ e.message)])

/-- The weights of the animations of a state. -/
def weighAll (state : State) : Traced (List (LongHash × Except String Single)) :=
  state.animations.mapM fun entry => do return (entry.name, ← weigh r capacity entry)

/-- The rest of a tick, once the animations are weighed: the heaviest one is shown and moves on. -/
def play (dt : Single) (source : SpriteSource) (state : State)
    (weighed : List (LongHash × Except String Single)) :
    Traced (Option Nat × List Event × Record) :=
  let failures := r.weightFailures weighed
  match Record.heaviest none weighed with
  | none => return (none, failures, r)
  | some (_, name) =>
    match r.display source name with
    | none =>
      let missing := r.failure ("animation " ++ name.text ++ " is missing or empty")
      return (none, failures ++ [missing], r)
    | some shown => do
      let (speed, speedFailures) ← speed shown capacity state
      let moved := { shown with time := shown.time + dt * speed }
      let (endEvents, after) := moved.finish state
      return (moved.frame? state, failures ++ speedFailures ++ endEvents, after)

/-- One tick of `dt` seconds: the frame to show, the events raised, and the record after it. -/
def step (dt : Single) (source : SpriteSource) : Traced (Option Nat × List Event × Record) :=
  match r.resource.state? r.state with
  | none => return (none, [], r)
  | some state => do play r capacity dt source state (← weighAll r capacity state)

/-! ### What comes out -/

theorem value_evaluate (place : Nat) :
    (evaluate r capacity place).value = r.evaluate capacity place := rfl

theorem value_weigh (entry : AnimationEntry) :
    (weigh r capacity entry).value = r.weigh capacity entry := by
  rw [weigh, Record.weigh, Logged.value_bind, value_evaluate]
  cases r.evaluate capacity entry.weight with
  | ok weight =>
    dsimp only
    split <;> rfl
  | error e => rfl

theorem value_speed (state : State) :
    (speed r capacity state).value = r.speed capacity state := by
  rw [speed, Record.speed, Logged.value_bind, value_evaluate]
  cases r.evaluate capacity state.speed with
  | ok speed =>
    dsimp only
    split <;> rfl
  | error e => rfl

theorem value_weighAll (state : State) : (weighAll r capacity state).value
    = state.animations.map fun entry => (entry.name, r.weigh capacity entry) := by
  rw [weighAll, Logged.value_mapM]
  simp only [Logged.value_bind, Logged.value_pure, value_weigh]

/-- **A tick that tells what it evaluates is otherwise a tick.** -/
theorem value_step (dt : Single) (source : SpriteSource) :
    (step r capacity dt source).value = r.step dt capacity source := by
  rw [step, Record.step]
  cases r.resource.state? r.state with
  | none => rfl
  | some state =>
    dsimp only
    rw [Logged.value_bind, value_weighAll, play]
    generalize state.animations.map (fun entry => (entry.name, r.weigh capacity entry)) = weighed
    cases Record.heaviest none weighed with
    | none => rfl
    | some best =>
      dsimp only
      cases r.display source best.2 with
      | none => rfl
      | some shown =>
        dsimp only
        rw [Logged.value_bind, value_speed]
        rfl

/-! ### What is evaluated -/

theorem notices_weigh (entry : AnimationEntry) :
    (weigh r capacity entry).notices = [evaluation r capacity entry.weight] := by
  rw [weigh, Logged.notices_bind, value_evaluate]
  cases r.evaluate capacity entry.weight with
  | ok weight =>
    dsimp only
    split <;> rfl
  | error e => rfl

theorem notices_weighAll (state : State) : (weighAll r capacity state).notices
    = state.animations.map fun entry => evaluation r capacity entry.weight := by
  rw [weighAll, Logged.notices_mapM]
  simp only [Logged.notices_bind, Logged.notices_pure, notices_weigh, List.append_nil]
  exact List.map_eq_flatMap.symm

theorem notices_speed (state : State) :
    (speed r capacity state).notices = [evaluation r capacity state.speed] := by
  rw [speed, Logged.notices_bind, value_evaluate]
  cases r.evaluate capacity state.speed with
  | ok speed =>
    dsimp only
    split <;> rfl
  | error e => rfl

variable {r capacity}

theorem mem_notices_play {dt : Single} {source : SpriteSource} {state : State}
    {weighed : List (LongHash × Except String Single)} {v : Evaluation}
    (h : v ∈ (play r capacity dt source state weighed).notices) :
    v = evaluation r capacity state.speed := by
  unfold play at h
  dsimp only at h
  split at h
  · cases h
  · split at h
    · cases h
    · rename_i shown hshown
      obtain ⟨animation, time, rfl⟩ := r.display_eq_some hshown
      simp only [Logged.notices_bind, Logged.notices_pure, notices_speed, List.append_nil] at h
      exact List.mem_singleton.1 h

/-- **A tick evaluates weights of animations of the state and the speed of the state**, and nothing
else. -/
theorem mem_notices_step {dt : Single} {source : SpriteSource} {v : Evaluation}
    (h : v ∈ (step r capacity dt source).notices) :
    ∃ state, r.resource.state? r.state = some state ∧
      (v = evaluation r capacity state.speed ∨
        ∃ entry ∈ state.animations, v = evaluation r capacity entry.weight) := by
  unfold step at h
  split at h
  · cases h
  · rename_i state hstate
    refine ⟨state, hstate, ?_⟩
    rcases List.mem_append.1 h with hweight | hspeed
    · rw [notices_weighAll] at hweight
      obtain ⟨entry, hentry, rfl⟩ := List.mem_map.1 hweight
      exact .inr ⟨entry, hentry, rfl⟩
    · exact .inl (mem_notices_play hspeed)

/-- **A tick of a record in bounds evaluates safe programs.** -/
theorem safe_of_mem_notices_step {dt : Single} {source : SpriteSource} {v : Evaluation}
    (hm : r.resource.Playable) (hr : r.InBounds)
    (h : v ∈ (step r capacity dt source).notices) : v.capacity = capacity ∧ v.Safe := by
  obtain ⟨state, hstate, rfl | ⟨entry, hentry, rfl⟩⟩ := mem_notices_step h <;>
    have hmem := List.mem_of_getElem? hstate
  · exact ⟨rfl, Evaluation.safe_of_soundFrom (hm.speeds state hmem).2 hr.vars.ge⟩
  · exact ⟨rfl, Evaluation.safe_of_soundFrom (hm.weights state hmem entry hentry).2 hr.vars.ge⟩

end Traced

namespace Engine

/-- The engine with requests applied, as a tick finds it. -/
def requested (e : Engine) (inputs : Inputs) : Engine :=
  ({ e with outputs := {} }.applyInputs inputs).value

/-- One tick of `dt` seconds, with the programs that it evaluates: applies requests, then steps
every record. -/
def tracedUpdate (e : Engine) (dt : Single) (inputs : Inputs) (source : SpriteSource) :
    Traced Engine := do
  let e := e.requested inputs
  let steps ← e.records.toList.mapM fun r => do
    return (r, ← Traced.step r e.settings.stackCapacity dt source)
  let frames := steps.filterMap fun (r, frame, _) => frame.map (FrameChange.mk r.entity)
  let events := steps.flatMap fun (_, _, events, _) => events
  return { e with
    records := (steps.map fun (_, _, _, r) => r).toArray
    outputs := ⟨frames.take e.settings.maxEventsPerTick, e.backlog ++ events⟩
    backlog := [] }

/-- **An update that tells what it evaluates is otherwise an update.** -/
theorem value_tracedUpdate (e : Engine) (dt : Single) (inputs : Inputs) (source : SpriteSource) :
    (e.tracedUpdate dt inputs source).value = (e.update dt inputs source).value := by
  have hsteps : ((e.requested inputs).records.toList.mapM fun r => do
        return (r, ← Traced.step r (e.requested inputs).settings.stackCapacity dt source)).value
      = (e.requested inputs).records.toList.map fun r =>
        (r, r.step dt (e.requested inputs).settings.stackCapacity source) := by
    rw [Logged.value_mapM]
    simp [Traced.value_step]
  rw [tracedUpdate, Logged.value_bind, hsteps]
  rfl

/-- The programs that an update evaluates are those of the records that it steps. -/
theorem mem_notices_tracedUpdate {e : Engine} {dt : Single} {inputs : Inputs}
    {source : SpriteSource} {v : Evaluation} (h : v ∈ (e.tracedUpdate dt inputs source).notices) :
    ∃ r ∈ (e.requested inputs).records,
      v ∈ (Traced.step r (e.requested inputs).settings.stackCapacity dt source).notices := by
  rw [tracedUpdate, Logged.notices_bind, Logged.notices_mapM, Logged.notices_pure,
    List.append_nil] at h
  obtain ⟨r, hr, hv⟩ := List.mem_flatMap.1 h
  rw [Logged.notices_bind, Logged.notices_pure, List.append_nil] at hv
  exact ⟨r, Array.mem_toList_iff.1 hr, hv⟩

/-- Whether records are in the bounds of their machines, and ticks evaluate programs that nothing
but want of room can stop. -/
structure NeverFaults (e : Engine) : Prop where
  inBounds : ∀ r ∈ e.records, r.InBounds
  evaluations : ∀ dt inputs source, ∀ v ∈ (e.tracedUpdate dt inputs source).notices,
    v.capacity = e.settings.stackCapacity ∧ v.Safe

variable {settings : EngineSettings} {cs : List Call} {entity : EntityId} {r : Record}

theorem Holds.requested {capacity : Nat} {e : Engine} {r? : Option Record}
    (h : Holds entity capacity e r?) (inputs : Inputs) : Holds entity capacity (e.requested inputs)
      (inputs.calls.foldlM (Solo.request entity) r?).value :=
  have hcleared : Holds entity capacity { e with outputs := {} } r? :=
    ⟨h.indexed, h.capacity, h.record⟩
  (hcleared.applyInputs inputs).holds

/-- Requests of a tick leave the records that calls would leave. -/
theorem record?_requested (settings : EngineSettings) (cs : List Call) (inputs : Inputs)
    (entity : EntityId) : ((after settings cs).requested inputs).record? entity
      = (after settings (cs ++ inputs.calls)).record? entity := by
  have h := holds_after entity settings cs
  rw [(h.requested inputs).record, after_append, ← (alike_applyInputs _ inputs).value,
    (h.applyInputs inputs).holds.record]

/-- A record that requests leave is one of the same machine as before. -/
theorem exists_record?_of_requested {inputs : Inputs}
    (hr : ((after settings cs).requested inputs).record? entity = some r) :
    ∃ r₀, (after settings cs).record? entity = some r₀ ∧ r.resource = r₀.resource := by
  have h := holds_after entity settings cs
  have hfollows : Solo.Follows _ fun r? => inputs.calls.foldlM (Solo.request entity) r? :=
    Solo.follows_requests Record.evolution_machine inputs
  rw [(h.requested inputs).record, ← h.record] at hr
  cases hr₀ : (after settings cs).record? entity with
  | none =>
    rw [hr₀, hfollows.absent] at hr
    cases hr
  | some r₀ =>
    rw [hr₀] at hr
    exact ⟨r₀, rfl, (hfollows.related r₀ r hr).1⟩

/-- **An engine whose machines were loaded never faults**, however it came about. -/
theorem neverFaults_after (h : ∀ r ∈ (after settings cs).records, r.resource.Loaded) :
    (after settings cs).NeverFaults := by
  have hindexed := indexed_after settings cs
  refine ⟨fun r hr => ?_, fun dt inputs source v hv => ?_⟩
  · exact inBounds_of_record? (hindexed.record?_eq_some.2 ⟨hr, rfl⟩) (h r hr).playable
  · obtain ⟨r, hmem, hv⟩ := mem_notices_tracedUpdate hv
    have hrequested := (holds_after r.entity settings cs).requested inputs
    have hr := hrequested.indexed.record?_eq_some.2 ⟨hmem, rfl⟩
    obtain ⟨r₀, hr₀, hresource⟩ := exists_record?_of_requested hr
    have hm : r.resource.Playable :=
      hresource ▸ (h r₀ (hindexed.record?_eq_some.1 hr₀).1).playable
    have hbounds := inBounds_of_record? (record?_requested settings cs inputs r.entity ▸ hr) hm
    rw [hrequested.capacity] at hv
    rw [settings_after]
    exact Traced.safe_of_mem_notices_step hm hbounds hv

/-- Where calls create loaded machines only, the records are of loaded machines. -/
theorem loaded_of_created (h : ∀ entity m, .create entity m ∈ cs → m.Loaded) :
    ∀ r ∈ (after settings cs).records, r.resource.Loaded := by
  intro r hmem
  obtain ⟨before, m, since, rfl, -, hm, -⟩ := exists_created Record.evolution_machine
    ((indexed_after settings cs).record?_eq_some.2 ⟨hmem, rfl⟩)
  have hresource : r.resource = m := hm
  rw [hresource]
  exact h r.entity m (by simp)

/-- The bytes of the door. -/
def doorBytes : Blob :=
  (([1, 24, 0, 112, 2, 112] ++ [0, 0, 1, 1, 68, 0, 1, 9, 0, 0, 0] ++
    [0, 0, 1, 2, 24, 1, 1, 9, 0, 0, 0] ++ [0x3f800000, 0x7fa00000] :
    List UInt32).flatMap wordBytes).toArray

theorem neverFaults_after_door :
    (∀ r ∈ (after {} doorCalls).records, r.resource.Loaded) ∧
      (after {} doorCalls).NeverFaults := by
  have hdoor : door.Loaded := ⟨doorBytes, by decide +kernel⟩
  have hloaded : ∀ r ∈ (after {} doorCalls).records, r.resource.Loaded := by
    refine loaded_of_created fun entity m hmem => ?_
    simp only [doorCalls, List.mem_cons, Call.create.injEq, reduceCtorEq, List.not_mem_nil,
      or_false] at hmem
    exact hmem.2 ▸ hdoor
  exact ⟨hloaded, neverFaults_after hloaded⟩

end Engine

end Flipbook.Machine
