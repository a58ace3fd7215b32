import Flipbook.Proofs.Machine.Evaluations
import Flipbook.Proofs.Machine.Walks

/-!
# Proofs/Machine/Deferral — a waiting transition is taken at the end of the animation

As long as no call creates, destroys or triggers an entity (`Call.Spares`), its state changes only
where a tick moves its time beyond the end of the animation that it shows (`Engine.Overruns`).  A
target that waits goes on waiting until the first such tick, and that tick switches to it; a looping
state in which nothing waits is never left (`Engine.defers_after`).
-/

namespace Flipbook.Machine

namespace Record

/-! ## One record -/

/-- Whether a tick moves the time of a record beyond the end of the animation that it shows. -/
def Overruns (r : Record) (dt : Single) (capacity : Nat) (source : SpriteSource) : Prop :=
  ∃ m, r.moved? dt capacity source = some m ∧ m.animation.totalTime.less m.time

/-- Whether a record is in a state whose animations start over. -/
def Loops (r : Record) : Prop := ∃ state, r.resource.state? r.state = some state ∧ state.looping

/-- Whether a record has become one that is in the same state of the same machine, with the same
target waiting. -/
structure Stays (r r' : Record) : Prop where
  resource : r'.resource = r.resource
  state : r'.state = r.state
  pending : r'.pending = r.pending

variable {r r' r'' : Record} {dt : Single} {capacity : Nat} {source : SpriteSource}

theorem Stays.refl (r : Record) : r.Stays r := ⟨rfl, rfl, rfl⟩

theorem Stays.trans (h : r.Stays r') (h' : r'.Stays r'') : r.Stays r'' :=
  ⟨h'.resource.trans h.resource, h'.state.trans h.state, h'.pending.trans h.pending⟩

theorem Stays.loops (h : r.Stays r') (hloops : r.Loops) : r'.Loops := by
  rw [Loops, h.resource, h.state]
  exact hloops

/-- An animation that has not ended changes nothing. -/
theorem finish_of_not_less {state : State} (h : ¬ r.animation.totalTime.less r.time) :
    r.finish state = ([], r) := by
  simp only [finish, h]
  rfl

/-- The end of an animation takes the waiting transition. -/
theorem finish_of_pending {state : State} {target : StateId}
    (h : r.animation.totalTime.less r.time) (hpending : r.pending = some target) :
    r.finish state = ([.stateChanged r.entity r.state target],
      { r with pending := none, state := target, time := Single.zero }) := by
  simp only [finish, h, hpending]
  rfl

/-- A looping state starts over where nothing waits. -/
theorem finish_of_looping {state : State} (hloops : state.looping) (hpending : r.pending = none) :
    ∃ time, r.finish state = ([], { r with time }) := by
  rcases r.finish_cases state with hfinish | ⟨target, htarget, -⟩ | ⟨-, hnot, -⟩
  · exact hfinish
  · rw [hpending] at htarget
    cases htarget
  · rw [hloops] at hnot
    cases hnot

/-- **A tick leaves the state alone** if it does not overrun, and in a looping state in which
nothing waits. -/
theorem stays_step (h : ¬ r.Overruns dt capacity source ∨ (r.Loops ∧ r.pending = none)) :
    r.Stays (r.step dt capacity source).2.2 ∧
      (r.step dt capacity source).2.1.filterMap Event.change? = [] := by
  cases hmoved : r.moved? dt capacity source with
  | none =>
    obtain ⟨failures, hfailures, hstep⟩ := r.step_of_moved?_eq_none hmoved
    rw [hstep]
    exact ⟨.refl r, filterMap_change?_failures hfailures⟩
  | some m =>
    obtain ⟨state, failures, hstate, hfailures, hstep⟩ := r.step_of_moved?_eq_some hmoved
    obtain ⟨animation, active, time, hm⟩ := moved?_eq_some hmoved
    have hfinish : ∃ time, m.finish state = ([], { m with time }) := by
      rcases h with hends | ⟨⟨state', hstate', hlooping⟩, hpending⟩
      · exact ⟨m.time, finish_of_not_less fun hless => hends ⟨m, hmoved, hless⟩⟩
      · obtain rfl := Option.some.inj (hstate.symm.trans hstate')
        exact finish_of_looping hlooping (hm ▸ hpending)
    obtain ⟨time', hfinish⟩ := hfinish
    rw [hstep, hfinish, hm, List.append_nil]
    exact ⟨⟨rfl, rfl, rfl⟩, filterMap_change?_failures hfailures⟩

/-- **A tick that overruns switches to the waiting target**, at the start of its animation. -/
theorem step_of_overruns {target : StateId} (h : r.Overruns dt capacity source)
    (hpending : r.pending = some target) :
    (r.step dt capacity source).2.1.filterMap Event.change? = [(r.state, target)] ∧
      (r.step dt capacity source).2.2.state = target ∧
      (r.step dt capacity source).2.2.pending = none ∧
      (r.step dt capacity source).2.2.time = Single.zero := by
  obtain ⟨m, hmoved, hless⟩ := h
  obtain ⟨state, failures, -, hfailures, hstep⟩ := r.step_of_moved?_eq_some hmoved
  obtain ⟨animation, active, time, hm⟩ := moved?_eq_some hmoved
  have hwaits : m.pending = some target := by rw [hm, hpending]
  rw [hstep, finish_of_pending hless hwaits, List.filterMap_append,
    filterMap_change?_failures hfailures, hm]
  exact ⟨rfl, rfl, rfl, rfl⟩

end Record

/-! ## Calls that spare an entity -/

/-- Whether a call does nothing to an entity but write its variables, and ticks. -/
def Call.Spares (entity : EntityId) : Call → Prop
  | .create other _ | .destroy other | .trigger other _ => other ≠ entity
  | .update _ inputs _ => entity ∉ inputs.destroyed ∧ ∀ t ∈ inputs.triggers, t.entity ≠ entity
  | .setVariable .. | .drainFrames => True

namespace Solo

variable {entity : EntityId}

/-- A call between ticks that spares an entity writes variables at most. -/
theorem request_of_spares {c : Call} (hc : c.Spares entity) (r : Record) :
    ∃ vars, request entity (some r) c = pure (some { r with vars }) := by
  cases c with
  | create other resource => exact ⟨r.vars, by rw [request, if_neg hc]⟩
  | destroy other => exact ⟨r.vars, by rw [request, if_neg hc]⟩
  | trigger other event => exact ⟨r.vars, by rw [request, if_neg hc]⟩
  | setVariable other index value =>
    by_cases hother : other = entity
    · exact ⟨_, by rw [request, if_pos hother]; rfl⟩
    · exact ⟨r.vars, by rw [request, if_neg hother]⟩
  | update | drainFrames => exact ⟨r.vars, rfl⟩

/-- Requests that spare an entity write variables at most. -/
theorem foldlM_request_of_spares {cs : List Call} (hcs : ∀ c ∈ cs, c.Spares entity) (r : Record) :
    ∃ vars, cs.foldlM (request entity) (some r) = pure (some { r with vars }) := by
  induction cs generalizing r with
  | nil => exact ⟨r.vars, rfl⟩
  | cons c cs ih =>
    obtain ⟨hc, hcs⟩ := List.forall_mem_cons.1 hcs
    obtain ⟨vars, hvars⟩ := request_of_spares hc r
    obtain ⟨vars', hvars'⟩ := ih hcs { r with vars }
    refine ⟨vars', ?_⟩
    rw [List.foldlM_cons, hvars, pure_bind, hvars']

end Solo

theorem Inputs.spares_of_mem_calls {entity : EntityId} {dt : Single} {inputs : Inputs}
    {source : SpriteSource} (h : (Call.update dt inputs source).Spares entity) :
    ∀ c ∈ inputs.calls, c.Spares entity := by
  intro c hc
  simp only [Inputs.calls, List.mem_append, List.mem_map] at hc
  rcases hc with (⟨other, hother, rfl⟩ | ⟨w, -, rfl⟩) | ⟨t, ht, rfl⟩
  · exact fun heq => h.1 (heq ▸ hother)
  · trivial
  · exact h.2 t ht

namespace Engine

/-- Whether a call is a tick that moves the time of an entity beyond the end of the animation that
it shows, once the requests of the tick were applied. -/
def Overruns (entity : EntityId) (e : Engine) (c : Call) : Prop :=
  ∃ dt inputs source r, c = .update dt inputs source ∧
    (e.requested inputs).record? entity = some r ∧
    r.Overruns dt e.settings.stackCapacity source

/-- Whether none of some calls is a tick that overruns. -/
def NeverOverruns (entity : EntityId) (e : Engine) (cs : List Call) : Prop :=
  ∀ front c back, cs = front ++ c :: back → ¬ Overruns entity (e.run front).value c

variable {entity : EntityId} {capacity : Nat} {e : Engine} {r : Record}

/-- A tick that overruns reports what waited and what it raises. -/
theorem reported_of_overruns {c : Call} (h : Overruns entity e c) :
    e.reported c = e.backlog ++ raised (e.call c) := by
  obtain ⟨dt, inputs, source, -, rfl, -⟩ := h
  have hreported := reported_append_backlog e (.update dt inputs source)
  have hnone : (e.call (.update dt inputs source)).value.backlog = [] := rfl
  rwa [hnone, List.append_nil] at hreported

namespace Holds

/-- A tick that spares an entity steps its record with other values of the variables at most. -/
theorem update_of_spares (h : Holds entity capacity e (some r)) {dt : Single} {inputs : Inputs}
    {source : SpriteSource} (hc : (Call.update dt inputs source).Spares entity) :
    ∃ vars, (e.requested inputs).record? entity = some { r with vars } ∧
      Sees entity capacity (e.call (.update dt inputs source))
        (Solo.tick capacity dt source (some { r with vars })) := by
  obtain ⟨vars, hvars⟩ := Solo.foldlM_request_of_spares (Inputs.spares_of_mem_calls hc) r
  refine ⟨vars, ?_, ?_⟩
  · rw [(h.requested inputs).record, hvars]
    rfl
  · have hsees := h.call (.update dt inputs source)
    rwa [Solo.call, hvars, pure_bind] at hsees

/-- A call that spares an entity leaves its state alone if it does not overrun, and in a looping
state in which nothing waits. -/
theorem stays_call (h : Holds entity capacity e (some r)) {c : Call} (hc : c.Spares entity)
    (hidle : ¬ Overruns entity e c ∨ (r.Loops ∧ r.pending = none)) :
    ∃ r', Holds entity capacity (e.call c).value (some r') ∧ r.Stays r' ∧
      changes entity (raised (e.call c)) = [] := by
  by_cases htick : ∃ dt inputs source, c = .update dt inputs source
  · obtain ⟨dt, inputs, source, rfl⟩ := htick
    obtain ⟨vars, hrecord, hsees⟩ := h.update_of_spares hc
    have hidle' : ¬ ({ r with vars } : Record).Overruns dt capacity source ∨
        (({ r with vars } : Record).Loops ∧ r.pending = none) := by
      refine hidle.imp_left fun hnot hends => hnot ⟨dt, inputs, source, _, rfl, hrecord, ?_⟩
      rwa [h.capacity]
    obtain ⟨hstays, hchanges⟩ := Record.stays_step hidle'
    refine ⟨_, hsees.holds, ⟨hstays.resource, hstays.state, hstays.pending⟩, ?_⟩
    rw [changes, hsees.events]
    exact hchanges
  · have hrequest : Solo.call entity capacity (some r) c = Solo.request entity (some r) c := by
      cases c with
      | update dt inputs source => exact absurd ⟨dt, inputs, source, rfl⟩ htick
      | _ => rfl
    obtain ⟨vars, hvars⟩ := Solo.request_of_spares hc r
    have hsees := h.call c
    rw [hrequest, hvars] at hsees
    refine ⟨_, hsees.holds, ⟨rfl, rfl, rfl⟩, ?_⟩
    rw [changes, hsees.events]
    rfl

/-- **Calls that spare an entity leave its state alone** if none of them overruns, and in a looping
state in which nothing waits. -/
theorem stays_run (h : Holds entity capacity e (some r)) {cs : List Call}
    (hcs : ∀ c ∈ cs, c.Spares entity)
    (hidle : NeverOverruns entity e cs ∨ (r.Loops ∧ r.pending = none)) :
    ∃ r', Holds entity capacity (e.run cs).value (some r') ∧ r.Stays r' ∧
      changes entity (raised (e.run cs)) = [] := by
  induction cs generalizing e r with
  | nil => exact ⟨r, h, .refl r, rfl⟩
  | cons c cs ih =>
    obtain ⟨hc, hcs⟩ := List.forall_mem_cons.1 hcs
    obtain ⟨r', h', hstays, hnone⟩ := h.stays_call hc (hidle.imp_left fun hnot => hnot [] c cs rfl)
    have hidle' : NeverOverruns entity (e.call c).value cs ∨ (r'.Loops ∧ r'.pending = none) := by
      refine hidle.imp (fun hnot front d back hsplit => ?_) fun ⟨hloops, hpending⟩ =>
        ⟨hstays.loops hloops, hstays.pending.trans hpending⟩
      have hlater := hnot (c :: front) d back (by rw [hsplit, List.cons_append])
      rwa [run_cons, Logged.value_bind] at hlater
    obtain ⟨r'', h'', hstays', hnone'⟩ := ih h' hcs hidle'
    refine ⟨r'', ?_, hstays.trans hstays', ?_⟩
    · rw [run_cons, Logged.value_bind]
      exact h''
    · rw [run_cons, raised_bind, changes, about_append, List.filterMap_append]
      exact List.append_eq_nil_iff.2 ⟨hnone, hnone'⟩

/-- **A tick that overruns switches an entity to its waiting target.** -/
theorem switches_call (h : Holds entity capacity e (some r)) {c : Call} (hc : c.Spares entity)
    {target : StateId} (hpending : r.pending = some target) (hends : Overruns entity e c) :
    ∃ r', Holds entity capacity (e.call c).value (some r') ∧ r'.state = target ∧
      r'.pending = none ∧ r'.time = Single.zero ∧
      changes entity (raised (e.call c)) = [(r.state, target)] := by
  obtain ⟨dt, inputs, source, r', rfl, hr', hends⟩ := hends
  obtain ⟨vars, hrecord, hsees⟩ := h.update_of_spares hc
  obtain rfl := Option.some.inj (hrecord.symm.trans hr')
  rw [h.capacity] at hends
  obtain ⟨hchanges, hstate, hnone, htime⟩ := Record.step_of_overruns hends hpending
  refine ⟨_, hsees.holds, hstate, hnone, htime, ?_⟩
  rw [changes, hsees.events]
  exact hchanges

end Holds

/-! ## Runs -/

/-- What becomes of the state of an entity by calls that spare it. -/
structure Defers (entity : EntityId) (e : Engine) (cs : List Call) : Prop where
  /-- A target goes on waiting, in the same state, until a tick overruns. -/
  waits : ∀ state target, e.state? entity = some state → e.pending? entity = some target →
    NeverOverruns entity e cs → (e.run cs).value.state? entity = some state ∧
      (e.run cs).value.pending? entity = some target ∧ changes entity (raised (e.run cs)) = []
  /-- The first tick that overruns switches to it, once, and starts the animation over.  It reports
  what waited before it and what it raised. -/
  switches : ∀ state target front c back, e.state? entity = some state →
    e.pending? entity = some target → cs = front ++ c :: back → NeverOverruns entity e front →
    Overruns entity (e.run front).value c →
      ∃ r, ((e.run front).value.call c).value.record? entity = some r ∧ r.state = target ∧
        r.pending = none ∧ r.time = Single.zero ∧
        changes entity (raised ((e.run front).value.call c)) = [(state, target)] ∧
        (e.run front).value.reported c
          = (e.run front).value.backlog ++ raised ((e.run front).value.call c)
  /-- A looping state in which nothing waits is never left. -/
  loops : ∀ r, e.record? entity = some r → r.Loops → r.pending = none →
    (e.run cs).value.state? entity = some r.state ∧ (e.run cs).value.pending? entity = none ∧
      changes entity (raised (e.run cs)) = []

/-- **A waiting transition is taken at the first end of the animation**, and a looping state is
not left without one, as long as calls spare the entity. -/
theorem defers_after (settings : EngineSettings) (cs : List Call) {since : List Call}
    (h : ∀ c ∈ since, c.Spares entity) : Defers entity (after settings cs) since := by
  have hafter := holds_after entity settings cs
  generalize after settings cs = e at hafter
  have hrecord : ∀ {state}, e.state? entity = some state → ∃ r, r.state = state ∧
      e.record? entity = some r ∧ Holds entity settings.stackCapacity e (some r) := by
    intro state hstate
    obtain ⟨r, hr, hrstate⟩ := Option.map_eq_some_iff.1 hstate
    exact ⟨r, hrstate, hr, hafter.indexed, hafter.capacity, hr⟩
  refine ⟨fun state target hstate hpending hnever => ?_,
    fun state target front c back hstate hpending hsplit hnever hends => ?_,
    fun r hr hloops hpending => ?_⟩
  · obtain ⟨r, rfl, hr, hholds⟩ := hrecord hstate
    obtain ⟨r', h', hstays, hnone⟩ := hholds.stays_run h (.inl hnever)
    rw [pending?, hr, Option.bind_some] at hpending
    refine ⟨?_, ?_, hnone⟩
    · rw [state?, h'.record, Option.map_some, hstays.state]
    · rw [pending?, h'.record, Option.bind_some, hstays.pending, hpending]
  · obtain ⟨r, rfl, hr, hholds⟩ := hrecord hstate
    rw [hsplit, List.forall_mem_append, List.forall_mem_cons] at h
    obtain ⟨r', h', hstays, -⟩ := hholds.stays_run h.1 (.inl hnever)
    rw [pending?, hr, Option.bind_some] at hpending
    obtain ⟨r'', h'', hstate', hnone, htime, hchanges⟩ :=
      h'.switches_call h.2.1 (hstays.pending.trans hpending) hends
    rw [hstays.state] at hchanges
    exact ⟨r'', h''.record, hstate', hnone, htime, hchanges, reported_of_overruns hends⟩
  · have hholds : Holds entity settings.stackCapacity e (some r) :=
      ⟨hafter.indexed, hafter.capacity, hr⟩
    obtain ⟨r', h', hstays, hnone⟩ := hholds.stays_run h (.inr ⟨hloops, hpending⟩)
    refine ⟨?_, ?_, hnone⟩
    · rw [state?, h'.record, Option.map_some, hstays.state]
    · rw [pending?, h'.record, Option.bind_some, hstays.pending, hpending]

/-- A write, and a tick of two seconds through an animation of one second. -/
def doorCloses : List Call :=
  [.setVariable ⟨7⟩ ⟨0⟩ Single.one,
    .update ⟨0x40000000⟩ {} fun _ => some ⟨[4], Single.one⟩]

theorem defers_after_door : (∀ c ∈ doorCloses, c.Spares ⟨7⟩) ∧
    (after {} doorCalls).pending? ⟨7⟩ = some ⟨0⟩ ∧
      Defers ⟨7⟩ (after {} doorCalls) doorCloses := by
  have hspares : ∀ c ∈ doorCloses, c.Spares ⟨7⟩ := by simp [doorCloses, Call.Spares]
  refine ⟨hspares, ?_, defers_after {} doorCalls hspares⟩
  rw [pending?, (holds_after ⟨7⟩ {} doorCalls).record]
  decide +kernel

end Engine

end Flipbook.Machine
