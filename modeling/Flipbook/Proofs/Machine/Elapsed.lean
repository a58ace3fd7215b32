import Flipbook.Proofs.Machine.Deferral
import Flipbook.Proofs.Machine.Frames

/-!
# Proofs/Machine/Elapsed — time never stands beyond the end of the animation

A tick that moves the time of a record beyond the end of its animation leaves it at the start, at
the end, or where the animation starts over (`Record.finish_beyond`), and none of the three is
beyond the end: starting over takes one period off, and the remainder if that was not enough
(`Record.not_less_wrapTime`).  The end of what a record shows is finite and positive, so all that
can happen to a record keeps it within the end (`Record.evolution_timely`), and with it every record
of an engine (`Engine.keepsTime_after`).
-/

namespace Flipbook.Machine

theorem Sprite.totalTime_of_isPlayable {s : Sprite} (h : s.isPlayable) :
    s.totalTime.isFinite ∧ Single.zero.less s.totalTime := by
  simp only [isPlayable, Bool.and_eq_true] at h
  exact ⟨h.1.2, h.2⟩

namespace Record

variable {r m : Record} {state : State} {time total : Single}

/-! ## The end of an animation -/

/-- **A time that starts over is not beyond the end.** -/
theorem not_less_wrapTime (ht : total.isFinite) (hpos : Single.zero.less total) (time : Single) :
    ¬ total.less (wrapTime time total) := by
  unfold wrapTime
  dsimp only
  split
  · exact Single.not_less_remainder ht hpos _
  · assumption

/-- A time beyond the end starts over in a looping state where nothing waits, and goes to the start
or to the end otherwise. -/
theorem finish_beyond (r : Record) (state : State) (h : r.animation.totalTime.less r.time) :
    (state.looping ∧ r.pending = none ∧
        r.finish state = ([], { r with time := wrapTime r.time r.animation.totalTime })) ∨
      (¬ (state.looping ∧ r.pending = none) ∧ ((r.finish state).2.time = Single.zero ∨
        (r.finish state).2.time = r.animation.totalTime)) := by
  cases hpending : r.pending with
  | some target => exact .inr ⟨by simp, .inl (by rw [finish_of_pending h hpending])⟩
  | none =>
    simp only [finish, h, hpending, if_true]
    cases state.looping with
    | true => exact .inl (by simp)
    | false =>
      refine .inr ⟨by simp, ?_⟩
      simp only [Bool.false_eq_true, if_false]
      split
      · exact .inl rfl
      · exact .inr rfl

/-- Whether the time of a record is not beyond the end of its animation. -/
def WithinEnd (r : Record) : Prop := ¬ r.animation.totalTime.less r.time

/-- **The end of an animation that can be played leaves the time within it.** -/
theorem withinEnd_finish (h : r.animation.isPlayable) (state : State) :
    (r.finish state).2.WithinEnd := by
  obtain ⟨ht, hpos⟩ := Sprite.totalTime_of_isPlayable h
  rw [WithinEnd, (r.showsSame_finish state).animation]
  by_cases hbeyond : r.animation.totalTime.less r.time
  · rcases r.finish_beyond state hbeyond with ⟨-, -, hover⟩ | ⟨-, hstart | hend⟩
    · rw [hover]
      exact not_less_wrapTime ht hpos r.time
    · rw [hstart]
      exact fun hless => Single.not_less_self _ (Single.less_trans hpos hless)
    · rw [hend]
      exact Single.not_less_self _
  · rwa [finish_of_not_less hbeyond]

/-! ## One record -/

/-- Whether what a record shows can be played, and its time is within it. -/
structure Timely (r : Record) : Prop where
  showing : r.Showing
  within : r.WithinEnd

theorem time_fire (r : Record) (event : ShortHash) : (r.fire event).2.2.time = r.time := by
  rcases r.fire_cases event with ⟨-, h⟩ | ⟨t, -, ⟨-, h⟩ | ⟨-, h⟩⟩ <;> rw [h]

/-- All that can happen to a record leaves its time within the end of what it shows. -/
theorem evolution_timely : Evolution fun r _ r' => r.Timely → r'.Timely where
  refl _ := id
  trans _ _ _ _ _ h h' := h' ∘ h
  fire r event hr := by
    refine ⟨evolution_showing.fire r event hr.showing, ?_⟩
    rw [WithinEnd, time_fire, (r.showsSame_fire event).animation]
    exact hr.within
  write _ _ _ hr := ⟨hr.showing, hr.within⟩
  step r dt capacity source hr := by
    refine ⟨evolution_showing.step r dt capacity source hr.showing, ?_⟩
    cases hmoved : r.moved? dt capacity source with
    | none =>
      obtain ⟨failures, -, hstep⟩ := r.step_of_moved?_eq_none hmoved
      rw [hstep]
      exact hr.within
    | some m =>
      obtain ⟨state, failures, -, -, hstep⟩ := r.step_of_moved?_eq_some hmoved
      rw [hstep]
      exact withinEnd_finish (hr.showing.moved? hmoved).1 state

theorem timely_start (entity : EntityId) (resource : Resource) :
    (start entity resource).Timely where
  showing name hname := by cases hname
  within := Single.not_less_self _

/-- A tick beyond the end of an animation starts it over in a looping state where nothing waits. -/
theorem step_of_loops {dt : Single} {capacity : Nat} {source : SpriteSource}
    (hmoved : r.moved? dt capacity source = some m) (hends : m.animation.totalTime.less m.time)
    (hloops : r.Loops) (hpending : r.pending = none) :
    (r.step dt capacity source).2.2
      = { m with time := wrapTime m.time m.animation.totalTime } := by
  obtain ⟨state, failures, hstate, -, hstep⟩ := r.step_of_moved?_eq_some hmoved
  obtain ⟨state', hstate', hlooping⟩ := hloops
  obtain rfl := Option.some.inj (hstate.symm.trans hstate')
  obtain ⟨animation, active, time, rfl⟩ := moved?_eq_some hmoved
  rw [hstep]
  simp only [finish, hends, hpending, hlooping, if_true]

end Record

namespace Engine

variable {entity : EntityId} {r : Record}

/-- How an engine keeps the time of its records. -/
structure KeepsTime (e : Engine) : Prop where
  /-- No time is beyond the end of the animation that is shown. -/
  within : ∀ r ∈ e.records, r.WithinEnd
  /-- One tick that moves the time beyond the end, however far, starts the animation over in a
  looping state where nothing waits, and takes the time back within the end. -/
  wraps : ∀ entity dt inputs source r m, (e.requested inputs).record? entity = some r →
    r.moved? dt e.settings.stackCapacity source = some m → m.animation.totalTime.less m.time →
    r.Loops → r.pending = none → ∃ r',
      (e.call (.update dt inputs source)).value.record? entity = some r' ∧
      r' = { m with time := Record.wrapTime m.time m.animation.totalTime } ∧ r'.WithinEnd

/-- A tick steps the record of an entity that requests left. -/
theorem Holds.record?_update {capacity : Nat} {e : Engine} {r? : Option Record}
    (h : Holds entity capacity e r?) (dt : Single) (inputs : Inputs) (source : SpriteSource) :
    (e.call (.update dt inputs source)).value.record? entity
      = ((e.requested inputs).record? entity).map fun r => (r.step dt capacity source).2.2 := by
  rw [← (h.requested inputs).capacity, ← record?_stepAll]
  rfl

/-- The record of an entity is timely. -/
theorem timely_of_record? {settings : EngineSettings} {cs : List Call}
    (h : (after settings cs).record? entity = some r) : r.Timely := by
  obtain ⟨before, resource, since, -, -, htimely⟩ := exists_created Record.evolution_timely h
  exact htimely (Record.timely_start entity resource)

/-- **Time never stands beyond the end of the animation**, whatever is called and however long a
tick is. -/
theorem keepsTime_after (settings : EngineSettings) (cs : List Call) :
    KeepsTime (after settings cs) where
  within r hr := by
    have hindexed := indexed_after settings cs
    exact (timely_of_record? (hindexed.record?_eq_some.2 ⟨hr, rfl⟩)).within
  wraps entity dt inputs source r m hr hmoved hends hloops hpending := by
    rw [settings_after] at hmoved
    have hrecord := (holds_after entity settings cs).record?_update dt inputs source
    rw [hr, Option.map_some] at hrecord
    refine ⟨_, hrecord, Record.step_of_loops hmoved hends hloops hpending, ?_⟩
    have hafter : after settings (cs ++ [.update dt inputs source])
        = ((after settings cs).call (.update dt inputs source)).value := after_append ..
    rw [← hafter] at hrecord
    exact (timely_of_record? hrecord).within

end Engine

end Flipbook.Machine
