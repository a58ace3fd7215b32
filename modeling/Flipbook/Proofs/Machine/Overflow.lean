import Flipbook.Proofs.Machine.Elapsed
import Flipbook.Proofs.Number.Arithmetic

/-!
# Proofs/Machine/Overflow — where playback time is lost

Finite ticks do not keep playback time a number.  A tick adds the product of its seconds and a
finite speed, and both the product and the sum may overflow.  An infinite time has no remainder by
the end of the animation, and the opposite infinity takes it to no number as well
(`Record.LosesTime`).  No other tick loses the time of a record (`Record.isNaN_step`), so the time
of an entity stays a number exactly as long as none of its ticks does that (`Engine.tellsTime_iff`).
-/

namespace Flipbook.Machine

namespace Record

variable {r m shown shown' : Record} {dt : Single} {capacity : Nat} {source : SpriteSource}
  {state state' : State} {time total : Single}

/-! ## Ends of animations -/

/-- **Starting over loses the time exactly if it is infinite.** -/
theorem isNaN_wrapTime (ht : total.isFinite) (hpos : Single.zero.less total)
    (hends : total.less time) : (wrapTime time total).isNaN ↔ time = Single.infinity false := by
  have htime := Single.less_trans hpos hends
  cases hfinite : time.isFinite with
  | true =>
    have honce := Single.isFinite_sub hfinite ht htime hpos
    refine iff_of_false ?_ ?_
    · unfold wrapTime
      dsimp only
      split
      · rw [Single.remainder_eq ht hpos, if_pos honce, Single.isNaN_ofUnits]
        simp
      · simp [Single.isNaN_eq_false honce]
    · rintro rfl
      rw [Single.isFinite_infinity] at hfinite
      cases hfinite
  | false =>
    obtain ⟨n, rfl⟩ := Single.exists_eq_infinity (Single.less_iff.1 htime).2.1 hfinite
    cases n with
    | true => exact absurd htime (by decide)
    | false =>
      refine iff_of_true ?_ rfl
      unfold wrapTime
      rw [Single.infinity_sub ht, if_pos hends, Single.remainder_eq ht hpos,
        if_neg (by rw [Single.isFinite_infinity]; simp)]
      decide

/-- The end of an animation loses a time that was none, or that is infinite and starts over. -/
theorem isNaN_finish (h : r.animation.isPlayable) (state : State) :
    (r.finish state).2.time.isNaN ↔ r.time.isNaN ∨
      (r.time = Single.infinity false ∧ state.looping ∧ r.pending = none) := by
  obtain ⟨ht, hpos⟩ := Sprite.totalTime_of_isPlayable h
  by_cases hends : r.animation.totalTime.less r.time
  · have hnan : r.time.isNaN = false := (Single.less_iff.1 hends).2.1
    rcases r.finish_beyond state hends with ⟨hlooping, hpending, hover⟩ | ⟨hnot, htime⟩
    · rw [hover, isNaN_wrapTime ht hpos hends]
      simp [hnan, hlooping, hpending]
    · have hnumber : (r.finish state).2.time.isNaN = false := by
        rcases htime with hstart | hend
        · rw [hstart]
          decide
        · rw [hend]
          exact Single.isNaN_eq_false ht
      refine iff_of_false (by simp [hnumber]) ?_
      rintro (hnan' | ⟨-, hloops⟩)
      · simp [hnan] at hnan'
      · exact hnot hloops
  · rw [finish_of_not_less hends]
    refine (or_iff_left ?_).symm
    rintro ⟨htime, -⟩
    exact hends (htime ▸ Single.less_infinity ht)

/-! ## One tick -/

/-- Whether a tick shows an animation in a state, before it moves the time on. -/
def Shows (r : Record) (capacity : Nat) (source : SpriteSource) (state : State) (shown : Record) :
    Prop :=
  r.resource.state? r.state = some state ∧
    ∃ name, r.Selects capacity state name ∧ r.display source name = some shown

theorem Shows.unique (h : r.Shows capacity source state shown)
    (h' : r.Shows capacity source state' shown') : state' = state ∧ shown' = shown := by
  obtain ⟨hstate, name, hselects, hshown⟩ := h
  obtain ⟨hstate', name', hselects', hshown'⟩ := h'
  obtain rfl := Option.some.inj (hstate.symm.trans hstate')
  obtain ⟨w, hbest⟩ := exists_heaviest_weighed.2 hselects
  obtain ⟨w', hbest'⟩ := exists_heaviest_weighed.2 hselects'
  obtain ⟨-, rfl⟩ := Prod.mk.inj (Option.some.inj (hbest.symm.trans hbest'))
  exact ⟨rfl, (Option.some.inj (hshown.symm.trans hshown')).symm⟩

/-- A tick moves the time of what it shows on by its seconds times the speed. -/
theorem moved?_eq_some_iff : r.moved? dt capacity source = some m ↔
    ∃ state shown, r.Shows capacity source state shown ∧
      m = { shown with time := shown.time + dt * (shown.speed capacity state).1 } := by
  constructor
  · intro h
    obtain ⟨state, hstate, h⟩ := Option.bind_eq_some_iff.1 h
    obtain ⟨⟨w, name⟩, hbest, h⟩ := Option.bind_eq_some_iff.1 h
    obtain ⟨shown, hshown, h⟩ := Option.bind_eq_some_iff.1 h
    exact ⟨state, shown, ⟨hstate, name, exists_heaviest_weighed.1 ⟨w, hbest⟩, hshown⟩,
      (Option.some.inj h).symm⟩
  · rintro ⟨state, shown, ⟨hstate, name, hselects, hshown⟩, rfl⟩
    obtain ⟨w, hbest⟩ := exists_heaviest_weighed.2 hselects
    unfold weighed at hbest
    simp [moved?, hstate, hbest, hshown]

/-- The speed of a tick is finite. -/
theorem isFinite_speed (r : Record) (capacity : Nat) (state : State) :
    (r.speed capacity state).1.isFinite := by
  have hzero : Single.zero.isFinite := by decide
  unfold speed
  split
  · split
    · assumption
    · exact hzero
  · exact hzero

/-- The time of what a timely record shows is not infinite, and a number if that of the record
is. -/
theorem Timely.shows (hr : r.Timely) (h : r.Shows capacity source state shown) :
    shown.time ≠ Single.infinity false ∧ (r.time.isNaN = false → shown.time.isNaN = false) := by
  obtain ⟨-, name, -, hshown⟩ := h
  unfold display at hshown
  split at hshown
  · rename_i hactive
    obtain rfl := Option.some.inj hshown
    refine ⟨fun htime => hr.within ?_, id⟩
    rw [htime]
    exact Single.less_infinity (Sprite.totalTime_of_isPlayable (hr.showing name hactive)).1
  · obtain ⟨sprite, -, rfl⟩ := Option.map_eq_some_iff.1 hshown
    have hzero : Single.zero ≠ Single.infinity false ∧ Single.zero.isNaN = false := by decide
    exact ⟨hzero.1, fun _ => hzero.2⟩

/-- **The time that a tick moves on is no number only if it stood at minus infinity** and infinity
is added: it is not infinite before the tick, and the product is of finite values. -/
theorem Timely.isNaN_moved (hr : r.Timely) (hnumber : r.time.isNaN = false) (hdt : dt.isFinite)
    (h : r.Shows capacity source state shown) :
    (shown.time + dt * (shown.speed capacity state).1).isNaN ↔
      shown.time = Single.infinity true ∧
        dt * (shown.speed capacity state).1 = Single.infinity false := by
  obtain ⟨hbelow, hshown⟩ := hr.shows h
  have hproduct := Single.isNaN_mul hdt (shown.isFinite_speed capacity state)
  rw [Single.isNaN_add (hshown hnumber) hproduct]
  constructor
  · rintro ⟨n, htime, hadded⟩
    cases n with
    | true => exact ⟨htime, hadded⟩
    | false => exact absurd htime hbelow
  · exact fun h => ⟨true, h⟩

/-- Whether a tick loses the time of a record: the animation stood at minus infinity, and the tick
adds infinity to it; or it moves the time to infinity, in a looping state where nothing waits. -/
def LosesTime (r : Record) (dt : Single) (capacity : Nat) (source : SpriteSource) : Prop :=
  ∃ state shown, r.Shows capacity source state shown ∧
    ((shown.time = Single.infinity true ∧
        dt * (shown.speed capacity state).1 = Single.infinity false) ∨
      (shown.time + dt * (shown.speed capacity state).1 = Single.infinity false ∧
        state.looping ∧ r.pending = none))

/-- **A finite tick loses the time of a record exactly in these cases.** -/
theorem isNaN_step (hr : r.Timely) (hnumber : r.time.isNaN = false) (hdt : dt.isFinite) :
    (r.step dt capacity source).2.2.time.isNaN ↔ r.LosesTime dt capacity source := by
  cases hmoved : r.moved? dt capacity source with
  | none =>
    obtain ⟨failures, -, hstep⟩ := r.step_of_moved?_eq_none hmoved
    rw [hstep]
    refine iff_of_false (by simp [hnumber]) ?_
    rintro ⟨state, shown, hshows, -⟩
    rw [moved?_eq_some_iff.2 ⟨state, shown, hshows, rfl⟩] at hmoved
    cases hmoved
  | some m =>
    obtain ⟨state', failures, hstate', -, hstep⟩ := r.step_of_moved?_eq_some hmoved
    obtain ⟨state, shown, hshows, hm⟩ := moved?_eq_some_iff.1 hmoved
    obtain rfl := Option.some.inj (hshows.1.symm.trans hstate')
    have htime : m.time = shown.time + dt * (shown.speed capacity state).1 := by rw [hm]
    have hpending : m.pending = r.pending := by
      obtain ⟨animation, active, time, rfl⟩ := moved?_eq_some hmoved
      rfl
    rw [hstep]
    dsimp only
    rw [isNaN_finish (hr.showing.moved? hmoved).1, htime,
      hr.isNaN_moved hnumber hdt hshows, hpending]
    constructor
    · exact fun h => ⟨state, shown, hshows, h⟩
    · rintro ⟨state', shown', hshows', h⟩
      obtain ⟨rfl, rfl⟩ := hshows.unique hshows'
      exact h

/-- **A lost time stays lost**: a tick that goes on with the same animation leaves it no number and
does not come to the end of the animation. -/
theorem stuck_of_isNaN (hlost : r.time.isNaN) (hsame : r.Shows capacity source state r)
    (dt : Single) :
    (r.step dt capacity source).2.2.time.isNaN ∧ ¬ r.Overruns dt capacity source := by
  obtain ⟨m, hm⟩ : ∃ m : Record, m = { r with
      time := r.time + dt * (r.speed capacity state).1 } := ⟨_, rfl⟩
  have hmoved : r.moved? dt capacity source = some m :=
    moved?_eq_some_iff.2 ⟨state, r, hsame, hm⟩
  have hnan : m.time.isNaN := by
    rw [hm]
    exact Single.isNaN_add_of_isNaN hlost _
  have hends : ¬ m.animation.totalTime.less m.time := by
    intro hless
    rw [(Single.less_iff.1 hless).2.1] at hnan
    cases hnan
  constructor
  · obtain ⟨state', failures, -, -, hstep⟩ := r.step_of_moved?_eq_some hmoved
    rw [hstep, finish_of_not_less hends]
    exact hnan
  · rintro ⟨m', hmoved', hless⟩
    obtain rfl := Option.some.inj (hmoved.symm.trans hmoved')
    exact hends hless

end Record

/-! ## Calls -/

namespace Solo

variable {entity : EntityId} {r? : Option Record}

/-- Whether the time of an entity is a number, if it has a record. -/
def Numeric (r? : Option Record) : Prop := ∀ r, r? = some r → r.time.isNaN = false

/-- Requests leave times as they are, or begin at zero. -/
theorem Numeric.request (h : Numeric r?) (c : Call) : Numeric (request entity r? c).value := by
  have hact : ∀ f : Record → List Event × Record, (∀ r, (f r).2.time = r.time) →
      Numeric (act f r?).value := by
    intro f hf r hr
    cases r? with
    | none => cases hr
    | some r₀ =>
      obtain rfl := Option.some.inj hr
      rw [hf]
      exact h r₀ rfl
  cases c with
  | create other resource =>
    intro r hr
    rw [Solo.request, Logged.value_pure] at hr
    split at hr
    · obtain rfl := Option.some.inj hr
      have hzero : Single.zero.isNaN = false := by decide
      exact hzero
    · exact h r hr
  | destroy other =>
    intro r hr
    rw [Solo.request, Logged.value_pure] at hr
    split at hr
    · cases hr
    · exact h r hr
  | trigger other event =>
    rw [Solo.request]
    split
    · exact hact (fun r => (r.fire event).2) fun r => r.time_fire event
    · exact h
  | setVariable other index value =>
    rw [Solo.request]
    split
    · exact hact (fun r => ([], { r with vars := r.vars.set index.index value })) fun r => rfl
    · exact h
  | update | drainFrames => exact h

theorem Numeric.foldlM_request (h : Numeric r?) (cs : List Call) :
    Numeric (cs.foldlM (Solo.request entity) r?).value := by
  induction cs generalizing r? with
  | nil => exact h
  | cons c cs ih =>
    rw [List.foldlM_cons, Logged.value_bind]
    exact ih (h.request c)

end Solo

namespace Engine

variable {entity : EntityId} {settings : EngineSettings} {cs : List Call} {c : Call}

/-- Whether the time of an entity is a number, if it has a record. -/
def TellsTime (entity : EntityId) (e : Engine) : Prop :=
  ∀ time, e.elapsed? entity = some time → time.isNaN = false

/-- Whether a call is a tick that loses the time of an entity, once the requests of the tick were
applied. -/
def LosesTime (entity : EntityId) (e : Engine) (c : Call) : Prop :=
  ∃ dt inputs source r, c = .update dt inputs source ∧
    (e.requested inputs).record? entity = some r ∧ r.LosesTime dt e.settings.stackCapacity source

theorem losesTime_update {e : Engine} {dt : Single} {inputs : Inputs} {source : SpriteSource} :
    LosesTime entity e (.update dt inputs source) ↔
      ∃ r, (e.requested inputs).record? entity = some r ∧
        r.LosesTime dt e.settings.stackCapacity source := by
  constructor
  · rintro ⟨dt', inputs', source', r, hc, h⟩
    obtain ⟨rfl, rfl, rfl⟩ := Call.update.inj hc
    exact ⟨r, h⟩
  · rintro ⟨r, h⟩
    exact ⟨dt, inputs, source, r, rfl, h⟩

theorem tellsTime_iff_numeric (e : Engine) :
    TellsTime entity e ↔ Solo.Numeric (e.record? entity) := by
  rw [TellsTime, elapsed?]
  constructor
  · exact fun h r hr => h r.time (by rw [hr, Option.map_some])
  · intro h time htime
    obtain ⟨r, hr, rfl⟩ := Option.map_eq_some_iff.1 htime
    exact h r hr

/-- **A finite tick leaves the time of an entity a number exactly if it does not lose it.** -/
theorem tellsTime_update (h : TellsTime entity (after settings cs)) {dt : Single}
    (hdt : dt.isFinite) (inputs : Inputs) (source : SpriteSource) :
    TellsTime entity ((after settings cs).call (.update dt inputs source)).value
      ↔ ¬ LosesTime entity (after settings cs) (.update dt inputs source) := by
  have hafter := holds_after entity settings cs
  have hnumeric : Solo.Numeric (((after settings cs).requested inputs).record? entity) := by
    rw [tellsTime_iff_numeric, hafter.record] at h
    rw [(hafter.requested inputs).record]
    exact h.foldlM_request inputs.calls
  rw [tellsTime_iff_numeric, hafter.record?_update, losesTime_update, settings_after]
  cases hr : ((after settings cs).requested inputs).record? entity with
  | none => exact iff_of_true (fun r hr => by cases hr) (by simp)
  | some r =>
    have htimely : r.Timely := timely_of_record? (record?_requested settings cs inputs entity ▸ hr)
    have hstep : (r.step dt settings.stackCapacity source).2.2.time.isNaN ↔
        r.LosesTime dt settings.stackCapacity source :=
      Record.isNaN_step htimely (hnumeric r hr) hdt
    simp [Solo.Numeric, ← hstep]

/-- Calls other than ticks leave the time of an entity a number. -/
theorem tellsTime_call (h : TellsTime entity (after settings cs))
    (hc : ∀ dt inputs source, c ≠ .update dt inputs source) :
    TellsTime entity ((after settings cs).call c).value := by
  have hafter := holds_after entity settings cs
  rw [tellsTime_iff_numeric, hafter.record] at h
  have hrequest : ∀ r?,
      Solo.call entity settings.stackCapacity r? c = Solo.request entity r? c := by
    intro r?
    cases c with
    | update dt inputs source => exact absurd rfl (hc dt inputs source)
    | _ => rfl
  rw [tellsTime_iff_numeric, (hafter.call c).holds.record, hrequest]
  exact h.request c

/-- **The time of an entity stays a number exactly as long as no tick loses it**, where every tick
is finite. -/
theorem tellsTime_iff (settings : EngineSettings) (entity : EntityId) {cs : List Call}
    (h : ∀ dt inputs source, Call.update dt inputs source ∈ cs → dt.isFinite) :
    (∀ front, front <+: cs → TellsTime entity (after settings front)) ↔
      ∀ front c, front ++ [c] <+: cs → ¬ LosesTime entity (after settings front) c := by
  have hcall : ∀ front c, front ++ [c] <+: cs → TellsTime entity (after settings front) →
      (TellsTime entity (after settings (front ++ [c])) ↔
        ¬ LosesTime entity (after settings front) c) := by
    intro front c hbegins hfront
    have hafter : after settings (front ++ [c]) = ((after settings front).call c).value :=
      after_append ..
    rw [hafter]
    by_cases htick : ∃ dt inputs source, c = .update dt inputs source
    · obtain ⟨dt, inputs, source, rfl⟩ := htick
      exact tellsTime_update hfront (h dt inputs source (hbegins.subset (by simp))) inputs source
    · refine iff_of_true (tellsTime_call hfront fun dt inputs source hc => ?_) ?_
      · exact htick ⟨dt, inputs, source, hc⟩
      · rintro ⟨dt, inputs, source, r, hc, -⟩
        exact htick ⟨dt, inputs, source, hc⟩
  constructor
  · intro htells front c hbegins
    have hfront : front <+: cs := (List.prefix_append front [c]).trans hbegins
    exact (hcall front c hbegins (htells front hfront)).1 (htells _ hbegins)
  · intro hnever front
    induction front using List.reverseRecOn with
    | nil =>
      rintro - time htime
      rw [elapsed?, (holds_after entity settings []).record] at htime
      cases htime
    | append_singleton front c ih =>
      intro hbegins
      have hfront : front <+: cs := (List.prefix_append front [c]).trans hbegins
      exact (hcall front c hbegins (ih hfront)).2 (hnever front c hbegins)

/-- A machine of one looping state that plays at twice the speed. -/
def sprinter : Resource where
  size := 64
  header := ⟨1, 24, 0, 56, 2, 56⟩
  initialState := ⟨0⟩
  states := [⟨24, 0, true, [], [⟨⟨9⟩, 0⟩]⟩]
  variableNames := []
  defaultValues := []
  byteCode := [.push ⟨0x40000000⟩, .finish]

/-- The bytes of the sprinter. -/
def sprinterBytes : Blob :=
  (([1, 24, 0, 56, 2, 56] ++ [0, 1, 0, 1, 9, 0, 0, 0] ++ [0x40000000, 0x7fa00000] :
    List UInt32).flatMap wordBytes).toArray

/-- A sprinter, and ticks through an animation of one second. -/
def sprint (ticks : List Single) : List Call :=
  .create ⟨7⟩ sprinter :: ticks.map fun dt => .update dt {} fun _ => some ⟨[4, 5], Single.one⟩

theorem finite_of_mem_sprint {ticks : List Single} (h : ∀ dt ∈ ticks, dt.isFinite) :
    ∀ dt inputs source, Call.update dt inputs source ∈ sprint ticks → dt.isFinite := by
  intro dt inputs source hmem
  simp only [sprint, List.mem_cons, reduceCtorEq, List.mem_map, false_or] at hmem
  obtain ⟨dt', hdt', hcall⟩ := hmem
  obtain ⟨rfl, -, -⟩ := Call.update.inj hcall
  exact h dt' hdt'

theorem tellsTime_iff_sprint :
    (∀ dt inputs source, Call.update dt inputs source ∈ sprint [Single.one, ⟨0x3e800000⟩] →
      dt.isFinite) ∧
    ((∀ front, front <+: sprint [Single.one, ⟨0x3e800000⟩] →
        TellsTime ⟨7⟩ (after {} front)) ↔
      ∀ front c, front ++ [c] <+: sprint [Single.one, ⟨0x3e800000⟩] →
        ¬ LosesTime ⟨7⟩ (after {} front) c) := by
  have hfinite : ∀ dt inputs source,
      Call.update dt inputs source ∈ sprint [Single.one, ⟨0x3e800000⟩] → dt.isFinite :=
    finite_of_mem_sprint (by decide)
  exact ⟨hfinite, tellsTime_iff {} ⟨7⟩ hfinite⟩

/-- **Finite ticks lose the time of a sprinter**: the greatest finite number of seconds, doubled,
has no remainder by a second, and a quarter of a second later there is still no number. -/
theorem sprint_overflow : sprinter.Loaded ∧
    (∀ dt inputs source, Call.update dt inputs source ∈ sprint [⟨0x7f7fffff⟩, ⟨0x3e800000⟩] →
      dt.isFinite) ∧
    (after {} (sprint [⟨0x7f7fffff⟩])).elapsed? ⟨7⟩ = some Single.nan ∧
    (after {} (sprint [⟨0x7f7fffff⟩, ⟨0x3e800000⟩])).elapsed? ⟨7⟩ = some Single.nan := by
  refine ⟨⟨sprinterBytes, by decide +kernel⟩, finite_of_mem_sprint (by decide), ?_, ?_⟩
  · rw [elapsed?, (holds_after ⟨7⟩ {} _).record]
    decide +kernel
  · rw [elapsed?, (holds_after ⟨7⟩ {} _).record]
    decide +kernel

end Engine

end Flipbook.Machine
