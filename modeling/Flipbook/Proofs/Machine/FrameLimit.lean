import Flipbook.Proofs.Machine.Noninterference

/-!
# Proofs/Machine/FrameLimit — the limit of frames only filters what is reported

    e  ──call──▸  e'
    │limited      │limited
    ▾             ▾
    ·  ──call──▸  ·

`Engine.limited` lowers the limit of an engine and cuts what it reports, and nothing else.  This
square commutes (`Engine.call_limited`): a tick steps the records beyond the limit like all others.
So a lower limit cuts the frames that a run reports, and changes nothing else
(`Engine.onlyFilters_after`).
-/

namespace Flipbook.Machine.Engine

/-- The engine with a limit of frame changes, and no more of them than that. -/
def limited (n : Nat) (e : Engine) : Engine :=
  { e with
    settings := { e.settings with maxEventsPerTick := n }
    outputs := { e.outputs with frames := e.outputs.frames.take n } }

theorem limited_eq_presenting (n : Nat) : limited n
    = presenting (fun settings => { settings with maxEventsPerTick := n })
      fun outputs => { outputs with frames := outputs.frames.take n } :=
  rfl

section Square

variable {n : Nat} {e : Engine}

/-- Requests of a tick do not look at the limit. -/
theorem requested_limited (inputs : Inputs) :
    (e.limited n).requested inputs = (e.requested inputs).limited n := by
  have hcleared : { e.limited n with outputs := {} } = (e.reporting {}).limited n := by
    simp [limited, reporting]
  rw [requested, hcleared, (alike_applyInputs _ inputs).value, requested,
    (alike_applyInputs _ inputs).value, limited_eq_presenting, run_calls_presenting]
  rfl

/-- **Every call does the same under a lower limit**, but for the frames that it reports. -/
theorem call_limited (hn : n ≤ e.settings.maxEventsPerTick) (c : Call) :
    ((e.limited n).call c).value = (e.call c).value.limited n := by
  cases c with
  | create entity resource => rw [limited_eq_presenting, call_create_presenting]; rfl
  | destroy entity => rw [limited_eq_presenting, call_destroy_presenting]; rfl
  | trigger entity event => rw [limited_eq_presenting, call_trigger_presenting]; rfl
  | setVariable entity index value => rw [limited_eq_presenting, call_setVariable_presenting]; rfl
  | drainFrames => simp [call, drainFrames, limited]
  | update dt inputs source =>
    have hupdate : ∀ e : Engine, (e.call (.update dt inputs source)).value
        = ((e.requested inputs).stepAll dt source).value := fun _ => rfl
    rw [hupdate, hupdate, requested_limited]
    have hlimit : min n (e.requested inputs).settings.maxEventsPerTick = n := by
      rw [settings_requested]
      exact Nat.min_eq_left hn
    simp [stepAll, limited, List.take_take, hlimit]

/-- **Calls do the same under a lower limit**, but for the frames that they report. -/
theorem run_limited (hn : n ≤ e.settings.maxEventsPerTick) (cs : List Call) :
    ((e.limited n).run cs).value = (e.run cs).value.limited n := by
  induction cs generalizing e with
  | nil => rfl
  | cons c cs ih =>
    rw [run_cons, run_cons, Logged.value_bind, Logged.value_bind, call_limited hn]
    exact ih ((settings_call e c).symm ▸ hn)

end Square

/-! ## What a tick reports -/

/-- Whether the reported frames are of entities that have a record, each at most once and in the
order of the records. -/
structure ReportsRecords (e : Engine) : Prop where
  live : ∀ change ∈ e.outputs.frames, e.contains change.entity
  once : (e.outputs.frames.map FrameChange.entity).Nodup
  ordered : (e.outputs.frames.map FrameChange.entity).Sublist (e.records.toList.map Record.entity)

/-- Frames are shown in the order of the records. -/
theorem shownFrames_sublist (e : Engine) (dt : Single) (inputs : Inputs) (source : SpriteSource) :
    ((e.shownFrames dt inputs source).map FrameChange.entity).Sublist
      ((e.update dt inputs source).value.records.toList.map Record.entity) := by
  have hrecords : (e.update dt inputs source).value.records.toList.map Record.entity
      = (e.requested inputs).records.toList.map Record.entity := by
    have hstep : (e.update dt inputs source).value.records
        = ((e.requested inputs).stepAll dt source).value.records := rfl
    rw [hstep, records_stepAll, Array.toList_map, List.map_map]
    exact List.map_congr_left fun r _ => (r.sameMachine_step ..).entity
  rw [hrecords, shownFrames, List.map_filterMap]
  generalize (e.requested inputs).records.toList = rs
  induction rs with
  | nil => exact .slnil
  | cons r rs ih =>
    rw [List.map_cons, List.filterMap_cons]
    cases (r.step dt e.settings.stackCapacity source).1 with
    | none => exact ih.cons _
    | some frame => exact ih.cons_cons _

/-- **A tick reports frames of its records alone**, in their order. -/
theorem reportsRecords_update {e : Engine} (h : e.Indexed) (dt : Single) (inputs : Inputs)
    (source : SpriteSource) : ReportsRecords (e.call (.update dt inputs source)).value := by
  have hindexed := h.call (.update dt inputs source)
  have hordered : ((e.call (.update dt inputs source)).value.outputs.frames.map
        FrameChange.entity).Sublist
      ((e.call (.update dt inputs source)).value.records.toList.map Record.entity) := by
    rw [call, frames_update]
    exact ((List.take_sublist _ _).map _).trans (e.shownFrames_sublist dt inputs source)
  refine ⟨fun change hchange => ?_, hindexed.nodup.sublist hordered, hordered⟩
  obtain ⟨r, hr, hentity⟩ := List.mem_map.1 (hordered.subset (List.mem_map_of_mem hchange))
  rw [hindexed.contains_eq, hindexed.record?_eq_some.2 ⟨Array.mem_toList_iff.1 hr, hentity⟩]
  rfl

/-! ## Two limits -/

/-- A new engine with a lower limit leads to what the higher one leads to, with the frames cut. -/
theorem after_limited (settings : EngineSettings) {n : Nat} (hn : n ≤ settings.maxEventsPerTick)
    (cs : List Call) :
    after { settings with maxEventsPerTick := n } cs = (after settings cs).limited n := by
  have hnew : new { settings with maxEventsPerTick := n } = (new settings).limited n := by
    simp [new, limited]
  rw [after, hnew, run_limited hn, after]

/-- What calls lead to under a lower limit, compared with what they lead to. -/
structure OnlyFilters (n : Nat) (cs : List Call) (low high : Engine) : Prop where
  records : low.records = high.records
  index : low.index = high.index
  backlog : low.backlog = high.backlog
  events : low.outputs.events = high.outputs.events
  /-- As many of the first frames are reported as there are, or as may be. -/
  frames : low.outputs.frames = high.outputs.frames.take (min n high.outputs.frames.length)
  /-- What the last call reports, if it was a tick, is of the records. -/
  reports : ∀ before dt inputs source, cs = before ++ [.update dt inputs source] →
    low.ReportsRecords ∧ high.ReportsRecords

/-- A run that ends with a tick reports frames of its records alone. -/
theorem reportsRecords_after (settings : EngineSettings) (cs : List Call) (dt : Single)
    (inputs : Inputs) (source : SpriteSource) :
    (after settings (cs ++ [.update dt inputs source])).ReportsRecords := by
  rw [after_append]
  exact reportsRecords_update (indexed_after settings cs) dt inputs source

/-- **A lower limit only filters the frames that are reported**: whatever is called, records, index,
backlog and events are those of a higher limit. -/
theorem onlyFilters_after (settings : EngineSettings) {n : Nat}
    (hn : n ≤ settings.maxEventsPerTick) (cs : List Call) :
    OnlyFilters n cs (after { settings with maxEventsPerTick := n } cs)
      (after settings cs) where
  records := by rw [after_limited settings hn]; rfl
  index := by rw [after_limited settings hn]; rfl
  backlog := by rw [after_limited settings hn]; rfl
  events := by rw [after_limited settings hn]; rfl
  frames := by
    rw [after_limited settings hn, ← List.take_eq_take_min]
    rfl
  reports before dt inputs source hcs := by
    subst hcs
    exact ⟨reportsRecords_after _ before dt inputs source,
      reportsRecords_after settings before dt inputs source⟩

/-- Two doors, a tick that shows both, and one that destroys the first. -/
def twoDoorCalls : List Call :=
  [.create ⟨7⟩ door, .create ⟨8⟩ door,
    .update Single.one {} fun _ => some ⟨[4], Single.one⟩,
    .update Single.one { destroyed := [⟨7⟩] } fun _ => some ⟨[4], Single.one⟩]

theorem onlyFilters_after_twoDoors : 1 ≤ ({} : EngineSettings).maxEventsPerTick ∧
    OnlyFilters 1 twoDoorCalls (after { maxEventsPerTick := 1 } twoDoorCalls)
      (after {} twoDoorCalls) :=
  ⟨by decide, onlyFilters_after {} (by decide) twoDoorCalls⟩

end Flipbook.Machine.Engine
