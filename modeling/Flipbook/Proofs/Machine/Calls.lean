import Flipbook.Proofs.Machine.Table
import Flipbook.Proofs.Steps
import Mathlib.Data.Set.Card

/-!
# Proofs/Machine/Calls — runs of an engine

A host drives an engine by calls, in any order: `Engine.after` is the engine that they lead to.
Through all of them the table of records is a map from entities to records (`refinesMap_after`), and
the events that were raised are those that the ticks have reported and those that wait for the next
one, each of them once and in order (`published_append_backlog`).
-/

namespace Flipbook.Machine

/-! ## Events on the way -/

/-- The event that a notice tells of. -/
def Notice.event? : Notice → Option Event
  | .switched entity source target => some (.stateChanged entity source target)
  | .failed entity reason => some (.evaluationFailed entity reason)
  | _ => none

@[simp] theorem Event.event?_notice (event : Event) : event.notice.event? = some event := by
  cases event <;> rfl

/-- The events that are raised on the way to a result. -/
def raised {α : Type} (x : WithNotices α) : List Event := x.notices.filterMap Notice.event?

@[simp] theorem raised_pure {α : Type} (a : α) : raised (pure a) = [] := rfl

@[simp] theorem raised_bind {α β : Type} (x : WithNotices α) (f : α → WithNotices β) :
    raised (x >>= f) = raised x ++ raised (f x.value) :=
  List.filterMap_append

@[simp] theorem filterMap_event?_map_notice (events : List Event) :
    (events.map Event.notice).filterMap Notice.event? = events := by
  rw [List.filterMap_map]
  simp

/-- Whether two results are the same, and the same events are raised on the way to them. -/
structure Alike {α : Type} (x y : WithNotices α) : Prop where
  value : x.value = y.value
  raised : raised x = raised y

theorem Alike.refl {α : Type} (x : WithNotices α) : Alike x x := ⟨rfl, rfl⟩

theorem Alike.bind {α β : Type} {x y : WithNotices α} {f g : α → WithNotices β} (hx : Alike x y)
    (hf : ∀ a, Alike (f a) (g a)) : Alike (x >>= f) (y >>= g) where
  value := by rw [Logged.value_bind, Logged.value_bind, hx.value, (hf _).value]
  raised := by rw [raised_bind, raised_bind, hx.raised, hx.value, (hf _).raised]

/-- Steps that are alike one by one are alike together. -/
theorem Alike.foldlM {σ α β : Type} {step : σ → α → WithNotices σ} {step' : σ → β → WithNotices σ}
    {f : α → β} (hstep : ∀ s a, Alike (step s a) (step' s (f a))) (xs : List α) (s : σ) :
    Alike (xs.foldlM step s) ((xs.map f).foldlM step' s) := by
  induction xs generalizing s with
  | nil => exact .refl _
  | cons x xs ih =>
    rw [List.map_cons, List.foldlM_cons, List.foldlM_cons]
    exact (hstep s x).bind ih

/-! ## Calls -/

/-- What a host may ask of an engine. -/
inductive Call where
  | create (entity : EntityId) (resource : Resource)
  | destroy (entity : EntityId)
  | trigger (entity : EntityId) (event : ShortHash)
  | setVariable (entity : EntityId) (index : VariableIndex) (value : Single)
  | update (dt : Single) (inputs : Inputs) (source : SpriteSource)
  | drainFrames

/-- Requests as calls. -/
def Inputs.calls (inputs : Inputs) : List Call :=
  inputs.destroyed.map .destroy
    ++ inputs.writes.map (fun w => .setVariable w.entity w.index w.value)
    ++ inputs.triggers.map fun t => .trigger t.entity t.event

/-- Requests are calls that destroy, write a variable or raise an event. -/
theorem Inputs.forall_mem_calls {P : Call → Prop} (inputs : Inputs)
    (hdestroy : ∀ entity, P (.destroy entity))
    (hset : ∀ entity index value, P (.setVariable entity index value))
    (htrigger : ∀ entity event, P (.trigger entity event)) : ∀ c ∈ inputs.calls, P c := by
  intro c hc
  simp only [Inputs.calls, List.mem_append, List.mem_map] at hc
  rcases hc with (⟨entity, -, rfl⟩ | ⟨w, -, rfl⟩) | ⟨t, -, rfl⟩
  · exact hdestroy entity
  · exact hset w.entity w.index w.value
  · exact htrigger t.entity t.event

namespace Engine

/-- What an engine becomes by a call; one that is refused leaves it as it is. -/
def call (e : Engine) : Call → WithNotices Engine
  | .create entity resource => e.create entity resource
  | .destroy entity => Prod.snd <$> e.destroy entity
  | .trigger entity event => Prod.snd <$> e.trigger entity event
  | .setVariable entity index value => pure ((e.setVariable entity index value).toOption.getD e)
  | .update dt inputs source => e.update dt inputs source
  | .drainFrames => pure e.drainFrames.2

/-- What an engine becomes by calls, one after the other. -/
def run (e : Engine) (calls : List Call) : WithNotices Engine := calls.foldlM call e

/-- The engine that calls lead to. -/
def after (settings : EngineSettings) (calls : List Call) : Engine :=
  ((new settings).run calls).value

@[simp] theorem run_nil (e : Engine) : e.run [] = pure e := rfl

@[simp] theorem run_cons (e : Engine) (c : Call) (cs : List Call) :
    e.run (c :: cs) = e.call c >>= fun e => e.run cs :=
  List.foldlM_cons

theorem run_append (e : Engine) (cs ds : List Call) :
    e.run (cs ++ ds) = e.run cs >>= fun e => e.run ds :=
  List.foldlM_append

theorem after_append (settings : EngineSettings) (cs ds : List Call) :
    after settings (cs ++ ds) = ((after settings cs).run ds).value := by
  rw [after, run_append, Logged.value_bind, after]

theorem alike_applyDestroy (e : Engine) (entity : EntityId) :
    Alike (e.applyDestroy entity) (e.call (.destroy entity)) := by
  rw [applyDestroy, call]
  rcases e.destroy entity with ⟨⟨_ | _, e'⟩, notices⟩
  · exact ⟨rfl, by simp [raised, Logged.note, Notice.event?, Functor.map]⟩
  · exact ⟨rfl, by simp [raised, Functor.map]⟩

theorem alike_applyWrite (e : Engine) (w : VariableWrite) :
    Alike (e.applyWrite w) (e.call (.setVariable w.entity w.index w.value)) := by
  rw [applyWrite, call]
  cases e.setVariable w.entity w.index w.value with
  | error error => exact ⟨rfl, rfl⟩
  | ok e' => exact .refl _

theorem alike_applyTrigger (e : Engine) (t : Trigger) :
    Alike (e.applyTrigger t) (e.call (.trigger t.entity t.event)) := by
  rw [applyTrigger, call]
  rcases e.trigger t.entity t.event with ⟨⟨_ | _, e'⟩, notices⟩
  · exact ⟨rfl, by simp [raised, Logged.note, Notice.event?, Functor.map]⟩
  · exact ⟨rfl, by simp [raised, Functor.map]⟩

/-- **Requests are applied as if they were calls.** -/
theorem alike_applyInputs (e : Engine) (inputs : Inputs) :
    Alike (e.applyInputs inputs) (e.run inputs.calls) := by
  rw [Inputs.calls, List.append_assoc, run_append]
  refine (Alike.foldlM alike_applyDestroy _ _).bind fun e => ?_
  rw [run_append]
  exact (Alike.foldlM alike_applyWrite _ _).bind (Alike.foldlM alike_applyTrigger _)

/-- The events that a trigger raises are those of the record. -/
theorem raised_trigger (e : Engine) (entity : EntityId) (event : ShortHash) :
    raised (e.call (.trigger entity event))
      = ((e.record? entity).map fun r => (r.fire event).2.1).getD [] := by
  rw [call]
  cases hr : e.record? entity with
  | none => simp [trigger_of_none hr, raised, Functor.map]
  | some r => simp [trigger_of_some hr, raised, Functor.map]

theorem raised_create (e : Engine) (entity : EntityId) (resource : Resource) :
    raised (e.call (.create entity resource)) = [] := by
  rw [call, create]
  split <;> rfl

theorem raised_destroy (e : Engine) (entity : EntityId) :
    raised (e.call (.destroy entity)) = [] := by
  rw [call]
  cases hslot : e.index[entity]? with
  | none => simp [destroy_of_none hslot, raised, Functor.map]
  | some slot => simp [destroy, hslot, raised, Notice.event?, Functor.map]

/-! ## Calls between ticks -/

@[simp] theorem settings_setRecord (e : Engine) (entity : EntityId) (r : Record) :
    (e.setRecord entity r).settings = e.settings := by
  unfold setRecord
  split <;> rfl

@[simp] theorem backlog_setRecord (e : Engine) (entity : EntityId) (r : Record) :
    (e.setRecord entity r).backlog = e.backlog := by
  unfold setRecord
  split <;> rfl

/-- Whether a step keeps the table and the index fitting and the settings as they are, and its
events wait behind those that waited before. -/
structure Orderly (e : Engine) (x : WithNotices Engine) : Prop where
  indexed : e.Indexed → x.value.Indexed
  settings : x.value.settings = e.settings
  backlog : x.value.backlog = e.backlog ++ raised x

namespace Orderly

variable {e : Engine} {x y : WithNotices Engine}

theorem congr (h : Orderly e y) (hxy : Alike x y) : Orderly e x where
  indexed := hxy.value ▸ h.indexed
  settings := hxy.value ▸ h.settings
  backlog := by rw [hxy.value, hxy.raised, h.backlog]

theorem pure (e : Engine) : Orderly e (Pure.pure e) :=
  ⟨id, rfl, (List.append_nil _).symm⟩

theorem bind (e : Engine) (x : WithNotices Engine) (f : Engine → WithNotices Engine)
    (hx : Orderly e x) (hf : Orderly x.value (f x.value)) : Orderly e (x >>= f) where
  indexed h := hf.indexed (hx.indexed h)
  settings := hf.settings.trans hx.settings
  backlog := by
    rw [raised_bind, Logged.value_bind, hf.backlog, hx.backlog, List.append_assoc]

theorem create (e : Engine) (entity : EntityId) (resource : Resource) :
    Orderly e (e.call (.create entity resource)) := by
  refine ⟨fun h => h.create entity resource, ?_, ?_⟩
  · rw [call, Engine.create]
    split <;> simp
  · rw [raised_create, call, Engine.create]
    split <;> simp

theorem destroy (e : Engine) (entity : EntityId) : Orderly e (e.call (.destroy entity)) := by
  refine ⟨fun h => h.destroy entity, ?_, ?_⟩
  · rw [call]
    cases hslot : e.index[entity]? with
    | none => rw [destroy_of_none hslot]; rfl
    | some slot => simp [Engine.destroy, hslot]
  · rw [raised_destroy, List.append_nil, call]
    cases hslot : e.index[entity]? with
    | none => rw [destroy_of_none hslot]; rfl
    | some slot => simp [Engine.destroy, hslot]

theorem trigger (e : Engine) (entity : EntityId) (event : ShortHash) :
    Orderly e (e.call (.trigger entity event)) := by
  refine ⟨fun h => h.trigger entity event, ?_, ?_⟩
  · rw [call]
    cases hr : e.record? entity with
    | none => rw [trigger_of_none hr]; rfl
    | some r => simp [trigger_of_some hr]
  · rw [raised_trigger, call]
    cases hr : e.record? entity with
    | none => simp [trigger_of_none hr]
    | some r => simp [trigger_of_some hr]

theorem setVariable (e : Engine) (entity : EntityId) (index : VariableIndex) (value : Single) :
    Orderly e (e.call (.setVariable entity index value)) := by
  rw [call]
  cases hset : e.setVariable entity index value with
  | error error => exact pure e
  | ok e' =>
    refine ⟨fun h => h.setVariable hset, ?_, ?_⟩ <;> cases hr : e.record? entity with
    | none => simp [setVariable_of_none hr] at hset
    | some r =>
      rw [setVariable_of_some hr] at hset
      split at hset
      · obtain rfl := Except.ok.inj hset
        simp [Except.toOption]
      · cases hset

theorem drainFrames (e : Engine) : Orderly e (e.call .drainFrames) :=
  ⟨id, rfl, (List.append_nil _).symm⟩

/-- **Requests are applied in order.** -/
theorem applyInputs (e : Engine) (inputs : Inputs) : Orderly e (e.applyInputs inputs) := by
  refine congr ?_ (e.alike_applyInputs inputs)
  exact Logged.foldlM_rel pure bind (inputs.forall_mem_calls (fun entity e => destroy e entity)
    (fun entity index value e => setVariable e entity index value)
    (fun entity event e => trigger e entity event)) e

end Orderly

/-! ## Ticks -/

theorem raised_stepAll (e : Engine) (dt : Single) (source : SpriteSource) :
    raised (e.stepAll dt source)
      = e.records.toList.flatMap fun r => (r.step dt e.settings.stackCapacity source).2.1 := by
  have hdropped : ∀ limit count, (droppedNotice limit count).filterMap Notice.event? = [] := by
    intro limit count
    unfold droppedNotice
    split <;> rfl
  simp only [raised, stepAll, List.filterMap_append, filterMap_event?_map_notice, hdropped,
    List.append_nil, List.flatMap_map]

/-- **A tick reports the events that waited, and then those of the records.** -/
theorem events_stepAll (e : Engine) (dt : Single) (source : SpriteSource) :
    (e.stepAll dt source).value.outputs.events = e.backlog ++ raised (e.stepAll dt source) := by
  rw [raised_stepAll]
  simp only [stepAll, List.flatMap_map]

/-- Requests of a tick are applied in order. -/
theorem Orderly.applyInputs_update (e : Engine) (inputs : Inputs) :
    Orderly e ({ e with outputs := {} }.applyInputs inputs) := by
  have h := Orderly.applyInputs { e with outputs := {} } inputs
  exact ⟨h.indexed, h.settings, h.backlog⟩

/-! ## All calls -/

variable {e : Engine}

theorem Indexed.call (h : e.Indexed) (c : Call) : (e.call c).value.Indexed := by
  cases c with
  | create entity resource => exact (Orderly.create e entity resource).indexed h
  | destroy entity => exact (Orderly.destroy e entity).indexed h
  | trigger entity event => exact (Orderly.trigger e entity event).indexed h
  | setVariable entity index value => exact (Orderly.setVariable e entity index value).indexed h
  | update dt inputs source =>
    exact ((Orderly.applyInputs_update e inputs).indexed h).stepAll dt source
  | drainFrames => exact h

theorem settings_call (e : Engine) (c : Call) : (e.call c).value.settings = e.settings := by
  cases c with
  | create entity resource => exact (Orderly.create e entity resource).settings
  | destroy entity => exact (Orderly.destroy e entity).settings
  | trigger entity event => exact (Orderly.trigger e entity event).settings
  | setVariable entity index value => exact (Orderly.setVariable e entity index value).settings
  | update dt inputs source => exact (Orderly.applyInputs_update e inputs).settings
  | drainFrames => rfl

/-- The table and the index fit after calls. -/
theorem Indexed.run (h : e.Indexed) (cs : List Call) : (e.run cs).value.Indexed := by
  induction cs generalizing e with
  | nil => exact h
  | cons c cs ih => rw [run_cons]; exact ih (h.call c)

theorem settings_run (e : Engine) (cs : List Call) : (e.run cs).value.settings = e.settings := by
  induction cs generalizing e with
  | nil => rfl
  | cons c cs ih => rw [run_cons]; exact (ih _).trans (settings_call e c)

theorem indexed_after (settings : EngineSettings) (cs : List Call) :
    (after settings cs).Indexed :=
  (indexed_new settings).run cs

@[simp] theorem settings_after (settings : EngineSettings) (cs : List Call) :
    (after settings cs).settings = settings :=
  settings_run _ cs

/-! ## Events -/

/-- The events that a call reports; only ticks report any. -/
def reported (e : Engine) : Call → List Event
  | .update dt inputs source => (e.update dt inputs source).value.outputs.events
  | _ => []

/-- The events that calls report, one after the other. -/
def published (e : Engine) : List Call → List Event
  | [] => []
  | c :: cs => e.reported c ++ (e.call c).value.published cs

/-- A call reports events that waited or that it raises, and leaves the others waiting. -/
theorem reported_append_backlog (e : Engine) (c : Call) :
    e.reported c ++ (e.call c).value.backlog = e.backlog ++ raised (e.call c) := by
  cases c with
  | create entity resource => exact (Orderly.create e entity resource).backlog
  | destroy entity => exact (Orderly.destroy e entity).backlog
  | trigger entity event => exact (Orderly.trigger e entity event).backlog
  | setVariable entity index value => exact (Orderly.setVariable e entity index value).backlog
  | update dt inputs source =>
    have hinputs := (Orderly.applyInputs_update e inputs).backlog
    have hnone : ((e.update dt inputs source).value).backlog = [] := rfl
    rw [call, hnone, List.append_nil, reported, update, Logged.value_bind, events_stepAll,
      raised_bind, hinputs, List.append_assoc]
  | drainFrames => exact (Orderly.drainFrames e).backlog

/-- **What was raised is what was reported and what still waits**, each event once and in order. -/
theorem published_append_backlog (e : Engine) (cs : List Call) :
    e.published cs ++ (e.run cs).value.backlog = e.backlog ++ raised (e.run cs) := by
  induction cs generalizing e with
  | nil => rw [run_nil, raised_pure, List.append_nil]; rfl
  | cons c cs ih =>
    rw [published, run_cons, Logged.value_bind, raised_bind, List.append_assoc, ih,
      ← List.append_assoc, reported_append_backlog, List.append_assoc]

/-! ## The map of records -/

/-- **A variable that is written changes the record of its entity**, and no other record; where
there is no such variable nothing changes. -/
theorem Indexed.record?_call_setVariable (h : e.Indexed) (entity : EntityId) (index : VariableIndex)
    (value : Single) : (e.call (.setVariable entity index value)).value.record? =
      Function.update e.record? entity ((e.record? entity).map fun r =>
        { r with vars := r.vars.set index.index value }) := by
  rw [Engine.call, Logged.value_pure]
  cases hr : e.record? entity with
  | none =>
    rw [setVariable_of_none hr, Option.map_none, ← hr, Function.update_eq_self]
    rfl
  | some r =>
    rw [setVariable_of_some hr]
    split
    · have hentity := h.entity_of_record? hr
      exact h.record?_setRecord (hr ▸ rfl) hentity
    · rename_i hindex
      have hsame : r.vars.set index.index value = r.vars :=
        List.set_eq_of_length_le (Nat.le_of_not_lt hindex)
      rw [Option.map_some, hsame, ← hr, Function.update_eq_self]
      rfl

/-- The table has as many records as there are entities. -/
theorem Indexed.ncard_contains (h : e.Indexed) : {entity | e.contains entity}.ncard = e.size := by
  have hkeys : {entity | e.contains entity}
      = ((e.records.toList.map Record.entity).toFinset : Set EntityId) := by
    ext entity
    rw [Set.mem_ofPred_eq, h.contains_eq, Option.isSome_iff_exists]
    simp [h.record?_eq_some]
  rw [hkeys, Set.ncard_coe_finset, List.toFinset_card_of_nodup h.nodup, List.length_map,
    Array.length_toList, size]

/-- Whether the table of an engine is a map from entities to records on which each operation acts at
one entity. -/
structure RefinesMap (e : Engine) : Prop where
  /-- The index gives exactly the places of the entities in the table. -/
  index : ∀ entity slot, e.index[entity]? = some slot ↔
    ∃ h : slot < e.records.size, e.records[slot].entity = entity
  /-- No entity occurs twice. -/
  nodup : (e.records.toList.map Record.entity).Nodup
  /-- There are as many records as entities. -/
  size : {entity | e.contains entity}.ncard = e.size
  /-- Creating gives an entity a fresh record. -/
  create : ∀ entity resource, (e.create entity resource).value.record?
    = Function.update e.record? entity (some (Record.start entity resource))
  /-- Destroying takes the record of an entity away. -/
  destroy : ∀ entity, (e.destroy entity).value.2.record? = Function.update e.record? entity none
  /-- Destroying tells whether there was a record. -/
  destroyed : ∀ entity, (e.destroy entity).value.1 = (e.record? entity).isSome
  /-- Writing a variable changes the record of an entity at most. -/
  setVariable : ∀ entity index value, (e.call (.setVariable entity index value)).value.record?
    = Function.update e.record? entity ((e.record? entity).map fun r =>
        { r with vars := r.vars.set index.index value })
  /-- A write that fails changes nothing. -/
  setVariable_error : ∀ entity index value error, e.setVariable entity index value = .error error →
    (e.call (.setVariable entity index value)).value = e
  /-- Raising an event changes the record of an entity at most. -/
  trigger : ∀ entity event, (e.trigger entity event).value.2.record?
    = Function.update e.record? entity ((e.record? entity).map fun r => (r.fire event).2.2)
  /-- An event that fails changes nothing. -/
  trigger_error : ∀ entity event error, (e.trigger entity event).value.1 = .error error →
    (e.trigger entity event).value.2 = e

/-- **After any calls the table of an engine is a map from entities to records.** -/
theorem refinesMap_after (settings : EngineSettings) (cs : List Call) :
    (after settings cs).RefinesMap := by
  have h := indexed_after settings cs
  generalize after settings cs = e at h
  refine ⟨fun entity slot => ?_, h.nodup, h.ncard_contains, h.record?_create, h.record?_destroy,
    h.destroy_fst, h.record?_call_setVariable, ?_, h.record?_trigger, ?_⟩
  · rw [h entity slot, Option.map_eq_some_iff]
    simp only [Array.getElem?_eq_some_iff]
    exact ⟨fun ⟨_, ⟨hlt, hr⟩, hentity⟩ => ⟨hlt, hr ▸ hentity⟩,
      fun ⟨hlt, hentity⟩ => ⟨_, ⟨hlt, rfl⟩, hentity⟩⟩
  · intro entity index value error herror
    rw [call, herror]
    rfl
  · intro entity event error herror
    cases hr : e.record? entity with
    | none => rw [trigger_of_none hr]
    | some r =>
      rw [trigger_of_some hr] at herror
      cases herror

end Engine

end Flipbook.Machine
