import Flipbook.Proofs.Machine.Solo

/-!
# Proofs/Machine/Requests — requests of a tick as calls before it

Requests that come with a tick do what calls before the tick do (`update_alike_run`): none of them
looks at settings or at what the last tick reported (`run_calls_presenting`), so it does not matter
that a tick forgets its reports first and that calls leave them.  To an entity only those requests
matter that are about it (`Solo.foldlM_request_about`).
-/

namespace Flipbook.Machine

namespace Engine

/-! ## Settings and reports -/

/-- The engine with other settings and another report of the last tick. -/
def presenting (settings : EngineSettings → EngineSettings) (outputs : Outputs → Outputs)
    (e : Engine) : Engine :=
  { e with settings := settings e.settings, outputs := outputs e.outputs }

section Presenting

variable (settings : EngineSettings → EngineSettings) (outputs : Outputs → Outputs) (e : Engine)

theorem setRecord_presenting (entity : EntityId) (r : Record) :
    (e.presenting settings outputs).setRecord entity r
      = (e.setRecord entity r).presenting settings outputs := by
  have hindex : (e.presenting settings outputs).index = e.index := rfl
  rw [setRecord, setRecord, hindex]
  cases e.index[entity]? <;> rfl

/-- Creating does not look at settings and reports. -/
theorem call_create_presenting (entity : EntityId) (resource : Resource) :
    (e.presenting settings outputs).call (.create entity resource)
      = presenting settings outputs <$> e.call (.create entity resource) := by
  have hcontains : (e.presenting settings outputs).contains entity = e.contains entity := rfl
  simp only [call, create, hcontains, setRecord_presenting]
  split <;> rfl

/-- Destroying does not look at settings and reports. -/
theorem call_destroy_presenting (entity : EntityId) :
    (e.presenting settings outputs).call (.destroy entity)
      = presenting settings outputs <$> e.call (.destroy entity) := by
  have hindex : (e.presenting settings outputs).index = e.index := rfl
  rw [call, call]
  cases hslot : e.index[entity]? with
  | none => rw [destroy_of_none hslot, destroy_of_none (hindex ▸ hslot)]; rfl
  | some slot => simp only [destroy, hindex, hslot]; rfl

/-- Writing a variable does not look at settings and reports. -/
theorem call_setVariable_presenting (entity : EntityId) (index : VariableIndex) (value : Single) :
    (e.presenting settings outputs).call (.setVariable entity index value)
      = presenting settings outputs <$> e.call (.setVariable entity index value) := by
  have hrecord : (e.presenting settings outputs).record? entity = e.record? entity := rfl
  rw [call, call]
  cases hr : e.record? entity with
  | none => rw [setVariable_of_none hr, setVariable_of_none (hrecord.trans hr)]; rfl
  | some r =>
    rw [setVariable_of_some hr, setVariable_of_some (hrecord.trans hr), setRecord_presenting]
    split <;> rfl

/-- Raising an event does not look at settings and reports. -/
theorem call_trigger_presenting (entity : EntityId) (event : ShortHash) :
    (e.presenting settings outputs).call (.trigger entity event)
      = presenting settings outputs <$> e.call (.trigger entity event) := by
  have hrecord : (e.presenting settings outputs).record? entity = e.record? entity := rfl
  rw [call, call]
  cases hr : e.record? entity with
  | none => rw [trigger_of_none hr, trigger_of_none (hrecord.trans hr)]; rfl
  | some r =>
    rw [trigger_of_some hr, trigger_of_some (hrecord.trans hr), setRecord_presenting]
    exact Logged.ext rfl (by simp [Logged.notices_map])

/-- **Requests do not look at settings and reports.** -/
theorem run_calls_presenting (inputs : Inputs) :
    (e.presenting settings outputs).run inputs.calls
      = presenting settings outputs <$> e.run inputs.calls := by
  have hcalls : ∀ c ∈ inputs.calls, ∀ e : Engine,
      (e.presenting settings outputs).call c = presenting settings outputs <$> e.call c :=
    inputs.forall_mem_calls (fun entity e => e.call_destroy_presenting settings outputs entity)
      (fun entity index value e =>
        e.call_setVariable_presenting settings outputs entity index value)
      (fun entity event e => e.call_trigger_presenting settings outputs entity event)
  generalize inputs.calls = cs at hcalls ⊢
  induction cs generalizing e with
  | nil => rfl
  | cons c cs ih =>
    obtain ⟨hc, hcs⟩ := List.forall_mem_cons.1 hcalls
    rw [run_cons, run_cons, hc, map_bind, bind_map_left]
    exact bind_congr fun e => ih e hcs

end Presenting

/-- The engine with another report of the last tick. -/
def reporting (outputs : Outputs) (e : Engine) : Engine := { e with outputs }

variable (e : Engine)

/-- **Requests of a tick do what calls before the tick do**: destroying, then writing, then raising
events, one after the other and whether they are refused or not. -/
theorem update_alike_run (dt : Single) (inputs : Inputs) (source : SpriteSource) :
    Alike (e.update dt inputs source) (e.run (inputs.calls ++ [.update dt {} source])) := by
  have hrun : e.run (inputs.calls ++ [.update dt {} source])
      = (e.reporting {}).run inputs.calls >>= fun e => e.stepAll dt source := by
    have hrequests : (e.reporting {}).run inputs.calls = reporting {} <$> e.run inputs.calls :=
      e.run_calls_presenting id (fun _ => {}) inputs
    rw [run_append, hrequests, bind_map_left]
    exact bind_congr fun e => bind_pure _
  rw [hrun]
  exact (alike_applyInputs (e.reporting {}) inputs).bind fun e => .refl _

end Engine

/-! ## Requests about one entity -/

/-- The requests that are about an entity. -/
def Inputs.about (entity : EntityId) (inputs : Inputs) : Inputs where
  destroyed := inputs.destroyed.filter (· = entity)
  writes := inputs.writes.filter (·.entity = entity)
  triggers := inputs.triggers.filter (·.entity = entity)

/-- Whether a call is about an entity. -/
def Call.isAbout (entity : EntityId) : Call → Bool
  | .create other _ | .destroy other | .trigger other _ | .setVariable other .. => other = entity
  | .update .. | .drainFrames => false

theorem Inputs.calls_about (entity : EntityId) (inputs : Inputs) :
    (inputs.about entity).calls = inputs.calls.filter (Call.isAbout entity) := by
  simp only [calls, about, List.filter_append, List.filter_map]
  rfl

namespace Solo

variable {entity : EntityId}

/-- A call about another entity does nothing. -/
theorem request_of_not_isAbout {c : Call} (h : ¬ c.isAbout entity) (r? : Option Record) :
    request entity r? c = pure r? := by
  cases c <;> simp_all [request, Call.isAbout]

/-- **Only the requests about an entity matter to it.** -/
theorem foldlM_request_about (entity : EntityId) (inputs : Inputs) (r? : Option Record) :
    (inputs.about entity).calls.foldlM (request entity) r?
      = inputs.calls.foldlM (request entity) r? := by
  rw [inputs.calls_about, List.foldlM_filter]
  congr 1
  funext r? c
  split
  · rfl
  · rename_i hother
    exact (request_of_not_isAbout hother r?).symm

/-- A tick does the same to an entity wherever the requests about it are the same. -/
theorem call_update_congr {inputs inputs' : Inputs}
    (h : inputs.about entity = inputs'.about entity) (capacity : Nat) (r? : Option Record)
    (dt : Single) (source : SpriteSource) :
    call entity capacity r? (.update dt inputs source)
      = call entity capacity r? (.update dt inputs' source) := by
  simp only [call, ← foldlM_request_about entity inputs, ← foldlM_request_about entity inputs', h]

end Solo

end Flipbook.Machine
