import Flipbook.Proofs.Machine.Calls

/-!
# Proofs/Machine/Solo — one entity by itself

What an engine does to one entity depends on the calls and on the record of that entity alone.
`Solo.run` computes it from them, without the table and the other records, and `Engine.Holds.run`
says that an engine which takes the same calls holds the same record and raises the same events
about the entity.  So what holds of all that can happen to one record (`Record.Evolution`) holds of
every record of an engine, from the call on that created it (`Engine.exists_created`).
-/

namespace Flipbook.Machine

/-- The record of one entity, if it has one, and the events raised on the way to it. -/
abbrev Solo := Logged Event (Option Record)

namespace Solo

variable (entity : EntityId) (capacity : Nat)

/-- Lets the record act, if there is one. -/
def act (f : Record → List Event × Record) : Option Record → Solo
  | none => pure none
  | some r => ⟨some (f r).2, (f r).1⟩

/-- What a call between ticks does to the entity. -/
def request (r? : Option Record) : Call → Solo
  | .create other resource =>
    pure (if other = entity then some (Record.start other resource) else r?)
  | .destroy other => pure (if other = entity then none else r?)
  | .trigger other event => if other = entity then act (fun r => (r.fire event).2) r? else pure r?
  | .setVariable other index value =>
    if other = entity then act (fun r => ([], { r with vars := r.vars.set index.index value })) r?
    else pure r?
  | .update .. | .drainFrames => pure r?

/-- What a tick does to the entity once requests were applied. -/
def tick (dt : Single) (source : SpriteSource) (r? : Option Record) : Solo :=
  act (fun r => (r.step dt capacity source).2) r?

/-- What a call does to the entity. -/
def call (r? : Option Record) : Call → Solo
  | .update dt inputs source => do
    tick capacity dt source (← inputs.calls.foldlM (request entity) r?)
  | c => request entity r? c

/-- What calls do to the entity, one after the other. -/
def run (r? : Option Record) (cs : List Call) : Solo := cs.foldlM (call entity capacity) r?

end Solo

/-! ## What happens to a record -/

/-- Whether a call gives an entity a new record. -/
def Call.creates (entity : EntityId) : Call → Bool
  | .create other _ => other = entity
  | _ => false

theorem Call.creates_eq_true {entity : EntityId} {c : Call} :
    c.creates entity = true ↔ ∃ resource, c = .create entity resource := by
  constructor
  · intro h
    cases c with
    | create other resource =>
      obtain rfl := of_decide_eq_true h
      exact ⟨resource, rfl⟩
    | _ => cases h
  · rintro ⟨resource, rfl⟩
    exact decide_eq_true rfl

/-- Whether a relation between a record, the events raised and the record after them holds of all
that can happen to a record. -/
structure Record.Evolution (R : Record → List Event → Record → Prop) : Prop where
  refl : ∀ r, R r [] r
  trans : ∀ r xs r' ys r'', R r xs r' → R r' ys r'' → R r (xs ++ ys) r''
  fire : ∀ r event, R r (r.fire event).2.1 (r.fire event).2.2
  write : ∀ r i value, R r [] { r with vars := r.vars.set i value }
  step : ∀ r dt capacity source,
    R r (r.step dt capacity source).2.1 (r.step dt capacity source).2.2

/-- Two relations that hold of all that can happen hold together. -/
theorem Record.Evolution.and {R Q : Record → List Event → Record → Prop} (hR : Evolution R)
    (hQ : Evolution Q) : Evolution fun r events r' => R r events r' ∧ Q r events r' where
  refl r := ⟨hR.refl r, hQ.refl r⟩
  trans _ _ _ _ _ h h' := ⟨hR.trans _ _ _ _ _ h.1 h'.1, hQ.trans _ _ _ _ _ h.2 h'.2⟩
  fire r event := ⟨hR.fire r event, hQ.fire r event⟩
  write r i value := ⟨hR.write r i value, hQ.write r i value⟩
  step r dt capacity source := ⟨hR.step r dt capacity source, hQ.step r dt capacity source⟩

namespace Solo

variable {entity : EntityId} {R : Record → List Event → Record → Prop}

/-- Whether a record becomes a related one, and where there is none there is none afterwards. -/
structure Follows (R : Record → List Event → Record → Prop) (f : Option Record → Solo) : Prop where
  absent : (f none).value = none
  related : ∀ r r' : Record, (f (some r)).value = some r' → R r (f (some r)).notices r'

namespace Follows

variable {f g : Option Record → Solo}

theorem pure (hR : Record.Evolution R) : Follows R Pure.pure where
  absent := rfl
  related r r' heq := by
    obtain rfl := Option.some.inj heq
    exact hR.refl r

theorem bind (hR : Record.Evolution R) (hf : Follows R f) (hg : Follows R g) :
    Follows R fun r? => f r? >>= g where
  absent := by rw [Logged.value_bind, hf.absent, hg.absent]
  related r r'' heq := by
    rw [Logged.value_bind] at heq
    rw [Logged.notices_bind]
    cases hmid : (f (some r)).value with
    | none =>
      rw [hmid, hg.absent] at heq
      cases heq
    | some r' =>
      rw [hmid] at heq
      exact hR.trans _ _ _ _ _ (hf.related r r' hmid) (hg.related r' r'' heq)

theorem foldlM (hR : Record.Evolution R) {α : Type} {f : Option Record → α → Solo} {xs : List α}
    (hf : ∀ a ∈ xs, Follows R fun r? => f r? a) : Follows R fun r? => xs.foldlM f r? := by
  induction xs with
  | nil => exact pure hR
  | cons a xs ih =>
    obtain ⟨ha, hxs⟩ := List.forall_mem_cons.1 hf
    simp only [List.foldlM_cons]
    exact bind hR ha (ih hxs)

theorem act {f : Record → List Event × Record} (hf : ∀ r, R r (f r).1 (f r).2) :
    Follows R (Solo.act f) where
  absent := rfl
  related r r' heq := by
    obtain rfl := Option.some.inj heq
    exact hf r

theorem ite {p : Prop} [Decidable p] (hf : Follows R f) (hg : Follows R g) :
    Follows R fun r? => if p then f r? else g r? := by
  split <;> assumption

end Follows

variable (hR : Record.Evolution R)
include hR

/-- A call between ticks makes related records, unless it creates the entity. -/
theorem follows_request {c : Call} (hc : c.creates entity = false) :
    Follows R fun r? => request entity r? c := by
  cases c with
  | create other resource =>
    simp only [request, if_neg (of_decide_eq_false hc)]
    exact .pure hR
  | destroy other =>
    refine ⟨?_, fun r r' heq => ?_⟩ <;> by_cases hother : other = entity <;>
      simp only [request, hother, if_true, if_false, Logged.value_pure, Option.some.injEq,
        reduceCtorEq] at *
    subst heq
    exact hR.refl r
  | trigger other event => exact .ite (.act fun r => hR.fire r event) (.pure hR)
  | setVariable other index value =>
    exact .ite (.act fun r => hR.write r index.index value) (.pure hR)
  | update => exact .pure hR
  | drainFrames => exact .pure hR

/-- Requests make related records. -/
theorem follows_requests (inputs : Inputs) :
    Follows R fun r? => inputs.calls.foldlM (request entity) r? :=
  .foldlM hR (inputs.forall_mem_calls (fun _ => follows_request hR rfl)
    (fun _ _ _ => follows_request hR rfl) (fun _ _ => follows_request hR rfl))

/-- A call makes related records, unless it creates the entity. -/
theorem follows_call (capacity : Nat) {c : Call} (hc : c.creates entity = false) :
    Follows R fun r? => call entity capacity r? c := by
  cases c with
  | update dt inputs source =>
    exact .bind hR (follows_requests hR inputs) (.act fun r => hR.step r dt capacity source)
  | create other resource => exact follows_request hR hc
  | destroy other => exact follows_request hR hc
  | trigger other event => exact follows_request hR hc
  | setVariable other index value => exact follows_request hR hc
  | drainFrames => exact follows_request hR hc

/-- **Calls make related records**, unless one of them creates the entity. -/
theorem follows_run (capacity : Nat) {cs : List Call} (hcs : ∀ c ∈ cs, c.creates entity = false) :
    Follows R fun r? => run entity capacity r? cs :=
  .foldlM hR fun c hc => follows_call hR capacity (hcs c hc)

omit hR in
/-- A call that creates the entity leaves it with a fresh record. -/
theorem value_run_create (capacity : Nat) (r? : Option Record) (before : List Call)
    (resource : Resource) :
    (run entity capacity r? (before ++ [.create entity resource])).value
      = some (Record.start entity resource) := by
  rw [run, List.foldlM_append]
  simp [call, request]

omit hR in
/-- An entity that has a record was created by a call; the last such call is the latest one. -/
theorem exists_latest_create {capacity : Nat} {cs : List Call}
    (h : (run entity capacity none cs).value.isSome) :
    ∃ before resource since, cs = before ++ .create entity resource :: since ∧
      ∀ c ∈ since, c.creates entity = false := by
  -- the latest such call is the first one of the reversed list
  obtain ⟨c, hc⟩ : ∃ c, cs.reverse.find? (Call.creates entity) = some c := by
    by_contra hnone
    rw [← Option.isSome_iff_exists, Option.not_isSome_iff_eq_none, List.find?_eq_none] at hnone
    have hcs : ∀ c ∈ cs, c.creates entity = false := by simpa using hnone
    have htrue : Record.Evolution fun _ _ _ => True := by constructor <;> intros <;> trivial
    rw [(follows_run htrue capacity hcs).absent] at h
    cases h
  obtain ⟨hcreates, since, before, hsplit, hsince⟩ := List.find?_eq_some_iff_append.1 hc
  obtain ⟨resource, rfl⟩ := Call.creates_eq_true.1 hcreates
  refine ⟨before.reverse, resource, since.reverse, ?_, by simpa using hsince⟩
  rw [← cs.reverse_reverse, hsplit]
  simp

end Solo

/-! ## What is about one entity -/

section Entity

variable {α : Type} {entity other : EntityId} (key : α → EntityId)

/-- Where everything is about an entity, all of it is about that one or another. -/
theorem filter_key_of_forall {as : List α} (h : ∀ a ∈ as, key a = other) :
    as.filter (key · = entity) = if other = entity then as else [] := by
  split
  · rename_i heq
    exact List.filter_eq_self.2 fun a hmem => decide_eq_true ((h a hmem).trans heq)
  · rename_i hne
    exact List.filter_eq_nil_iff.2 fun a hmem heq => hne ((h a hmem).symm.trans
      (of_decide_eq_true heq))

/-- In a list of records of different entities, the one of an entity is the only one that
contributes to what is about it. -/
theorem filter_key_flatMap_of_nodup {rs : List Record} {f : Record → List α}
    (hf : ∀ r, ∀ a ∈ f r, key a = r.entity) (hrs : (rs.map Record.entity).Nodup) :
    (rs.flatMap f).filter (key · = entity)
      = ((rs.find? (·.entity = entity)).map f).getD [] := by
  induction rs with
  | nil => rfl
  | cons r rs ih =>
    rw [List.map_cons, List.nodup_cons] at hrs
    rw [List.flatMap_cons, List.filter_append, ih hrs.2, filter_key_of_forall key (hf r),
      List.find?_cons]
    split
    · rename_i heq
      have hnone : rs.find? (·.entity = entity) = none := by
        rw [List.find?_eq_none]
        intro r' hr' heq'
        exact hrs.1 (List.mem_map.2 ⟨r', hr', (of_decide_eq_true heq').trans heq.symm⟩)
      rw [hnone, decide_eq_true heq]
      exact List.append_nil _
    · rename_i hne
      rw [decide_eq_false hne]
      rfl

end Entity

/-- The events about an entity. -/
def about (entity : EntityId) (events : List Event) : List Event :=
  events.filter (·.entity = entity)

@[simp] theorem about_append (entity : EntityId) (xs ys : List Event) :
    about entity (xs ++ ys) = about entity xs ++ about entity ys :=
  List.filter_append ..

namespace Engine

/-! ## An engine and an entity of it -/

/-- Whether an engine holds a record for an entity, or none. -/
structure Holds (entity : EntityId) (capacity : Nat) (e : Engine) (r? : Option Record) : Prop where
  indexed : e.Indexed
  capacity : e.settings.stackCapacity = capacity
  record : e.record? entity = r?

/-- Whether a step of an engine does to an entity what a step of the entity by itself does. -/
structure Sees (entity : EntityId) (capacity : Nat) (x : WithNotices Engine) (y : Solo) : Prop where
  holds : Holds entity capacity x.value y.value
  events : about entity (raised x) = y.notices

variable {entity : EntityId} {capacity : Nat} {e : Engine} {r? : Option Record}

namespace Sees

theorem pure (h : Holds entity capacity e r?) : Sees entity capacity (Pure.pure e) (Pure.pure r?) :=
  ⟨h, rfl⟩

theorem bind {x : WithNotices Engine} {y : Solo} {f : Engine → WithNotices Engine}
    {g : Option Record → Solo} (hx : Sees entity capacity x y)
    (hf : ∀ e r?, Holds entity capacity e r? → Sees entity capacity (f e) (g r?)) :
    Sees entity capacity (x >>= f) (y >>= g) where
  holds := (hf _ _ hx.holds).holds
  events := by
    rw [raised_bind, about_append, hx.events, (hf _ _ hx.holds).events, Logged.notices_bind]

theorem foldlM {α : Type} {f : Engine → α → WithNotices Engine} {g : Option Record → α → Solo}
    {xs : List α}
    (hf : ∀ a ∈ xs, ∀ e r?, Holds entity capacity e r? → Sees entity capacity (f e a) (g r? a))
    (h : Holds entity capacity e r?) : Sees entity capacity (xs.foldlM f e) (xs.foldlM g r?) := by
  induction xs generalizing e r? with
  | nil => exact pure h
  | cons a xs ih =>
    obtain ⟨ha, hxs⟩ := List.forall_mem_cons.1 hf
    rw [List.foldlM_cons, List.foldlM_cons]
    exact (ha _ _ h).bind fun _ _ => ih hxs

theorem congr {x x' : WithNotices Engine} {y : Solo} (h : Sees entity capacity x y)
    (hx : Alike x' x) : Sees entity capacity x' y where
  holds := hx.value ▸ h.holds
  events := hx.raised ▸ h.events

/-- A call that acts on the map of records as the entity by itself does. -/
theorem of_record? (h : Holds entity capacity e r?) {c : Call} {y : Solo}
    (hrecord : (e.call c).value.record? entity = y.value)
    (hevents : about entity (raised (e.call c)) = y.notices) :
    Sees entity capacity (e.call c) y :=
  ⟨⟨h.indexed.call c, (congrArg EngineSettings.stackCapacity (settings_call e c)).trans h.capacity,
    hrecord⟩, hevents⟩

end Sees

namespace Holds

variable (h : Holds entity capacity e r?)
include h

theorem create (other : EntityId) (resource : Resource) :
    Sees entity capacity (e.call (.create other resource))
      (Solo.request entity r? (.create other resource)) := by
  refine Sees.of_record? h ?_ ?_
  · have hrecord := congrFun (h.indexed.record?_create other resource) entity
    rw [Function.update_apply, h.record] at hrecord
    simp only [Engine.call, hrecord, Solo.request, Logged.value_pure, eq_comm]
  · rw [raised_create]
    rfl

theorem destroy (other : EntityId) :
    Sees entity capacity (e.call (.destroy other)) (Solo.request entity r? (.destroy other)) := by
  refine Sees.of_record? h ?_ ?_
  · have hrecord := congrFun (h.indexed.record?_destroy other) entity
    rw [Function.update_apply, h.record] at hrecord
    simp only [Engine.call, Logged.value_map, hrecord, Solo.request, Logged.value_pure, eq_comm]
  · rw [raised_destroy]
    rfl

theorem setVariable (other : EntityId) (index : VariableIndex) (value : Single) :
    Sees entity capacity (e.call (.setVariable other index value))
      (Solo.request entity r? (.setVariable other index value)) := by
  have hrecord := congrFun (h.indexed.record?_call_setVariable other index value) entity
  rw [Function.update_apply] at hrecord
  refine Sees.of_record? h ?_ ?_ <;> by_cases heq : other = entity
  · subst heq
    rw [hrecord, if_pos rfl, h.record, Solo.request, if_pos rfl]
    cases r? <;> rfl
  · rw [hrecord, if_neg (Ne.symm heq), h.record, Solo.request, if_neg heq]
    rfl
  · rw [Solo.request, if_pos heq]
    cases r? <;> rfl
  · rw [Solo.request, if_neg heq]
    rfl

theorem trigger (other : EntityId) (event : ShortHash) :
    Sees entity capacity (e.call (.trigger other event))
      (Solo.request entity r? (.trigger other event)) := by
  have hrecord := congrFun (h.indexed.record?_trigger other event) entity
  rw [Function.update_apply] at hrecord
  -- all that is raised is about the entity that the event was raised for
  have habout : about entity (raised (e.call (.trigger other event)))
      = if other = entity then raised (e.call (.trigger other event)) else [] := by
    refine filter_key_of_forall Event.entity fun raised hraised => ?_
    rw [raised_trigger] at hraised
    cases hr : e.record? other with
    | none =>
      rw [hr] at hraised
      cases hraised
    | some r =>
      rw [hr] at hraised
      exact (r.entity_of_mem_fire hraised).trans (h.indexed.entity_of_record? hr)
  refine Sees.of_record? h ?_ ?_ <;> by_cases heq : other = entity
  · subst heq
    rw [Engine.call, Logged.value_map, hrecord, if_pos rfl, h.record, Solo.request, if_pos rfl]
    cases r? <;> rfl
  · rw [Engine.call, Logged.value_map, hrecord, if_neg (Ne.symm heq), h.record, Solo.request,
      if_neg heq]
    rfl
  · subst heq
    rw [habout, if_pos rfl, raised_trigger, h.record, Solo.request, if_pos rfl]
    cases r? <;> rfl
  · rw [habout, if_neg heq, Solo.request, if_neg heq]
    rfl

/-- The record of an entity is the one that is found in the table. -/
theorem find?_eq : e.records.toList.find? (·.entity = entity) = r? := by
  rw [← h.record]
  cases hr : e.record? entity with
  | none =>
    rw [List.find?_eq_none]
    intro r hmem heq
    have hsome := h.indexed.record?_eq_some.2 ⟨Array.mem_toList_iff.1 hmem, of_decide_eq_true heq⟩
    rw [hr] at hsome
    cases hsome
  | some r =>
    obtain ⟨r', hr'⟩ : ∃ r', e.records.toList.find? (·.entity = entity) = some r' := by
      rw [← Option.isSome_iff_exists, List.find?_isSome]
      obtain ⟨hmem, heq⟩ := h.indexed.record?_eq_some.1 hr
      exact ⟨r, Array.mem_toList_iff.2 hmem, decide_eq_true heq⟩
    have heq : r'.entity = entity := by simpa using List.find?_some hr'
    have hsome := h.indexed.record?_eq_some.2
      ⟨Array.mem_toList_iff.1 (List.mem_of_find?_eq_some hr'), heq⟩
    rw [hr', ← hsome, hr]

theorem tick (dt : Single) (source : SpriteSource) :
    Sees entity capacity (e.stepAll dt source) (Solo.tick capacity dt source r?) := by
  have hsettings : (e.stepAll dt source).value.settings = e.settings := rfl
  refine ⟨⟨h.indexed.stepAll dt source, hsettings ▸ h.capacity, ?_⟩, ?_⟩
  · rw [record?_stepAll, h.capacity, h.record]
    cases r? <;> rfl
  · rw [raised_stepAll, h.capacity, about, filter_key_flatMap_of_nodup Event.entity
      (fun r _ hmem => r.entity_of_mem_step hmem) h.indexed.nodup, h.find?_eq]
    cases r? <;> rfl

/-- Requests do to an entity what they do to the entity by itself. -/
theorem applyInputs (inputs : Inputs) : Sees entity capacity (e.applyInputs inputs)
    (inputs.calls.foldlM (Solo.request entity) r?) := by
  have hrequests : ∀ c ∈ inputs.calls, ∀ e r?, Holds entity capacity e r? →
      Sees entity capacity (e.call c) (Solo.request entity r? c) :=
    inputs.forall_mem_calls (fun other _ _ h => h.destroy other)
      (fun other index value _ _ h => h.setVariable other index value)
      (fun other event _ _ h => h.trigger other event)
  exact .congr (.foldlM hrequests h) (alike_applyInputs e inputs)

/-- **A call does to an entity what it does to the entity by itself.** -/
theorem call (c : Call) : Sees entity capacity (e.call c) (Solo.call entity capacity r? c) := by
  cases c with
  | create other resource => exact h.create other resource
  | destroy other => exact h.destroy other
  | trigger other event => exact h.trigger other event
  | setVariable other index value => exact h.setVariable other index value
  | drainFrames => exact .pure ⟨h.indexed, h.capacity, h.record⟩
  | update dt inputs source =>
    have hcleared : Holds entity capacity { e with outputs := {} } r? :=
      ⟨h.indexed, h.capacity, h.record⟩
    exact (hcleared.applyInputs inputs).bind fun e r? h => h.tick dt source

/-- **Calls do to an entity what they do to the entity by itself.** -/
theorem run (cs : List Call) : Sees entity capacity (e.run cs) (Solo.run entity capacity r? cs) :=
  .foldlM (fun c _ _ _ h => h.call c) h

end Holds

/-- A new engine holds no record. -/
theorem holds_new (entity : EntityId) (settings : EngineSettings) :
    Holds entity settings.stackCapacity (new settings) none :=
  ⟨indexed_new settings, rfl, by simp [record?, new]⟩

/-- What an engine holds for an entity after calls. -/
theorem holds_after (entity : EntityId) (settings : EngineSettings) (cs : List Call) :
    Holds entity settings.stackCapacity (after settings cs)
      (Solo.run entity settings.stackCapacity none cs).value :=
  ((holds_new entity settings).run cs).holds

/-- Calls after one that created an entity. -/
theorem after_append_create (settings : EngineSettings) (before : List Call) (entity : EntityId)
    (resource : Resource) (since : List Call) :
    after settings (before ++ .create entity resource :: since)
      = ((after settings (before ++ [.create entity resource])).run since).value := by
  rw [← after_append, ← List.append_cons]

/-- **An entity that has a record was created by a call, and the record has become of a fresh one
since the latest such call**, by what was raised about the entity. -/
theorem exists_created {R : Record → List Event → Record → Prop} (hR : Record.Evolution R)
    {settings : EngineSettings} {cs : List Call} {r : Record}
    (h : (after settings cs).record? entity = some r) :
    ∃ before resource since, cs = before ++ .create entity resource :: since ∧
      (∀ c ∈ since, c.creates entity = false) ∧
      R (Record.start entity resource)
        (about entity (raised ((after settings (before ++ [.create entity resource])).run since)))
        r := by
  have hafter := holds_after entity settings cs
  obtain ⟨before, resource, since, rfl, hlatest⟩ :=
    Solo.exists_latest_create (by rw [← hafter.record, h]; rfl)
  have hcreated := holds_after entity settings (before ++ [.create entity resource])
  rw [Solo.value_run_create] at hcreated
  have hsees := hcreated.run since
  have hr := hsees.holds.record
  rw [← after_append_create, h] at hr
  refine ⟨before, resource, since, rfl, hlatest, ?_⟩
  rw [hsees.events]
  exact (Solo.follows_run hR _ hlatest).related _ r hr.symm

end Engine

end Flipbook.Machine
