import Flipbook.Machine.Engine
import Flipbook.Proofs.Machine.Stepping
import Mathlib.Data.List.Nodup
import Mathlib.Logic.Function.Basic

/-!
# Proofs/Machine/Table — the table of records as a map

The index of an engine and its table of records are two halves of one map from entities to records.
`Engine.Indexed` says that they fit: the index gives exactly the places where the table has the
record of an entity.  Every operation on an engine keeps them fitting, and changes the map
`Engine.record?` at the entity it is about and nowhere else: `record?_create`, `record?_destroy`,
`record?_setRecord`.  A tick changes every record by itself (`record?_stepAll`).
-/

namespace Flipbook.Machine.Engine

/-- Whether the index gives exactly the places of the entities in the table. -/
def Indexed (e : Engine) : Prop :=
  ∀ entity slot,
    e.index[entity]? = some slot ↔ (e.records[slot]?).map Record.entity = some entity

theorem indexed_new (settings : EngineSettings) : (new settings).Indexed := by
  intro entity slot
  simp [new]

variable {e : Engine} {entity : EntityId} {r : Record}

/-! ## Looking up -/

/-- **An entity has a record exactly if the record is in the table.** -/
theorem Indexed.record?_eq_some (h : e.Indexed) :
    e.record? entity = some r ↔ r ∈ e.records ∧ r.entity = entity := by
  constructor
  · intro hr
    obtain ⟨slot, hslot, hat⟩ := Option.bind_eq_some_iff.1 hr
    refine ⟨Array.mem_of_getElem? hat, ?_⟩
    simpa [hat] using (h entity slot).1 hslot
  · rintro ⟨hmem, rfl⟩
    obtain ⟨slot, hat⟩ := Array.mem_iff_getElem?.1 hmem
    exact Option.bind_eq_some_iff.2 ⟨slot, (h r.entity slot).2 (by rw [hat]; rfl), hat⟩

theorem Indexed.entity_of_record? (h : e.Indexed) (hr : e.record? entity = some r) :
    r.entity = entity :=
  (h.record?_eq_some.1 hr).2

/-- A place in the index is a place in the table. -/
theorem Indexed.lt_size (h : e.Indexed) {slot : Nat} (hslot : e.index[entity]? = some slot) :
    slot < e.records.size := by
  obtain ⟨r, hr, -⟩ := Option.map_eq_some_iff.1 ((h entity slot).1 hslot)
  exact (Array.getElem?_eq_some_iff.1 hr).1

/-- The index knows an entity exactly if it has a record. -/
theorem Indexed.contains_eq (h : e.Indexed) (entity : EntityId) :
    e.contains entity = (e.record? entity).isSome := by
  rw [contains, Std.HashMap.contains_eq_isSome_getElem?, record?]
  cases hslot : e.index[entity]? with
  | none => rfl
  | some slot =>
    obtain ⟨r, hr, -⟩ := Option.map_eq_some_iff.1 ((h entity slot).1 hslot)
    simp [hr]

theorem Indexed.record?_eq_none (h : e.Indexed) :
    e.record? entity = none ↔ e.index[entity]? = none := by
  have hsome := h.contains_eq entity
  rw [contains, Std.HashMap.contains_eq_isSome_getElem?] at hsome
  rw [← Option.not_isSome_iff_eq_none, ← hsome, Option.not_isSome_iff_eq_none]

/-- No entity occurs twice in the table. -/
theorem Indexed.nodup (h : e.Indexed) : (e.records.toList.map Record.entity).Nodup := by
  rw [List.nodup_iff_getElem?_ne_getElem?]
  intro i j hij hj heq
  rw [List.length_map, Array.length_toList] at hj
  have hat : ∀ k : Nat,
      (e.records.toList.map Record.entity)[k]? = (e.records[k]?).map Record.entity := by
    intro k
    rw [List.getElem?_map, Array.getElem?_toList]
  rw [hat, hat, Array.getElem?_eq_getElem hj, Option.map_some] at heq
  have hi := (h _ _).2 heq
  have hj' := (h e.records[j].entity j).2 (by rw [Array.getElem?_eq_getElem hj, Option.map_some])
  exact Nat.ne_of_lt hij (Option.some.inj (hi.symm.trans hj'))

/-! ## Replacing a record -/

/-- A record of the same entity keeps the table fitting. -/
theorem Indexed.setRecord (h : e.Indexed) (hr : r.entity = entity) :
    (e.setRecord entity r).Indexed := by
  unfold Engine.setRecord
  split
  · rename_i slot hslot
    intro k i
    rw [h k i]
    have hat := (h entity slot).1 hslot
    dsimp only
    rw [Array.getElem?_setIfInBounds]
    split
    · rename_i hi
      subst hi
      rw [hat]
      obtain ⟨old, hold, -⟩ := Option.map_eq_some_iff.1 hat
      rw [if_pos (Array.getElem?_eq_some_iff.1 hold).1, Option.map_some, hr]
    · rfl
  · exact h

/-- **The record of an entity is replaced, and no other.** -/
theorem Indexed.record?_setRecord (h : e.Indexed) (hsome : (e.record? entity).isSome)
    (hr : r.entity = entity) :
    (e.setRecord entity r).record? = Function.update e.record? entity (some r) := by
  obtain ⟨old, hold⟩ := Option.isSome_iff_exists.1 hsome
  obtain ⟨slot, hslot, hat⟩ := Option.bind_eq_some_iff.1 hold
  have hlt := (Array.getElem?_eq_some_iff.1 hat).1
  funext k
  simp only [Engine.setRecord, hslot, record?]
  by_cases hk : k = entity
  · subst hk
    rw [Function.update_self, hslot, Option.bind_some, Array.getElem?_setIfInBounds_self_of_lt hlt]
  · rw [Function.update_of_ne hk, record?]
    cases hkslot : e.index[k]? with
    | none => rfl
    | some i =>
      have hne : slot ≠ i := by
        rintro rfl
        exact hk (Option.some.inj (((h k _).1 hkslot).symm.trans ((h entity _).1 hslot)))
      rw [Option.bind_some, Option.bind_some, Array.getElem?_setIfInBounds_ne hne]

/-! ## Creating and destroying -/

theorem Indexed.create (h : e.Indexed) (entity : EntityId) (resource : Resource) :
    (e.create entity resource).value.Indexed := by
  unfold Engine.create
  split
  · exact h.setRecord rfl
  · rename_i hnot
    have hnone : e.index[entity]? = none := by
      rw [contains, Std.HashMap.contains_eq_isSome_getElem?] at hnot
      exact Option.not_isSome_iff_eq_none.1 hnot
    intro k i
    dsimp only
    rw [Std.HashMap.getElem?_insert, Array.getElem?_push]
    have hki := h k i
    have hlast : e.records[e.records.size]? = none := Array.getElem?_size
    by_cases hk : entity = k
    · subst hk
      by_cases hi : i = e.records.size
      · simp [hi, Record.start]
      · simp only [hnone] at hki
        simpa [hi, Ne.symm hi] using hki
    · by_cases hi : i = e.records.size
      · subst hi
        simp only [hlast] at hki
        simpa [hk, Record.start] using hki
      · simpa [hk, hi] using hki

/-- **An entity that is created has a fresh record**, and no other record changes. -/
theorem Indexed.record?_create (h : e.Indexed) (entity : EntityId) (resource : Resource) :
    (e.create entity resource).value.record?
      = Function.update e.record? entity (some (Record.start entity resource)) := by
  have hcontains := h.contains_eq entity
  unfold Engine.create
  split
  · rename_i hin
    exact h.record?_setRecord (hcontains ▸ hin) rfl
  · funext k
    by_cases hk : k = entity
    · subst hk
      simp [record?, Function.update_self]
    · rw [Function.update_of_ne hk]
      simp only [record?, Std.HashMap.getElem?_insert]
      rw [if_neg (by simpa using Ne.symm hk)]
      cases hslot : e.index[k]? with
      | none => rfl
      | some slot =>
        have hlt : slot < e.records.size := by
          obtain ⟨old, hold, -⟩ := Option.map_eq_some_iff.1 ((h k slot).1 hslot)
          exact (Array.getElem?_eq_some_iff.1 hold).1
        rw [Option.bind_some, Option.bind_some, Array.getElem?_push_lt hlt,
          Array.getElem?_eq_getElem hlt]

/-- The table is as before, but for the last record in the place of the removed one. -/
theorem getElem?_swapRemove {records : Array Record} {slot : Nat} (h : slot < records.size)
    (i : Nat) : (swapRemove records slot)[i]? =
      if i + 1 < records.size then
        if i = slot then records[records.size - 1]? else records[i]?
      else none := by
  obtain ⟨last, hlast⟩ : ∃ last, records[records.size - 1]? = some last :=
    ⟨_, Array.getElem?_eq_getElem (by omega)⟩
  rw [swapRemove, Array.back?_eq_getElem?, hlast]
  dsimp only
  rw [Array.getElem?_pop, Array.size_setIfInBounds, Array.getElem?_setIfInBounds]
  by_cases hi : i + 1 < records.size
  · rw [if_pos hi, if_pos (by omega)]
    by_cases hslot : i = slot
    · subst hslot
      rw [if_pos rfl, if_pos rfl, if_pos h]
    · rw [if_neg (Ne.symm hslot), if_neg hslot]
  · rw [if_neg hi, if_neg (by omega)]

/-- The table that is left where the record at a place is removed. -/
theorem entity_swapRemove {slot : Nat} (hslot : slot < e.records.size) (i : Nat) :
    ((swapRemove e.records slot)[i]?).map Record.entity =
      if i + 1 < e.records.size then
        if i = slot then (e.records[e.records.size - 1]?).map Record.entity
        else (e.records[i]?).map Record.entity
      else none := by
  rw [getElem?_swapRemove hslot]
  split
  · split <;> rfl
  · rfl

/-- **The index that is left**: the removed entity has no place, the one of the last record has the
place that became free, and any other keeps its own. -/
theorem Indexed.index_destroy (h : e.Indexed) {slot : Nat} (hslot : e.index[entity]? = some slot)
    (k : EntityId) : (e.destroy entity).value.2.index[k]? =
      if k = entity then none
      else if e.index[k]? = some (e.records.size - 1) then some slot
      else e.index[k]? := by
  have hlt := h.lt_size hslot
  obtain ⟨last, hlast⟩ : ∃ last, e.records[e.records.size - 1]? = some last :=
    ⟨_, Array.getElem?_eq_getElem (by omega)⟩
  have hplace : ∀ k, e.index[k]? = some (e.records.size - 1) ↔ last.entity = k := by
    intro k
    rw [h, hlast, Option.map_some, Option.some.injEq]
  simp only [destroy, hslot, getElem?_swapRemove hlt, hlast, if_true, hplace]
  by_cases hend : slot + 1 < e.records.size
  · -- the last record moves, and is not the removed one
    have hmoved : last.entity ≠ entity := by
      intro heq
      have hsame := Option.some.inj (hslot.symm.trans ((hplace entity).2 heq))
      omega
    simp only [hend, if_true, Std.HashMap.getElem?_insert, Std.HashMap.getElem?_erase, beq_iff_eq]
    grind
  · have hremoved : last.entity = entity := by
      rw [← hplace, hslot]
      exact congrArg some (by omega)
    simp only [hend, if_false, Std.HashMap.getElem?_erase, beq_iff_eq]
    grind

/-- The table that is left. -/
theorem records_destroy {slot : Nat} (hslot : e.index[entity]? = some slot) :
    (e.destroy entity).value.2.records = swapRemove e.records slot := by
  simp only [destroy, hslot]

theorem destroy_of_none (hnone : e.index[entity]? = none) :
    e.destroy entity = ⟨(false, e), []⟩ := by
  simp only [destroy, hnone]

theorem Indexed.destroy (h : e.Indexed) (entity : EntityId) :
    (e.destroy entity).value.2.Indexed := by
  cases hslot : e.index[entity]? with
  | none =>
    rw [destroy_of_none hslot]
    exact h
  | some slot =>
    intro k i
    rw [h.index_destroy hslot, records_destroy hslot, entity_swapRemove (h.lt_size hslot)]
    have hki := h k i
    have hlast := h k (e.records.size - 1)
    have hself := h entity i
    have hlastSelf := h entity (e.records.size - 1)
    have hlt := h.lt_size hslot
    have hlt' := fun hi : e.index[k]? = some i => h.lt_size hi
    grind

/-- **An entity that is destroyed has no record**, and no other record changes. -/
theorem Indexed.record?_destroy (h : e.Indexed) (entity : EntityId) :
    (e.destroy entity).value.2.record? = Function.update e.record? entity none := by
  cases hslot : e.index[entity]? with
  | none =>
    rw [destroy_of_none hslot]
    exact (Function.update_eq_self_iff.2 (h.record?_eq_none.2 hslot).symm).symm
  | some slot =>
    funext k
    rw [record?, h.index_destroy hslot, records_destroy hslot]
    by_cases hk : k = entity
    · rw [if_pos hk, hk, Function.update_self]
      rfl
    rw [if_neg hk, Function.update_of_ne hk, record?]
    cases hi : e.index[k]? with
    | none => rfl
    | some i =>
      have hlt := h.lt_size hslot
      have hlt' := h.lt_size hi
      have hne : i ≠ slot := by
        rintro rfl
        exact hk (Option.some.inj (((h k i).1 hi).symm.trans ((h entity i).1 hslot)))
      by_cases hlast : i = e.records.size - 1
      · have hend : slot + 1 < e.records.size := by omega
        rw [if_pos (congrArg some hlast), Option.bind_some, Option.bind_some,
          getElem?_swapRemove hlt, if_pos hend, if_pos rfl, hlast]
      · have hend : i + 1 < e.records.size := by omega
        rw [if_neg (fun heq => hlast (Option.some.inj heq)), Option.bind_some, Option.bind_some,
          getElem?_swapRemove hlt, if_pos hend, if_neg hne]

theorem Indexed.destroy_fst (h : e.Indexed) (entity : EntityId) :
    (e.destroy entity).value.1 = (e.record? entity).isSome := by
  rw [← h.contains_eq, contains, Std.HashMap.contains_eq_isSome_getElem?]
  cases hslot : e.index[entity]? with
  | none => rw [destroy_of_none hslot]; rfl
  | some slot => simp only [Engine.destroy, hslot]; rfl

/-! ## Events and variables -/

theorem trigger_of_none (hr : e.record? entity = none) (event : ShortHash) :
    e.trigger entity event = ⟨(.error (.unknownEntity entity), e), []⟩ := by
  simp only [trigger, record, hr]

theorem trigger_of_some (hr : e.record? entity = some r) (event : ShortHash) :
    e.trigger entity event = ⟨(.ok (r.fire event).1,
      { e.setRecord entity (r.fire event).2.2 with backlog := e.backlog ++ (r.fire event).2.1 }),
      (r.fire event).2.1.map Event.notice⟩ := by
  simp only [trigger, record, hr]

theorem setVariable_of_none (hr : e.record? entity = none) (index : VariableIndex)
    (value : Single) : e.setVariable entity index value = .error (.unknownEntity entity) := by
  simp only [setVariable, record, hr]
  rfl

theorem setVariable_of_some (hr : e.record? entity = some r) (index : VariableIndex)
    (value : Single) : e.setVariable entity index value =
      if index.index < r.vars.length then
        .ok (e.setRecord entity { r with vars := r.vars.set index.index value })
      else .error (.variableOutOfRange index.index r.vars.length) := by
  simp only [setVariable, record, hr]
  rfl

theorem Indexed.trigger (h : e.Indexed) (entity : EntityId) (event : ShortHash) :
    (e.trigger entity event).value.2.Indexed := by
  cases hr : e.record? entity with
  | none =>
    rw [trigger_of_none hr]
    exact h
  | some r =>
    rw [trigger_of_some hr]
    exact h.setRecord ((r.sameMachine_fire event).entity.trans (h.entity_of_record? hr))

/-- **An event changes the record of its entity**, and no other record. -/
theorem Indexed.record?_trigger (h : e.Indexed) (entity : EntityId) (event : ShortHash) :
    (e.trigger entity event).value.2.record? = Function.update e.record? entity
      ((e.record? entity).map fun r => (r.fire event).2.2) := by
  cases hr : e.record? entity with
  | none =>
    rw [trigger_of_none hr, Option.map_none, ← hr, Function.update_eq_self]
  | some r =>
    rw [trigger_of_some hr]
    exact h.record?_setRecord (hr ▸ rfl)
      ((r.sameMachine_fire event).entity.trans (h.entity_of_record? hr))

theorem Indexed.setVariable (h : e.Indexed) {index : VariableIndex} {value : Single} {e' : Engine}
    (hset : e.setVariable entity index value = .ok e') : e'.Indexed := by
  cases hr : e.record? entity with
  | none =>
    rw [setVariable_of_none hr] at hset
    cases hset
  | some r =>
    rw [setVariable_of_some hr] at hset
    split at hset
    · obtain rfl := Except.ok.inj hset
      have hentity := h.entity_of_record? hr
      exact h.setRecord hentity
    · cases hset

/-! ## Ticks -/

/-- The table after every record was stepped. -/
theorem records_stepAll (e : Engine) (dt : Single) (source : SpriteSource) :
    (e.stepAll dt source).value.records
      = e.records.map fun r => (r.step dt e.settings.stackCapacity source).2.2 := by
  apply Array.toList_inj.1
  simp [stepAll, Function.comp_def]

theorem Indexed.stepAll (h : e.Indexed) (dt : Single) (source : SpriteSource) :
    (e.stepAll dt source).value.Indexed := by
  intro k i
  have hentity : (Record.entity ∘ fun r : Record => (r.step dt e.settings.stackCapacity source).2.2)
      = Record.entity := funext fun r => (r.sameMachine_step _ _ _).entity
  rw [records_stepAll, Array.getElem?_map, Option.map_map, hentity]
  exact h k i

/-- **A tick steps every record by itself.** -/
theorem record?_stepAll (e : Engine) (dt : Single) (source : SpriteSource) (entity : EntityId) :
    (e.stepAll dt source).value.record? entity
      = (e.record? entity).map fun r => (r.step dt e.settings.stackCapacity source).2.2 := by
  have hindex : (e.stepAll dt source).value.index = e.index := rfl
  rw [record?, records_stepAll, hindex, record?, Option.map_bind]
  congr 1
  funext slot
  exact Array.getElem?_map

end Flipbook.Machine.Engine
