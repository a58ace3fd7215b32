import Flipbook.Machine.Description
import Flipbook.Proofs.Json.ReadBack
import Flipbook.Proofs.Steps

/-!
# Proofs/Machine/Saving — descriptions come back from their documents

A description is written with all of its fields, so nothing is left to the defaults when its
document is read.  Its names and expressions come back as they are, and its values by their shortest
digits.  Only a value that is not finite has no digits: it is written as null, and the document is
then not read at all (`Description.parse?_document`).
-/

namespace Flipbook.Machine

open Json

/-! ## Records -/

section Records

variable {fields : List (String × Value)}

theorem valuesOf_eq_nil {name : String} (h : name ∉ fields.map Prod.fst) :
    Value.valuesOf name fields = [] := by
  have hnone : ∀ f ∈ fields, ¬ (f.1 == name) = true := fun f hf heq =>
    h (List.mem_map.2 ⟨f, hf, by simpa using heq⟩)
  rw [Value.valuesOf, List.filter_eq_nil_iff.2 hnone]
  rfl

/-- A name that does not repeat has its one value. -/
theorem valuesOf_of_mem {f : String × Value} (h : (fields.map Prod.fst).Nodup) (hf : f ∈ fields) :
    Value.valuesOf f.1 fields = [f.2] := by
  induction fields with
  | nil => cases hf
  | cons g fields ih =>
    obtain ⟨hg, hfields⟩ := List.nodup_cons.1 h
    rcases List.mem_cons.1 hf with rfl | hf
    · have hrest := valuesOf_eq_nil hg
      rw [Value.valuesOf, List.map_eq_nil_iff] at hrest
      simp [Value.valuesOf, hrest]
    · have hne : (g.1 == f.1) = false := by
        rw [beq_eq_false_iff_ne]
        exact fun heq => hg (heq ▸ List.mem_map_of_mem hf)
      have hrest := ih hfields hf
      rw [Value.valuesOf] at hrest ⊢
      rw [List.filter_cons, hne]
      exact hrest

/-- **A record that is written has every field.** -/
theorem record?_ofFields (h : (fields.map Prod.fst).Nodup) :
    (Value.ofFields fields).record? (fields.map Prod.fst)
      = some (fields.map fun f => some f.2) := by
  have hnamed : Value.named? (fields.map fun f => (some f.1, f.2)) = some fields := by
    rw [Value.named?, mapM_eq_some, List.forall₂_map_left_iff, List.forall₂_same]
    exact fun f _ => rfl
  rw [Value.ofFields, Value.record?, hnamed, Option.bind_some, mapM_eq_some,
    List.forall₂_map_left_iff, List.forall₂_map_right_iff, List.forall₂_same]
  intro f hf
  rw [Value.field?, valuesOf_of_mem h hf]

end Records

/-- Items that are written one by one are read one by one. -/
theorem list?_map {α : Type} {read : Value → Option α} {write : α → Value} (xs : List α)
    (h : ∀ x ∈ xs, read (write x) = some x) :
    Value.list? read (.array (xs.map write)) = some xs := by
  rw [Value.list?, mapM_eq_some, List.forall₂_map_left_iff, List.forall₂_same]
  exact h

/-! ## Parts of a description -/

theorem Mode.ofJson?_toJson (m : Mode) : Mode.ofJson? m.toJson = some m := by
  cases m <;> rfl

theorem AnimationDescription.ofJson?_toJson (d : AnimationDescription) :
    ofJson? d.toJson = some d := by
  have hfields : d.toJson.record? ["name", "weight"]
      = some [some (.ofString d.name), some (.ofString d.weight)] :=
    record?_ofFields (by simp)
  rw [ofJson?, hfields]
  rfl

theorem TransitionDescription.ofJson?_toJson (d : TransitionDescription) :
    ofJson? d.toJson = some d := by
  have hfields : d.toJson.record? ["event", "to", "mode"]
      = some [some (.ofString d.event), some (.ofString d.target), some d.mode.toJson] :=
    record?_ofFields (by simp)
  have hmode := d.mode.ofJson?_toJson
  rw [ofJson?, hfields]
  simp [Value.required, Value.withDefault, Value.ofString, Value.text?, hmode]

theorem StateDescription.ofJson?_toJson (d : StateDescription) : ofJson? d.toJson = some d := by
  have hfields : d.toJson.record? ["id", "name", "speed", "loop", "animations", "transitions"]
      = some [some (.ofString d.id), some (.ofString d.name), some (.ofString d.speed),
        some (.bool d.looping), some (.array (d.animations.map AnimationDescription.toJson)),
        some (.array (d.transitions.map TransitionDescription.toJson))] :=
    record?_ofFields (by simp)
  have hanimations := list?_map d.animations fun x _ => x.ofJson?_toJson
  have htransitions := list?_map d.transitions fun x _ => x.ofJson?_toJson
  rw [ofJson?, hfields]
  simp [Value.required, Value.withDefault, Value.ofString, Value.text?, Value.bool?, hanimations,
    htransitions]

/-- **A variable comes back exactly if its value does.** -/
theorem VariableDescription.ofJson?_toJson (d : VariableDescription) :
    ofJson? d.toJson = (Value.ofSingle d.value).single?.map (⟨d.name, ·⟩) := by
  have hfields : d.toJson.record? ["name", "value"]
      = some [some (.ofString d.name), some (.ofSingle d.value)] :=
    record?_ofFields (by simp)
  rw [ofJson?, hfields]
  cases h : (Value.ofSingle d.value).single? <;>
    simp [Value.required, Value.withDefault, Value.ofString, Value.text?, h]

/-- A value comes back if its numeral is read as the nearest value. -/
theorem single?_ofSingle {x : Single} (hx : x.isFinite)
    (hread : (singleStyle.numeral x).single? = some (singleStyle.numeral x).nearest) :
    (Value.ofSingle x).single? = some x := by
  rw [Value.ofSingle, if_pos hx, Value.single?, hread, DecimalStyle.nearest_numeral _ hx]

theorem single?_ofSingle_of_not_isFinite {x : Single} (hx : ¬ x.isFinite) :
    (Value.ofSingle x).single? = none := by
  rw [Value.ofSingle, if_neg hx]
  rfl

/-- Whether the numerals of the values of a description are read as the values nearest to them. -/
def Description.ReadsNearest (d : Description) : Prop :=
  ∀ v ∈ d.vars, v.value.isFinite →
    (singleStyle.numeral v.value).single? = some (singleStyle.numeral v.value).nearest

/-- **A description is read from its value exactly if its values are finite.** -/
theorem Description.ofJson?_toJson {d : Description} (hread : d.ReadsNearest) :
    ofJson? d.toJson = if ∀ v ∈ d.vars, v.value.isFinite then some d else none := by
  have hfields : d.toJson.record? ["initial_state", "variables", "states"]
      = some [some (.ofString d.initialState),
        some (.array (d.vars.map VariableDescription.toJson)),
        some (.array (d.states.map StateDescription.toJson))] :=
    record?_ofFields (by simp)
  have hstates := list?_map d.states fun x _ => x.ofJson?_toJson
  have hvars : Value.list? VariableDescription.ofJson?
      (.array (d.vars.map VariableDescription.toJson))
      = if ∀ v ∈ d.vars, v.value.isFinite then some d.vars else none := by
    split
    · rename_i hfinite
      refine list?_map d.vars fun v hv => ?_
      rw [v.ofJson?_toJson, single?_ofSingle (hfinite v hv) (hread v hv (hfinite v hv))]
      rfl
    · rename_i hfinite
      rw [Value.list?, ← Option.not_isSome_iff_eq_none, isSome_mapM]
      intro hall
      refine hfinite fun v hv => ?_
      by_contra hnot
      have hsome := hall v.toJson (List.mem_map_of_mem hv)
      rw [v.ofJson?_toJson, single?_ofSingle_of_not_isFinite hnot] at hsome
      cases hsome
  rw [ofJson?, hfields]
  simp only [Value.required, Value.withDefault, Value.ofString, Value.text?, hstates, hvars,
    Option.bind_eq_bind, Option.bind_some]
  split <;> rfl

/-! ## Documents -/

section Written

theorem areWritten_map {α : Type} {write : α → Value} (xs : List α)
    (h : ∀ x ∈ xs, (write x).IsWritten) : Value.AreWritten (xs.map write) := by
  induction xs with
  | nil => trivial
  | cons x xs ih =>
    obtain ⟨hx, hxs⟩ := List.forall_mem_cons.1 h
    exact ⟨hx, ih hxs⟩

theorem isWritten_ofFields {fields : List (String × Value)} (h : ∀ f ∈ fields, f.2.IsWritten) :
    (Value.ofFields fields).IsWritten := by
  rw [Value.ofFields, Value.IsWritten]
  induction fields with
  | nil => trivial
  | cons f fields ih =>
    obtain ⟨hf, hfields⟩ := List.forall_mem_cons.1 h
    exact ⟨rfl, hf, ih hfields⟩

theorem isWritten_ofString (s : String) : (Value.ofString s).IsWritten := rfl

theorem isWritten_ofSingle (x : Single) : (Value.ofSingle x).IsWritten := by
  unfold Value.ofSingle
  split
  · exact DecimalStyle.isWritten_numeral _ x
  · trivial

theorem AnimationDescription.isWritten_toJson (d : AnimationDescription) :
    d.toJson.IsWritten :=
  isWritten_ofFields (by simp [isWritten_ofString])

theorem TransitionDescription.isWritten_toJson (d : TransitionDescription) :
    d.toJson.IsWritten :=
  isWritten_ofFields (by simp [isWritten_ofString, Mode.toJson])

theorem VariableDescription.isWritten_toJson (d : VariableDescription) : d.toJson.IsWritten :=
  isWritten_ofFields (by simp [isWritten_ofString, isWritten_ofSingle])

theorem StateDescription.isWritten_toJson (d : StateDescription) : d.toJson.IsWritten := by
  have hanimations := areWritten_map d.animations fun x _ => x.isWritten_toJson
  have htransitions := areWritten_map d.transitions fun x _ => x.isWritten_toJson
  exact isWritten_ofFields
    (by simp [isWritten_ofString, Value.IsWritten, hanimations, htransitions])

theorem Description.isWritten_toJson (d : Description) : d.toJson.IsWritten := by
  have hvars := areWritten_map d.vars fun x _ => x.isWritten_toJson
  have hstates := areWritten_map d.states fun x _ => x.isWritten_toJson
  exact isWritten_ofFields (by simp [isWritten_ofString, Value.IsWritten, hvars, hstates])

end Written

/-- **A description comes back from its document exactly if its values are finite**; otherwise the
document is not read. -/
theorem Description.parse?_document {d : Description} (hread : d.ReadsNearest) :
    parse? d.document = if ∀ v ∈ d.vars, v.value.isFinite then some d else none := by
  rw [parse?, document, Value.parse?_pretty d.isWritten_toJson, Option.bind_some,
    ofJson?_toJson hread]

/-- A machine with a negative value, the largest value and the least positive one. -/
def Description.extremes : Description :=
  { initialState := "run"
    vars := [⟨"half", ⟨0xbf000000⟩⟩, ⟨"top", ⟨0x7f7fffff⟩⟩, ⟨"least", ⟨1⟩⟩]
    states := [{ id := "run", speed := "top \"\u0007\"" }] }

theorem Description.parse?_document_extremes : extremes.ReadsNearest ∧
    parse? extremes.document
      = if ∀ v ∈ extremes.vars, v.value.isFinite then some extremes else none := by
  have hread : extremes.ReadsNearest := by
    unfold ReadsNearest
    decide +kernel
  exact ⟨hread, parse?_document hread⟩

/-- A document with a number above all finite values. -/
def Description.overflowing : String :=
  "\x7b\"initial_state\":\"run\",\"variables\":[\x7b\"name\":\"speed\",\"value\":1e39\x7d]," ++
    "\"states\":[]\x7d"

/-- **A value that was rounded to infinity makes a document that is not read.** -/
theorem Description.parse?_overflowing :
    ∃ d, parse? overflowing = some d ∧ parse? d.document = none :=
  ⟨⟨"run", [⟨"speed", ⟨0x7f800000⟩⟩], []⟩, by decide +kernel, by decide +kernel⟩

end Flipbook.Machine
