import Flipbook.Proofs.Expr.Wire
import Flipbook.Proofs.Machine.Building
import Flipbook.Proofs.Machine.Writing
import Mathlib.Algebra.Order.BigOperators.Group.List
import Mathlib.Algebra.Order.Group.Nat

/-!
# Proofs/Machine/RoundTrip — a built resource loads again

Writing and loading compute places on their own.  `Plan.Sound.load_bytes` is where they meet: the
bytes of a sound plan load, as the resource that the plan describes.  A build whose constants are
finite makes such a plan (`sound_of_build`), so what it writes loads as a resource that mirrors the
description (`Resource.Mirrors`).
-/

namespace Flipbook.Machine

open Flipbook.Expr (Word Environment compile)

/-! ## Sound plans -/

/-- Whether a plan can be written without loss and loaded again. -/
structure Plan.Sound (p : Plan) : Prop where
  /-- Every place and number fits a word. -/
  size_le : p.size ≤ 0xffffffff
  states : p.states ≠ []
  /-- There is a state for each of the description. -/
  aligned : p.states.length = p.description.states.length
  initialState : p.description.initialState ∈ p.description.stateIds
  targets : ∀ s ∈ p.states, ∀ t ∈ s.transitions, t.target ∈ p.description.stateIds
  animated : ∀ s ∈ p.states, s.animations ≠ []
  encodable : ∀ w ∈ p.code, w.Encodable
  speeds : ∀ s ∈ p.states, SoundAt p.description.vars.length p.code s.speed
  weights : ∀ s ∈ p.states, ∀ a ∈ s.animations, SoundAt p.description.vars.length p.code a.2

namespace Plan

variable {p : Plan}

/-! ## Numbers of a sound plan -/

theorem variableListOffset_le (p : Plan) : p.variableListOffset ≤ p.size := by
  rw [size, byteCodeOffset]
  omega

theorem Sound.lt_wordBound (h : p.Sound) {n : Nat} (hn : n ≤ p.size) : n < wordBound :=
  Nat.lt_of_le_of_lt (Nat.le_trans hn h.size_le) (by decide)

/-- A state that an expression names has a place, and that is its offset. -/
theorem Sound.exists_offsetOf (h : p.Sound) {id : String} (hid : id ∈ p.description.stateIds) :
    ∃ i, p.description.stateIndex? id = some i ∧ p.stateOffsets[i]? = some (p.offsetOf id) :=
  Plan.exists_offsetOf h.aligned hid

theorem Sound.offsetOf_lt (h : p.Sound) {id : String} (hid : id ∈ p.description.stateIds) :
    p.offsetOf id < wordBound := by
  obtain ⟨i, -, hi⟩ := h.exists_offsetOf hid
  have hbound := (StatePlan.bounds_of_mem_offsets (List.mem_of_getElem? hi)).2
  exact h.lt_wordBound (Nat.le_trans (Nat.le_of_lt hbound) p.variableListOffset_le)

/-- The numbers of every state record fit words. -/
theorem Sound.stateFits (h : p.Sound) {s : StatePlan} (hs : s ∈ p.states) : p.StateFits s := by
  have hcode : p.code.length ≤ p.size := by
    rw [size]
    omega
  have hsize : s.size ≤ p.size := by
    refine Nat.le_trans ?_ p.variableListOffset_le
    rw [variableListOffset, StatePlan.offsets_stop]
    exact Nat.le_trans (List.le_sum_of_mem (List.mem_map_of_mem hs)) (Nat.le_add_left _ _)
  have hcount : s.transitions.length ≤ s.size ∧ s.animations.length ≤ s.size := by
    simp only [StatePlan.size, Layout.stateSize, Layout.transitionSize, Layout.animationSize]
    omega
  exact
    { speed := h.lt_wordBound (Nat.le_trans (Nat.le_of_lt (h.speeds s hs).1) hcode)
      transitions := h.lt_wordBound (Nat.le_trans hcount.1 hsize)
      targets := fun t ht => h.offsetOf_lt (h.targets s hs t ht)
      animations := h.lt_wordBound (Nat.le_trans hcount.2 hsize)
      weights := fun a ha =>
        h.lt_wordBound (Nat.le_trans (Nat.le_of_lt (h.weights s hs a ha).1) hcode) }

/-! ## The resource of a plan -/

/-- The position of a declared state. -/
def indexOf (p : Plan) (id : String) : Nat := (p.description.stateIndex? id).getD 0

/-- A transition as it is loaded. -/
def loadedTransition (p : Plan) (t : TransitionDescription) : Transition :=
  ⟨ShortHash.ofName t.event, ⟨p.indexOf t.target⟩, t.mode⟩

/-- A state as it is loaded from an offset. -/
def loadedState (p : Plan) (offset : Nat) (s : StatePlan) : State :=
  ⟨offset, s.speed, s.looping, s.transitions.map p.loadedTransition,
    s.animations.map fun a => ⟨a.1, a.2⟩⟩

/-- The state records of a plan as they are stored. -/
def stored (p : Plan) : List StoredState := List.zipWith p.storedState p.stateOffsets p.states

/-- The resource that a plan describes. -/
def resource (p : Plan) : Resource where
  size := p.bytes.size
  header := p.header
  initialState := ⟨p.indexOf p.description.initialState⟩
  states := List.zipWith p.loadedState p.stateOffsets p.states
  variableNames := p.description.vars.map fun v => ShortHash.ofName v.name
  defaultValues := p.description.vars.map (·.value)
  byteCode := p.code

theorem length_stateOffsets (p : Plan) : p.stateOffsets.length = p.states.length :=
  StatePlan.length_offsets _ _

/-- **The offset of a declared state is resolved to its position.** -/
theorem Sound.findIdx?_stored (h : p.Sound) {id : String} (hid : id ∈ p.description.stateIds) :
    p.stored.findIdx? (fun s => s.offset = p.offsetOf id) = some (p.indexOf id) := by
  obtain ⟨i, hi, hoffset⟩ := h.exists_offsetOf hid
  obtain ⟨hlt, hoffset⟩ := List.getElem?_eq_some_iff.1 hoffset
  have hlen : p.stored.length = p.stateOffsets.length := by simp [stored, length_stateOffsets]
  have hat : ∀ j (hj : j < p.stored.length), p.stored[j].offset = p.stateOffsets[j] := by
    simp [stored, storedState]
  rw [indexOf, hi, Option.getD_some]
  refine List.findIdx?_eq_some_iff_getElem.2 ⟨hlen ▸ hlt, ?_, fun j hji => ?_⟩
  · rw [hat, decide_eq_true_eq]
    exact hoffset
  · have hless := List.pairwise_iff_getElem.1 (StatePlan.pairwise_offsets _ p.states) j i
      (Nat.lt_trans hji hlt) hlt hji
    rw [hat, decide_eq_true_eq, ← hoffset]
    exact Nat.ne_of_lt hless

/-- The targets in the records of a sound plan are found. -/
theorem Sound.mapM_resolve (h : p.Sound) :
    p.stored.mapM (StoredState.resolve p.stored) = .ok p.resource.states := by
  simp only [mapM_eq_ok, StoredState.resolve_eq_ok]
  refine forall₂_zipWith fun offset s hs => ⟨rfl, rfl, rfl, ?_, rfl⟩
  rw [storedState, loadedState, List.forall₂_map_left_iff, List.forall₂_map_right_iff,
    List.forall₂_same]
  exact fun t ht => ⟨rfl, rfl, h.findIdx?_stored (h.targets s hs t ht)⟩

/-! ## Loading the bytes of a plan -/

/-- The numbers in the header are those of the plan. -/
structure HeaderFits (p : Plan) : Prop where
  initialStateOffset : p.header.initialStateOffset.toNat = p.offsetOf p.description.initialState
  variableCount : p.header.variableCount.toNat = p.description.vars.length
  variableListOffset : p.header.variableListOffset.toNat = p.variableListOffset
  byteCodeSize : p.header.byteCodeSize.toNat = p.code.length
  byteCodeOffset : p.header.byteCodeOffset.toNat = p.byteCodeOffset

theorem Sound.headerFits (h : p.Sound) : p.HeaderFits where
  initialStateOffset := UInt32.toNat_ofNat_of_lt' (h.offsetOf_lt h.initialState)
  variableCount := UInt32.toNat_ofNat_of_lt' (h.lt_wordBound (by rw [size, byteCodeOffset]; omega))
  variableListOffset := UInt32.toNat_ofNat_of_lt' (h.lt_wordBound p.variableListOffset_le)
  byteCodeSize := UInt32.toNat_ofNat_of_lt' (h.lt_wordBound (by rw [size]; omega))
  byteCodeOffset := UInt32.toNat_ofNat_of_lt' (h.lt_wordBound (by rw [size]; omega))

/-- The bytes from the variable list on. -/
theorem drop_variableListOffset (p : Plan) :
    p.bytes.toList.drop p.variableListOffset = p.variableBytes ++ p.codeBytes := by
  have hlen : p.variableListOffset
      = (p.header.words.flatMap wordBytes ++ p.states.flatMap p.recordBytes).length := by
    rw [List.length_append, length_header, variableListOffset_eq]
  rw [toList_bytes, hlen, ← List.append_assoc, List.drop_left]

/-- The bytes from the byte code on. -/
theorem drop_byteCodeOffset (p : Plan) : p.bytes.toList.drop p.byteCodeOffset = p.codeBytes := by
  rw [byteCodeOffset, ← List.drop_drop, drop_variableListOffset, ← length_variableBytes,
    List.drop_left]

/-- The bytes up to the variable list. -/
theorem toList_stateRegion (h : p.HeaderFits) : (stateRegion p.bytes p.header).toList
    = p.header.words.flatMap wordBytes ++ p.states.flatMap p.recordBytes := by
  have hlen : p.variableListOffset
      = (p.header.words.flatMap wordBytes ++ p.states.flatMap p.recordBytes).length := by
    rw [List.length_append, length_header, variableListOffset_eq]
  rw [stateRegion, Array.toList_extract, List.extract_eq_take_drop, List.drop_zero, Nat.sub_zero,
    h.variableListOffset, toList_bytes, hlen, ← List.append_assoc, List.take_left]

theorem result_header (p : Plan) : Read.header.result p.bytes 0 = .ok p.header := by
  have hat : p.header.words.flatMap wordBytes <+: p.bytes.toList.drop 0 := by
    rw [List.drop_zero, toList_bytes]
    exact List.prefix_append _ _
  exact Read.result_eq_ok.2 ⟨_, Read.Reads.header p.header 0 p.bytes hat⟩

theorem result_variables (p : Plan) :
    (Read.variables p.description.vars.length).result p.bytes p.variableListOffset
      = .ok (p.resource.variableNames.map ShortHash.val, p.resource.defaultValues) := by
  have hnames : p.resource.variableNames.map ShortHash.val
      = p.description.vars.map (fun v => (ShortHash.ofName v.name).val) := List.map_map
  have hat : p.variableBytes <+: p.bytes.toList.drop p.variableListOffset := by
    rw [drop_variableListOffset]
    exact List.prefix_append _ _
  rw [hnames]
  exact Read.result_eq_ok.2 ⟨_, Read.Reads.vars p _ p.bytes hat⟩

theorem result_code (p : Plan) : (Read.times p.code.length Read.word).result p.bytes
    p.byteCodeOffset = .ok (p.code.map Word.encode) := by
  have hat : p.codeBytes <+: p.bytes.toList.drop p.byteCodeOffset :=
    p.drop_byteCodeOffset ▸ List.prefix_refl _
  exact Read.result_eq_ok.2 ⟨_, Read.Reads.code p _ p.bytes hat⟩

/-- The records of a sound plan are read back from the bytes up to the variable list. -/
theorem Sound.result_states (h : p.Sound) :
    (Read.states (stateRegion p.bytes p.header).size).result (stateRegion p.bytes p.header)
      Layout.headerSize = .ok p.stored := by
  have hregion := toList_stateRegion h.headerFits
  have hrecords : (stateRegion p.bytes p.header).toList.drop Layout.headerSize
      = p.states.flatMap p.recordBytes := by
    rw [hregion, ← length_header p.header, List.drop_left]
  have hcount : p.states.length ≤ (stateRegion p.bytes p.header).size := by
    have hsum := List.length_le_sum_of_one_le (p.states.map StatePlan.size) (by
      intro n hn
      obtain ⟨s, -, rfl⟩ := List.mem_map.1 hn
      exact s.size_pos)
    rw [List.length_map, ← length_records p] at hsum
    rw [← Array.length_toList, hregion, List.length_append]
    omega
  exact Read.result_eq_ok.2 (Read.run_states_of_records
    (fun s hs => ⟨h.stateFits hs, h.animated s hs⟩) hcount hrecords)

/-- The programs of the resource of a sound plan cannot fail. -/
theorem Sound.verify (h : p.Sound) : p.resource.verify = .ok () := by
  have hstate : ∀ t ∈ p.resource.states, ∃ offset, ∃ s ∈ p.states, p.loadedState offset s = t := by
    intro t ht
    obtain ⟨i, hi⟩ := List.mem_iff_getElem?.1 ht
    obtain ⟨offset, s, -, hs, rfl⟩ := List.getElem?_zipWith_eq_some.1 hi
    exact ⟨offset, s, List.mem_of_getElem? hs, rfl⟩
  have hcount : p.resource.variableCount = p.description.vars.length := List.length_map _
  rw [Resource.verify_eq_ok, hcount]
  constructor
  · intro t ht
    obtain ⟨offset, s, hs, rfl⟩ := hstate t ht
    exact h.speeds s hs
  · intro t ht a ha
    obtain ⟨offset, s, hs, rfl⟩ := hstate t ht
    obtain ⟨entry, hentry, rfl⟩ := List.mem_map.1 ha
    exact h.weights s hs entry hentry

/-- **The bytes of a sound plan load as the resource that it describes.** -/
theorem Sound.load_bytes (h : p.Sound) : load p.bytes = .ok p.resource := by
  have hheader := h.headerFits
  have hsize : p.variableListOffset + 8 * p.description.vars.length = p.byteCodeOffset ∧
      p.byteCodeOffset + 4 * p.code.length = p.size := ⟨rfl, rfl⟩
  refine load_eq_ok.2 ⟨p.stored, p.code.map Word.encode, ?_⟩
  exact
    { size := rfl
      header := p.result_header
      version := rfl
      variableEnd := by
        rw [resource, hheader.variableListOffset, hheader.variableCount, size_bytes]
        omega
      codeEnd := by
        rw [resource, hheader.byteCodeOffset, hheader.byteCodeSize, size_bytes]
        omega
      behindHeader := by
        rw [resource, hheader.variableListOffset, variableListOffset_eq]
        exact Nat.le_add_right _ _
      behindVariables := by
        rw [resource, hheader.variableListOffset, hheader.variableCount, hheader.byteCodeOffset]
        omega
      records := h.result_states
      nonempty := by
        rw [stored, Ne, List.zipWith_eq_nil_iff, ← List.length_eq_zero_iff, length_stateOffsets,
          List.length_eq_zero_iff, or_self]
        exact h.states
      initialState := by
        rw [resolve_eq_ok, resource, hheader.initialStateOffset]
        exact h.findIdx?_stored h.initialState
      states := h.mapM_resolve
      vars := by
        rw [resource, hheader.variableListOffset, hheader.variableCount]
        exact p.result_variables
      code := by
        rw [resource, hheader.byteCodeOffset, hheader.byteCodeSize]
        exact p.result_code
      byteCode := by
        rw [decodeByteCode_eq_ok, List.forall₂_map_left_iff, resource, List.forall₂_same]
        exact fun w hw => Word.decode_encode_iff.2 (h.encodable w hw)
      verified := h.verify }

end Plan

/-! ## Placed programs -/

/-- The words up to and including the first end. -/
def throughFinish : List Word → List Word
  | [] => []
  | .finish :: _ => [.finish]
  | w :: ws => w :: throughFinish ws

theorem throughFinish_append {body : List Word} (hno : .finish ∉ body) (rest : List Word) :
    throughFinish (body ++ .finish :: rest) = body ++ [.finish] := by
  induction body with
  | nil => rfl
  | cons w body ih =>
    have hrest := ih fun h => hno (List.mem_cons_of_mem _ h)
    cases w with
    | finish => exact absurd List.mem_cons_self hno
    | push | load | call => exact congrArg (_ :: ·) hrest

section Programs

variable {env : Environment} {code : CodeBlock} {place : Nat} {text : String}

/-- A placed program is what can be read at its place, up to the first end. -/
theorem Placed.throughFinish_drop (h : Placed env code place text) :
    ∃ p, compile text env = .ok p ∧ throughFinish (code.drop place) = p.words := by
  obtain ⟨p, before, after, hp, rfl, rfl⟩ := h
  obtain ⟨body, hwords, hbody, -⟩ := Expr.compiled_spec hp
  refine ⟨p, hp, ?_⟩
  rw [List.append_assoc, List.drop_left, hwords, List.append_assoc, List.singleton_append]
  exact throughFinish_append (fun h => hbody _ h) after

/-- **A placed program cannot fail** where the variables that it was compiled for exist. -/
theorem Placed.soundAt (h : Placed env code place text) {vars : Nat}
    (hvars : env.variableCount ≤ vars) : SoundAt vars code place := by
  obtain ⟨p, before, after, hp, rfl, rfl⟩ := h
  obtain ⟨body, hwords, hbody, hvalue⟩ := Expr.compiled_spec hp
  obtain ⟨value, hvalue⟩ := hvalue (List.replicate vars default) (by simpa using hvars)
  have hsound := soundBody_of_effects? (fun h => hbody _ h) hvalue
  rw [List.length_replicate] at hsound
  refine ⟨by simp [hwords], body, after, ?_, hsound⟩
  rw [List.append_assoc, List.drop_left, hwords, List.append_assoc, List.singleton_append]

/-- **The words of compiled programs can be told from their 32-bit forms**, where all constants are
finite. -/
theorem Grown.encodable (h : Grown env [] code)
    (hcount : env.variableCount ≤ Word.payloadBound)
    (hfinite : ∀ c ∈ env.constants, c.2.isFinite) : ∀ w ∈ code, w.Encodable := by
  obtain ⟨_, rfl, hmore⟩ := h
  intro w hw
  obtain ⟨text, p, hp, hw⟩ := hmore w hw
  obtain ⟨body, hwords, hbody, -⟩ := Expr.compiled_spec hp
  rw [hwords, List.mem_append, List.mem_singleton] at hw
  rcases hw with hw | rfl
  · refine (hbody w hw).encodable hcount fun name value hname => ?_
    exact Word.not_isTagged_of_isFinite (hfinite _ hname.mem_constants)
  · trivial

end Programs

/-! ## Builds -/

/-- The environment of a build has a variable for each name at most, and no constants but those of
the settings. -/
theorem BuildSettings.environment_spec (settings : BuildSettings) (names : List String) :
    (settings.environment names).variableCount ≤ names.length ∧
      (settings.environment names).constants = settings.constants.reverse := by
  obtain ⟨hconstants, hcount⟩ := Environment.ofVariables_spec names
  rw [environment, Environment.variableCount_withConstants, Environment.constants_withConstants,
    hconstants, List.append_nil]
  exact ⟨hcount, rfl⟩

/-- **A build with finite constants makes a sound plan.** -/
theorem sound_of_build {d : Description} {settings : BuildSettings} {plans : List StatePlan}
    {code : CodeBlock} (hfinite : ∀ c ∈ settings.constants, c.2.isFinite) (hd : d.WellFormed)
    (hplans : (placeStates (settings.environment d.variableNames) settings.maxByteCodeWords []
      d.states).run.value = .ok (plans, code))
    (hsize : (⟨d, plans, code⟩ : Plan).size ≤ 0xffffffff) : (⟨d, plans, code⟩ : Plan).Sound := by
  obtain ⟨hgrown, hrenders⟩ := renders_of_placeStates hplans
  obtain ⟨hvars, hconstants⟩ := settings.environment_spec d.variableNames
  have hnames : d.variableNames.length = d.vars.length := List.length_map _
  rw [hnames] at hvars
  have hfinite' : ∀ c ∈ (settings.environment d.variableNames).constants, c.2.isFinite := by
    intro c hc
    rw [hconstants, List.mem_reverse] at hc
    exact hfinite c hc
  -- every plan renders a state, which is where the description is known to be well-formed
  have hstate : ∀ plan ∈ plans, ∃ s ∈ d.states,
      plan.Renders (settings.environment d.variableNames) code s := by
    intro plan hplan
    obtain ⟨i, hi⟩ := List.mem_iff_getElem?.1 hplan
    obtain ⟨s, hs, hr⟩ := exists_getElem?_of_forall₂ hrenders hi
    exact ⟨s, List.mem_of_getElem? hs, hr⟩
  exact
    { size_le := hsize
      states := by
        rintro rfl
        exact hd.states (List.length_eq_zero_iff.1 hrenders.length_eq)
      aligned := hrenders.length_eq.symm
      initialState := hd.initialState
      targets := by
        intro plan hplan t ht
        obtain ⟨s, hs, hr⟩ := hstate plan hplan
        exact hd.targets s hs t (hr.transitions ▸ ht)
      animated := by
        intro plan hplan hnil
        obtain ⟨s, hs, hr⟩ := hstate plan hplan
        refine hd.animations s hs (List.length_eq_zero_iff.1 ?_)
        rw [hr.animations.length_eq, hnil, List.length_nil]
      encodable := hgrown.encodable (Nat.le_trans hvars hd.vars) hfinite'
      speeds := by
        intro plan hplan
        obtain ⟨s, hs, hr⟩ := hstate plan hplan
        exact hr.speed.soundAt hvars
      weights := by
        intro plan hplan a ha
        obtain ⟨s, hs, hr⟩ := hstate plan hplan
        obtain ⟨i, hi⟩ := List.mem_iff_getElem?.1 ha
        obtain ⟨_, -, hentry⟩ := exists_getElem?_of_forall₂ hr.animations hi
        exact hentry.2.soundAt hvars }

/-! ## Mirrors -/

/-- Whether the program at a place of a resource is that of an expression. -/
def Resource.Runs (r : Resource) (env : Environment) (place : Nat) (text : String) : Prop :=
  ∃ p, compile text env = .ok p ∧ throughFinish (r.program place) = p.words

/-- Whether a loaded transition is one of a description. -/
structure Transition.Mirrors (d : Description) (t : TransitionDescription) (t' : Transition) :
    Prop where
  event : t'.event = ShortHash.ofName t.event
  target : d.stateIds[t'.target.index]? = some t.target
  mode : t'.mode = t.mode

/-- Whether a loaded state is one of a description. -/
structure State.Mirrors (d : Description) (env : Environment) (r : Resource) (s : StateDescription)
    (s' : State) : Prop where
  looping : s'.looping = s.looping
  speed : r.Runs env s'.speed s.speed
  transitions : List.Forall₂ (Transition.Mirrors d) s.transitions s'.transitions
  animations : List.Forall₂ (fun (a : AnimationDescription) (a' : AnimationEntry) =>
    a'.name = LongHash.ofName a.name ∧ r.Runs env a'.weight a.weight) s.animations s'.animations

/-- Whether a resource is the machine of a description, with expressions compiled in `env`. -/
structure Resource.Mirrors (d : Description) (env : Environment) (r : Resource) : Prop where
  stateCount : r.stateCount = d.states.length
  /-- A state is told by its name, so that the positions below are the only ones. -/
  stateIds : d.stateIds.Nodup
  initialState : d.stateIds[r.initialState.index]? = some d.initialState
  states : List.Forall₂ (State.Mirrors d env r) d.states r.states
  variableNames : r.variableNames = d.vars.map fun v => ShortHash.ofName v.name
  defaultValues : r.defaultValues = d.vars.map (·.value)

/-- A declared state stands at its position. -/
theorem Plan.Sound.getElem?_indexOf {p : Plan} (h : p.Sound) {id : String}
    (hid : id ∈ p.description.stateIds) : p.description.stateIds[p.indexOf id]? = some id := by
  obtain ⟨i, hi, -⟩ := h.exists_offsetOf hid
  obtain ⟨hlt, hat, -⟩ := List.idxOf?_eq_some_iff.1 hi
  rw [Plan.indexOf, hi, Option.getD_some, List.getElem?_eq_getElem hlt, hat]

/-- A placed program is run by the resource of the plan. -/
theorem Placed.runs {p : Plan} {env : Environment} {place : Nat} {text : String}
    (h : Placed env p.code place text) : p.resource.Runs env place text :=
  h.throughFinish_drop

/-- **The resource of a sound plan mirrors the description** whose states the plan renders. -/
theorem Plan.Sound.mirrors {p : Plan} {env : Environment} (h : p.Sound)
    (hd : p.description.WellFormed)
    (hrenders : List.Forall₂ (fun s plan => plan.Renders env p.code s) p.description.states
      p.states) : p.resource.Mirrors p.description env := by
  have hstates : List.Forall₂ (State.Mirrors p.description env p.resource) p.description.states
      p.resource.states := by
    refine forall₂_zipWith_right ((List.forall₂_and_left _ _).2 ⟨hd.targets, hrenders⟩)
      p.length_stateOffsets fun offset plan s ⟨htargets, hr⟩ => ⟨hr.looping, hr.speed.runs, ?_, ?_⟩
    · rw [loadedState, hr.transitions, List.forall₂_map_right_iff, List.forall₂_same]
      exact fun t ht => ⟨rfl, h.getElem?_indexOf (htargets t ht), rfl⟩
    · rw [loadedState, List.forall₂_map_right_iff]
      exact hr.animations.imp fun a entry he => ⟨he.1, he.2.runs⟩
  exact ⟨hstates.length_eq.symm, hd.stateIds, h.getElem?_indexOf h.initialState, hstates, rfl, rfl⟩

/-- **A built resource loads again, and mirrors its description.** -/
theorem load_build {d : Description} {settings : BuildSettings} {bytes : Blob}
    (hfinite : ∀ c ∈ settings.constants, c.2.isFinite)
    (h : (build d settings).run.value = .ok bytes) :
    ∃ r, load bytes = .ok r ∧ r.Mirrors d (settings.environment d.variableNames) := by
  obtain ⟨hd, plans, code, hplans, hsize, rfl⟩ := build_eq_ok.1 h
  have hsound := sound_of_build hfinite hd hplans hsize
  exact ⟨_, hsound.load_bytes, hsound.mirrors hd (renders_of_placeStates hplans).2⟩

/-- A machine of two states that lead to each other, one of them played at a speed of its own. -/
def walker : Description where
  initialState := "idle"
  vars := [⟨"speed", ⟨0x3f800000⟩⟩]
  states := [
    { id := "idle", animations := [{ name := "stand" }],
      transitions := [⟨"move", "walk", .immediate⟩] },
    { id := "walk", speed := "speed", looping := true, animations := [{ name := "step" }],
      transitions := [⟨"stop", "idle", .waitUntilEnd⟩] }]

theorem load_build_walker : ∃ bytes r, (build walker {}).run.value = .ok bytes ∧
    load bytes = .ok r ∧ r.Mirrors walker (BuildSettings.environment {} walker.variableNames) := by
  have hsome : (build walker {}).run.value.toOption.isSome := by decide +kernel
  cases hbuild : (build walker {}).run.value with
  | error e =>
    rw [hbuild] at hsome
    cases hsome
  | ok bytes =>
    obtain ⟨r, hr, hmirrors⟩ := load_build (by decide) hbuild
    exact ⟨bytes, r, rfl, hr, hmirrors⟩

end Flipbook.Machine
