import Flipbook.Proofs.Machine.Lookups

/-!
# Proofs/Machine/Acceptance — the descriptions that build

Whether a description builds is decided in a check of its structure and, expression by expression,
while the byte code grows towards its limit.  `Description.Valid` says at once what is asked of it:
it is well-formed, every expression compiles, and the programs together are within the limit.  Where
the resource is not too large, exactly the valid descriptions build (`build_validates`).
-/

namespace Flipbook.Machine

open Flipbook.Expr (Environment Program compile)
open Building

/-! ## Lengths -/

/-- The number of words of an expression; none if it does not compile. -/
def programLength (env : Environment) (text : String) : Nat :=
  match compile text env with
  | .ok p => p.length
  | .error _ => 0

/-- The number of words of some expressions together. -/
def codeLength (env : Environment) (texts : List String) : Nat :=
  (texts.map (programLength env)).sum

namespace StateDescription

/-- The expressions of a state, in the order of their programs. -/
def expressions (s : StateDescription) : List String := s.speed :: s.animations.map (·.weight)

/-- The size of the record of a state. -/
def recordSize (s : StateDescription) : Nat :=
  Layout.stateSize s.transitions.length s.animations.length

end StateDescription

namespace Description

/-- The expressions of all states. -/
def expressions (d : Description) : List String := d.states.flatMap (·.expressions)

/-- The size of the resource of a description: its header, its state records, its variables and its
programs. -/
def resourceSize (d : Description) (settings : BuildSettings) : Nat :=
  Layout.headerSize + (d.states.map (·.recordSize)).sum + 8 * d.vars.length +
    4 * codeLength (settings.environment d.variableNames) d.expressions

/-- Whether a description can be built: its structure is sound, every expression compiles, and the
programs together are within the limit. -/
structure Valid (d : Description) (settings : BuildSettings) : Prop extends d.WellFormed where
  compiles : ∀ text ∈ d.expressions,
    ∃ p, compile text (settings.environment d.variableNames) = .ok p
  fits : codeLength (settings.environment d.variableNames) d.expressions ≤ settings.maxByteCodeWords

end Description

/-! ## Growing byte code -/

/-- Whether byte code grows by the programs of some expressions, up to a limit at most. -/
def Appends (env : Environment) (limit : Nat) (code : CodeBlock) (texts : List String)
    (code' : CodeBlock) : Prop :=
  ∃ programs, List.Forall₂ (fun text p => compile text env = .ok p) texts programs ∧
    code' = code ++ programs.flatMap Program.words ∧ code'.length ≤ limit

section Appends

variable {env : Environment} {limit : Nat} {code code' : CodeBlock} {text : String}
  {texts texts' : List String}

theorem programLength_of_compile {p : Program} (h : compile text env = .ok p) :
    programLength env text = p.length := by
  rw [programLength, h]

theorem Appends.length_le (h : Appends env limit code texts code') : code'.length ≤ limit := by
  obtain ⟨_, -, -, hlimit⟩ := h
  exact hlimit

theorem Appends.start_le (h : Appends env limit code texts code') : code.length ≤ limit := by
  obtain ⟨_, -, rfl, hlimit⟩ := h
  rw [List.length_append] at hlimit
  exact Nat.le_of_add_right_le hlimit

/-- The byte code grows by the lengths of the programs. -/
theorem length_flatMap_words {programs : List Program}
    (h : List.Forall₂ (fun text p => compile text env = .ok p) texts programs) :
    (programs.flatMap Program.words).length = codeLength env texts := by
  induction h with
  | nil => rfl
  | @cons text p texts programs hp _ ih =>
    rw [List.flatMap_cons, List.length_append, ih, codeLength, codeLength, List.map_cons,
      List.sum_cons, programLength_of_compile hp]
    rfl

theorem Appends.length_eq (h : Appends env limit code texts code') :
    code'.length = code.length + codeLength env texts := by
  obtain ⟨programs, hprograms, rfl, -⟩ := h
  rw [List.length_append, length_flatMap_words hprograms]

theorem appends_nil : Appends env limit code [] code' ↔ code' = code ∧ code.length ≤ limit := by
  constructor
  · rintro ⟨_, _ | _, rfl, hlimit⟩
    rw [List.flatMap_nil, List.append_nil] at hlimit ⊢
    exact ⟨rfl, hlimit⟩
  · rintro ⟨rfl, hlimit⟩
    exact ⟨[], .nil, (List.append_nil _).symm, hlimit⟩

theorem appends_cons : Appends env limit code (text :: texts) code' ↔
    ∃ p, compile text env = .ok p ∧ Appends env limit (code ++ p.words) texts code' := by
  constructor
  · rintro ⟨_, _ | ⟨hp, hprograms⟩, rfl, hlimit⟩
    exact ⟨_, hp, _, hprograms, by rw [List.flatMap_cons, List.append_assoc], hlimit⟩
  · rintro ⟨p, hp, programs, hprograms, rfl, hlimit⟩
    exact ⟨p :: programs, .cons hp hprograms, by rw [List.flatMap_cons, List.append_assoc], hlimit⟩

/-- **Expressions one behind the other grow the byte code one after the other**: where all of them
are within the limit, the first ones are. -/
theorem appends_append : Appends env limit code (texts ++ texts') code' ↔
    ∃ code₁, Appends env limit code texts code₁ ∧ Appends env limit code₁ texts' code' := by
  induction texts generalizing code with
  | nil =>
    constructor
    · intro h
      exact ⟨code, appends_nil.2 ⟨rfl, h.start_le⟩, h⟩
    · rintro ⟨_, h, h'⟩
      obtain ⟨rfl, -⟩ := appends_nil.1 h
      exact h'
  | cons text texts ih =>
    simp only [List.cons_append, appends_cons, ih]
    constructor
    · rintro ⟨p, hp, code₁, h, h'⟩
      exact ⟨code₁, ⟨p, hp, h⟩, h'⟩
    · rintro ⟨code₁, ⟨p, hp, h⟩, h'⟩
      exact ⟨p, hp, code₁, h, h'⟩

/-- **Some expressions have byte code exactly if each of them compiles and all together are within
the limit.** -/
theorem exists_appends_iff : (∃ code', Appends env limit [] texts code') ↔
    (∀ text ∈ texts, ∃ p, compile text env = .ok p) ∧ codeLength env texts ≤ limit := by
  constructor
  · rintro ⟨code', h⟩
    have hlen := h.length_eq
    rw [List.length_nil, Nat.zero_add] at hlen
    refine ⟨?_, hlen ▸ h.length_le⟩
    obtain ⟨programs, hprograms, -⟩ := h
    exact exists_forall₂_iff.1 ⟨programs, hprograms⟩
  · rintro ⟨hcompiles, hlimit⟩
    obtain ⟨programs, hprograms⟩ := exists_forall₂_iff.2 hcompiles
    refine ⟨_, programs, hprograms, rfl, ?_⟩
    rw [List.nil_append, length_flatMap_words hprograms]
    exact hlimit

end Appends

/-! ## Placing expressions -/

/-- Whether a step that grows the byte code succeeds exactly if some expressions compile within the
limit, and then grows it by their programs. -/
def Places {α : Type} (env : Environment) (limit : Nat) (texts : List String)
    (step : CodeBlock → Building (α × CodeBlock)) : Prop :=
  ∀ code code', code.length ≤ limit →
    ((∃ a, (step code).run.value = .ok (a, code')) ↔ Appends env limit code texts code')

section Placing

variable {env : Environment} {limit : Nat} {texts texts' : List String} {α β γ : Type}

theorem places_pure (a : α) : Places env limit [] fun code => pure (a, code) := by
  intro code code' hcode
  rw [appends_nil]
  constructor
  · rintro ⟨_, h⟩
    obtain ⟨rfl, rfl⟩ := Prod.mk.inj (value_pure_eq_ok.1 h)
    exact ⟨rfl, hcode⟩
  · rintro ⟨rfl, -⟩
    exact ⟨a, rfl⟩

/-- **One step after the other places the expressions of both.** -/
theorem Places.bind {step : CodeBlock → Building (α × CodeBlock)}
    {step' : CodeBlock → Building (β × CodeBlock)} (h : Places env limit texts step)
    (h' : Places env limit texts' step') (f : α → β → γ) :
    Places env limit (texts ++ texts') fun code => do
      let (a, code) ← step code
      let (b, code) ← step' code
      return (f a b, code) := by
  intro code code' hcode
  rw [appends_append]
  constructor
  · rintro ⟨_, hboth⟩
    obtain ⟨⟨a, code₁⟩, ha, hboth⟩ := value_bind_eq_ok.1 hboth
    obtain ⟨⟨b, code₂⟩, hb, hboth⟩ := value_bind_eq_ok.1 hboth
    obtain ⟨rfl, rfl⟩ := Prod.mk.inj (value_pure_eq_ok.1 hboth)
    have hfirst := (h _ _ hcode).1 ⟨a, ha⟩
    exact ⟨code₁, hfirst, (h' _ _ hfirst.length_le).1 ⟨b, hb⟩⟩
  · rintro ⟨code₁, hfirst, hrest⟩
    obtain ⟨a, ha⟩ := (h _ _ hcode).2 hfirst
    obtain ⟨b, hb⟩ := (h' _ _ hfirst.length_le).2 hrest
    exact ⟨_, value_bind_eq_ok.2 ⟨_, ha, value_bind_eq_ok.2 ⟨_, hb, rfl⟩⟩⟩

/-- An expression is placed if it compiles and its program is within the limit. -/
theorem places_placeExpression (position : ExpressionPlace) (text : String) :
    Places env limit [text] fun code => placeExpression env limit code position text := by
  intro code code' _
  simp only [appends_cons, appends_nil, placeExpression, compile]
  cases Expr.Compilation.ofSource text env with
  | error fault =>
    refine iff_of_false ?_ ?_
    · rintro ⟨_, h⟩
      exact value_throw_ne_ok h
    · rintro ⟨_, h, -⟩
      cases h
  | ok c =>
    simp only [value_bind_eq_ok, value_require_eq_ok, value_pure_eq_ok, decide_eq_true_eq]
    constructor
    · rintro ⟨_, _, -, _, hlimit, ⟨⟩⟩
      exact ⟨c.program, rfl, rfl, by rwa [List.length_append]⟩
    · rintro ⟨_, ⟨⟩, rfl, hlimit⟩
      rw [List.length_append] at hlimit
      exact ⟨code.length, (), rfl, (), hlimit, rfl⟩

theorem places_placeWeights (state : String) (animations : List AnimationDescription) :
    Places env limit (animations.map (·.weight)) fun code =>
      placeWeights env limit state code animations := by
  induction animations with
  | nil => exact places_pure []
  | cons a animations ih =>
    exact (places_placeExpression (.weight state a.name) a.weight).bind ih
      fun weight later => (LongHash.ofName a.name, weight) :: later

theorem places_placeState (s : StateDescription) :
    Places env limit s.expressions fun code => placeState env limit code s :=
  (places_placeExpression (.speed s.id) s.speed).bind (places_placeWeights s.id s.animations)
    fun speed animations => StatePlan.mk speed s.looping s.transitions animations

/-- **The states are placed exactly if all of their expressions compile within the limit.** -/
theorem places_placeStates (states : List StateDescription) :
    Places env limit (states.flatMap (·.expressions)) fun code =>
      placeStates env limit code states := by
  induction states with
  | nil => exact places_pure []
  | cons s states ih =>
    rw [List.flatMap_cons]
    exact (places_placeState s).bind ih List.cons

end Placing

/-! ## Builds -/

section Builds

variable {d : Description} {settings : BuildSettings} {plans : List StatePlan} {code : CodeBlock}

/-- A rendered state has a record of the same size. -/
theorem StatePlan.Renders.size_eq {env : Environment} {s : StateDescription} {plan : StatePlan}
    (h : plan.Renders env code s) : plan.size = s.recordSize := by
  rw [StatePlan.size, StateDescription.recordSize, h.transitions, h.animations.length_eq]

/-- Rendered states have records of the same sizes. -/
theorem map_size_of_renders {env : Environment} {states : List StateDescription}
    (h : List.Forall₂ (fun s plan => plan.Renders env code s) states plans) :
    plans.map StatePlan.size = states.map (·.recordSize) := by
  induction h with
  | nil => rfl
  | cons hr _ ih => rw [List.map_cons, List.map_cons, hr.size_eq, ih]

/-- The plan of a description has the size of its resource. -/
theorem size_of_placeStates
    (h : (placeStates (settings.environment d.variableNames) settings.maxByteCodeWords []
      d.states).run.value = .ok (plans, code)) :
    (⟨d, plans, code⟩ : Plan).size = d.resourceSize settings := by
  have hrecords := map_size_of_renders (renders_of_placeStates h).2
  have hcode := (places_placeStates d.states [] code (Nat.zero_le _)).1 ⟨plans, h⟩
  rw [Plan.size, Plan.byteCodeOffset, Plan.variableListOffset, StatePlan.offsets_stop, hrecords,
    hcode.length_eq, List.length_nil, Nat.zero_add]
  rfl

/-- A description builds exactly if it is valid and its resource is not too large. -/
theorem exists_build_eq_ok : (∃ bytes, (build d settings).run.value = .ok bytes) ↔
    d.Valid settings ∧ d.resourceSize settings ≤ 0xffffffff := by
  constructor
  · rintro ⟨bytes, h⟩
    obtain ⟨hd, plans, code, hplans, hsize, -⟩ := build_eq_ok.1 h
    obtain ⟨hcompiles, hfits⟩ :=
      exists_appends_iff.1 ⟨code, (places_placeStates _ _ _ (Nat.zero_le _)).1 ⟨plans, hplans⟩⟩
    exact ⟨⟨hd, hcompiles, hfits⟩, size_of_placeStates hplans ▸ hsize⟩
  · rintro ⟨hvalid, hsize⟩
    obtain ⟨code, hcode⟩ := exists_appends_iff.2 ⟨hvalid.compiles, hvalid.fits⟩
    obtain ⟨plans, hplans⟩ := (places_placeStates _ _ _ (Nat.zero_le _)).2 hcode
    exact ⟨_, build_eq_ok.2 ⟨hvalid.toWellFormed, plans, code, hplans,
      (size_of_placeStates hplans).symm ▸ hsize, rfl⟩⟩

/-- **Validation is exact**: where the resource is not too large, a description builds exactly if it
is valid.  Nothing that is looked up on the way is missing, whatever the description. -/
theorem build_validates (d : Description) (settings : BuildSettings) :
    (d.resourceSize settings ≤ 0xffffffff →
      ((∃ bytes, (build d settings).run.value = .ok bytes) ↔ d.Valid settings)) ∧
    Lookup.build d settings = Lookup.lift (build d settings) := by
  refine ⟨fun hsize => ?_, Lookup.build_eq_lift d settings⟩
  rw [exists_build_eq_ok, and_iff_left hsize]

end Builds

/-- The machine that walks and stands is valid, as it builds. -/
theorem build_validates_walker : walker.resourceSize {} ≤ 0xffffffff ∧ walker.Valid {} := by
  have hsize : walker.resourceSize {} ≤ 0xffffffff := by decide +kernel
  have hsome : (build walker {}).run.value.toOption.isSome := by decide +kernel
  exact ⟨hsize, ((build_validates walker {}).1 hsize).1 (exists_ok_of_isSome_toOption hsome)⟩

end Flipbook.Machine
