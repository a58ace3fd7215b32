import Flipbook.Machine.Build
import Flipbook.Proofs.Steps

/-!
# Proofs/Machine/Building — what a finished build is

`build_eq_ok` opens `build` into its stages: a description builds exactly if it is well-formed, all
of its expressions find a place in the byte code, and the resource is not too large.  Where the
expressions are placed, the byte code holds the program of each at its place
(`renders_of_placeStates`), and nothing else.
-/

namespace Flipbook.Machine

open Flipbook.Expr (Word Environment compile)

/-! ## Steps of building -/

namespace Building

variable {α β : Type}

/-- Two steps succeed where both do. -/
theorem value_bind_eq_ok {x : Building α} {f : α → Building β} {b : β} :
    (x >>= f).run.value = .ok b ↔
      ∃ a, x.run.value = .ok a ∧ (f a).run.value = .ok b := by
  show (ExceptT.bindCont f x.run.value).value = .ok b ↔ _
  cases x.run.value with
  | error e => exact iff_of_false nofun nofun
  | ok a =>
    constructor
    · exact fun h => ⟨a, rfl, h⟩
    · rintro ⟨_, ⟨⟩, h⟩
      exact h

@[simp] theorem value_pure_eq_ok {a b : α} : (pure a : Building α).run.value = .ok b ↔ a = b :=
  ⟨Except.ok.inj, congrArg _⟩

@[simp] theorem value_throw_ne_ok {e : BuildError} {b : α} :
    (throw e : Building α).run.value ≠ .ok b := nofun

@[simp] theorem value_require_eq_ok {condition : Bool} {e : BuildError} {u : Unit} :
    (require condition e).run.value = .ok u ↔ condition = true := by
  cases condition <;> simp [require]

/-- A check succeeds over a list where it does on every entry. -/
theorem value_forM_eq_ok {f : α → Building Unit} {xs : List α} {u : Unit} :
    (xs.forM f).run.value = .ok u ↔ ∀ x ∈ xs, (f x).run.value = .ok () := by
  induction xs with
  | nil => simp [List.forM]
  | cons x xs ih =>
    have hcons : (x :: xs).forM f = f x >>= fun _ => xs.forM f := rfl
    rw [hcons, value_bind_eq_ok, List.forall_mem_cons, ih]
    constructor
    · rintro ⟨_, hx, hxs⟩
      exact ⟨hx, hxs⟩
    · rintro ⟨hx, hxs⟩
      exact ⟨(), hx, hxs⟩

end Building

open Building

/-! ## Structure -/

theorem firstRepeated?_eq_none {seen xs : List String} :
    firstRepeated? seen xs = none ↔ xs.Nodup ∧ ∀ x ∈ xs, x ∉ seen := by
  induction xs generalizing seen with
  | nil => simp [firstRepeated?]
  | cons x xs ih =>
    rw [firstRepeated?, List.nodup_cons, List.forall_mem_cons]
    split
    · rename_i hseen
      exact iff_of_false nofun fun h => h.2.1 hseen
    · rename_i hseen
      rw [ih]
      constructor
      · rintro ⟨hnodup, hfresh⟩
        exact ⟨⟨fun hx => hfresh x hx List.mem_cons_self, hnodup⟩, hseen,
          fun y hy hmem => hfresh y hy (List.mem_cons_of_mem _ hmem)⟩
      · rintro ⟨⟨hx, hnodup⟩, -, hfresh⟩
        refine ⟨hnodup, fun y hy hmem => ?_⟩
        rcases List.mem_cons.1 hmem with rfl | hmem
        · exact hx hy
        · exact hfresh y hy hmem

/-- Whether the structure of a description is sound. -/
structure Description.WellFormed (d : Description) : Prop where
  states : d.states ≠ []
  vars : d.vars.length ≤ maxVariables
  variableNames : d.variableNames.Nodup
  stateIds : d.stateIds.Nodup
  initialState : d.initialState ∈ d.stateIds
  animations : ∀ s ∈ d.states, s.animations ≠ []
  targets : ∀ s ∈ d.states, ∀ t ∈ s.transitions, t.target ∈ d.stateIds

namespace Description

variable {d : Description}

theorem checkTransitions_eq_ok {state : String} {seen : List String}
    {ts : List TransitionDescription} {u : Unit} :
    (d.checkTransitions state seen ts).run.value = .ok u ↔ ∀ t ∈ ts, t.target ∈ d.stateIds := by
  induction ts generalizing seen with
  | nil => simp [checkTransitions]
  | cons t ts ih =>
    simp only [checkTransitions, value_bind_eq_ok, value_require_eq_ok, decide_eq_true_eq,
      List.forall_mem_cons]
    constructor
    · rintro ⟨_, htarget, h⟩
      split at h
      · obtain ⟨_, -, h⟩ := value_bind_eq_ok.1 h
        exact ⟨htarget, ih.1 h⟩
      · exact ⟨htarget, ih.1 h⟩
    · rintro ⟨htarget, hrest⟩
      refine ⟨(), htarget, ?_⟩
      split
      · exact value_bind_eq_ok.2 ⟨(), rfl, ih.2 hrest⟩
      · exact ih.2 hrest

theorem checkState_eq_ok {s : StateDescription} {u : Unit} :
    (d.checkState s).run.value = .ok u ↔
      s.animations ≠ [] ∧ ∀ t ∈ s.transitions, t.target ∈ d.stateIds := by
  rw [checkState, value_bind_eq_ok]
  simp [checkTransitions_eq_ok]

/-- **A description passes its check exactly if it is well-formed.** -/
theorem check_eq_ok {u : Unit} : d.check.run.value = .ok u ↔ d.WellFormed := by
  have hnames : firstRepeated? [] d.variableNames = none ↔ d.variableNames.Nodup := by
    simp [firstRepeated?_eq_none]
  have hids : firstRepeated? [] d.stateIds = none ↔ d.stateIds.Nodup := by
    simp [firstRepeated?_eq_none]
  simp only [check, value_bind_eq_ok, value_require_eq_ok, decide_eq_true_eq]
  constructor
  · rintro ⟨_, hstates, _, hvars, h⟩
    split at h
    · obtain ⟨_, h, -⟩ := value_bind_eq_ok.1 h
      exact absurd h value_throw_ne_ok
    split at h
    · obtain ⟨_, h, -⟩ := value_bind_eq_ok.1 h
      exact absurd h value_throw_ne_ok
    rename_i hname _ hid
    obtain ⟨_, hinitial, hall⟩ := value_bind_eq_ok.1 h
    have hall := fun s hs => checkState_eq_ok.1 (value_forM_eq_ok.1 hall s hs)
    exact ⟨by simpa using hstates, hvars, hnames.1 (Option.eq_none_iff_forall_ne_some.2 hname),
      hids.1 (Option.eq_none_iff_forall_ne_some.2 hid), by simpa using hinitial,
      fun s hs => (hall s hs).1, fun s hs => (hall s hs).2⟩
  · intro h
    refine ⟨(), by simpa using h.states, (), h.vars, ?_⟩
    rw [hnames.2 h.variableNames, hids.2 h.stateIds]
    refine value_bind_eq_ok.2 ⟨(), by simpa using h.initialState, value_forM_eq_ok.2 fun s hs => ?_⟩
    exact checkState_eq_ok.2 ⟨h.animations s hs, h.targets s hs⟩

end Description

/-! ## Byte code -/

/-- Whether the program of an expression stands at a place of the byte code. -/
def Placed (env : Environment) (code : CodeBlock) (place : Nat) (text : String) : Prop :=
  ∃ p before after, compile text env = .ok p ∧ code = before ++ p.words ++ after ∧
    before.length = place

/-- Whether byte code was extended by words of compiled programs only. -/
def Grown (env : Environment) (code code' : CodeBlock) : Prop :=
  ∃ more, code' = code ++ more ∧ ∀ w ∈ more, ∃ text p, compile text env = .ok p ∧ w ∈ p.words

/-- Whether an animation is rendered by its hashed name and the place of its weight. -/
def EntryRenders (env : Environment) (code : CodeBlock) (a : AnimationDescription)
    (entry : LongHash × Nat) : Prop :=
  entry.1 = LongHash.ofName a.name ∧ Placed env code entry.2 a.weight

/-- Whether a state with its expressions placed in the byte code is a state of a description. -/
structure StatePlan.Renders (env : Environment) (code : CodeBlock) (s : StateDescription)
    (plan : StatePlan) : Prop where
  speed : Placed env code plan.speed s.speed
  looping : plan.looping = s.looping
  transitions : plan.transitions = s.transitions
  animations : List.Forall₂ (EntryRenders env code) s.animations plan.animations

section Placing

variable {env : Environment} {limit : Nat} {code code' code'' : CodeBlock}

theorem Grown.refl (env : Environment) (code : CodeBlock) : Grown env code code :=
  ⟨[], (List.append_nil _).symm, by simp⟩

theorem Grown.trans (h : Grown env code code') (h' : Grown env code' code'') :
    Grown env code code'' := by
  obtain ⟨more, rfl, hmore⟩ := h
  obtain ⟨more', rfl, hmore'⟩ := h'
  refine ⟨more ++ more', List.append_assoc _ _ _, fun w hw => ?_⟩
  exact (List.mem_append.1 hw).elim (hmore w) (hmore' w)

/-- More byte code moves nothing. -/
theorem Placed.grown {place : Nat} {text : String} (h : Placed env code place text)
    (hgrown : Grown env code code') : Placed env code' place text := by
  obtain ⟨p, before, after, hp, rfl, hlen⟩ := h
  obtain ⟨more, rfl, -⟩ := hgrown
  exact ⟨p, before, after ++ more, hp, List.append_assoc _ _ _, hlen⟩

theorem StatePlan.Renders.grown {s : StateDescription} {plan : StatePlan}
    (h : plan.Renders env code s) (hgrown : Grown env code code') : plan.Renders env code' s :=
  ⟨h.speed.grown hgrown, h.looping, h.transitions,
    h.animations.imp fun _ _ ha => ⟨ha.1, ha.2.grown hgrown⟩⟩

/-- **An expression is placed behind the byte code so far.** -/
theorem placed_of_placeExpression {position : ExpressionPlace} {text : String} {place : Nat}
    (h : (placeExpression env limit code position text).run.value = .ok (place, code')) :
    Grown env code code' ∧ Placed env code' place text := by
  unfold placeExpression at h
  split at h
  · exact absurd h value_throw_ne_ok
  · rename_i c hc
    obtain ⟨_, -, h⟩ := value_bind_eq_ok.1 h
    obtain ⟨_, -, h⟩ := value_bind_eq_ok.1 h
    obtain ⟨rfl, rfl⟩ := Prod.mk.inj (value_pure_eq_ok.1 h)
    have hcompile : compile text env = .ok c.program := by
      rw [compile, hc]
      rfl
    exact ⟨⟨c.program.words, rfl, fun w hw => ⟨text, c.program, hcompile, hw⟩⟩,
      c.program, code, [], hcompile, (List.append_nil _).symm, rfl⟩

/-- The weights of some animations are placed one behind the other. -/
theorem renders_of_placeWeights {state : String} {animations : List AnimationDescription}
    {entries : List (LongHash × Nat)}
    (h : (placeWeights env limit state code animations).run.value = .ok (entries, code')) :
    Grown env code code' ∧ List.Forall₂ (EntryRenders env code') animations entries := by
  induction animations generalizing code entries with
  | nil =>
    obtain ⟨rfl, rfl⟩ := Prod.mk.inj (value_pure_eq_ok.1 h)
    exact ⟨.refl env code, .nil⟩
  | cons a animations ih =>
    obtain ⟨⟨weight, code₁⟩, hweight, h⟩ := value_bind_eq_ok.1 h
    obtain ⟨⟨later, code₂⟩, hlater, h⟩ := value_bind_eq_ok.1 h
    obtain ⟨rfl, rfl⟩ := Prod.mk.inj (value_pure_eq_ok.1 h)
    obtain ⟨hgrown, hplaced⟩ := placed_of_placeExpression hweight
    obtain ⟨hgrown', hrenders⟩ := ih hlater
    exact ⟨hgrown.trans hgrown', .cons ⟨rfl, hplaced.grown hgrown'⟩ hrenders⟩

/-- The speed of a state is placed first, then its weights. -/
theorem renders_of_placeState {s : StateDescription} {plan : StatePlan}
    (h : (placeState env limit code s).run.value = .ok (plan, code')) :
    Grown env code code' ∧ plan.Renders env code' s := by
  obtain ⟨⟨speed, code₁⟩, hspeed, h⟩ := value_bind_eq_ok.1 h
  obtain ⟨⟨animations, code₂⟩, hanimations, h⟩ := value_bind_eq_ok.1 h
  obtain ⟨rfl, rfl⟩ := Prod.mk.inj (value_pure_eq_ok.1 h)
  obtain ⟨hgrown, hplaced⟩ := placed_of_placeExpression hspeed
  obtain ⟨hgrown', hrenders⟩ := renders_of_placeWeights hanimations
  exact ⟨hgrown.trans hgrown', hplaced.grown hgrown', rfl, rfl, hrenders⟩

/-- **Every state is rendered in the byte code**, and the byte code grows by compiled programs. -/
theorem renders_of_placeStates {states : List StateDescription} {plans : List StatePlan}
    (h : (placeStates env limit code states).run.value = .ok (plans, code')) :
    Grown env code code' ∧
      List.Forall₂ (fun s plan => plan.Renders env code' s) states plans := by
  induction states generalizing code plans with
  | nil =>
    obtain ⟨rfl, rfl⟩ := Prod.mk.inj (value_pure_eq_ok.1 h)
    exact ⟨.refl env code, .nil⟩
  | cons s states ih =>
    obtain ⟨⟨plan, code₁⟩, hplan, h⟩ := value_bind_eq_ok.1 h
    obtain ⟨⟨later, code₂⟩, hlater, h⟩ := value_bind_eq_ok.1 h
    obtain ⟨rfl, rfl⟩ := Prod.mk.inj (value_pure_eq_ok.1 h)
    obtain ⟨hgrown, hrenders⟩ := renders_of_placeState hplan
    obtain ⟨hgrown', hall⟩ := ih hlater
    exact ⟨hgrown.trans hgrown', .cons (hrenders.grown hgrown') hall⟩

end Placing

/-! ## Builds -/

/-- **A description builds exactly if it is well-formed, its expressions find their places, and the
resource is not too large.** -/
theorem build_eq_ok {d : Description} {settings : BuildSettings} {bytes : Blob} :
    (build d settings).run.value = .ok bytes ↔ d.WellFormed ∧ ∃ plans code,
      (placeStates (settings.environment d.variableNames) settings.maxByteCodeWords []
        d.states).run.value = .ok (plans, code) ∧
      (⟨d, plans, code⟩ : Plan).size ≤ 0xffffffff ∧ (⟨d, plans, code⟩ : Plan).bytes = bytes := by
  simp only [build, value_bind_eq_ok, Description.check_eq_ok, value_require_eq_ok,
    decide_eq_true_eq, value_pure_eq_ok]
  constructor
  · rintro ⟨_, hd, ⟨plans, code⟩, hplans, _, hsize, _, -, rfl⟩
    exact ⟨hd, plans, code, hplans, hsize, rfl⟩
  · rintro ⟨hd, plans, code, hplans, hsize, rfl⟩
    exact ⟨(), hd, (plans, code), hplans, (), hsize, (), rfl, rfl⟩

end Flipbook.Machine
