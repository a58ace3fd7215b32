import Flipbook.Proofs.Machine.RoundTrip

/-!
# Proofs/Machine/Lookups — finding states by their names

`build` gives the state that a name stands for a place even where there is no such state.
`Lookup.build` takes the same steps, but looks the position of every target up where the transition
is met, and the offset at this position where it is written; where one of them is not found it has
no result.  `Lookup.build_eq_lift` says that everything is found, whatever the description: the
check of the structure comes first, and rules out all names of no state.
-/

namespace Flipbook.Machine

open Flipbook.Expr (Word Environment)

namespace Lookup

/-- Steps of building that look things up, and stop without a result where nothing is found. -/
abbrev Searching (α : Type) := ExceptT BuildError (OptionT (Logged Notice)) α

/-- Steps that look nothing up. -/
def lift {α : Type} (x : Building α) : Searching α := ExceptT.mk (OptionT.mk (some <$> x.run))

/-- What was looked up. -/
def find {α : Type} (x : Option α) : Searching α := ExceptT.mk (OptionT.mk (pure (x.map .ok)))

/-- A state with its expressions placed in the byte code, and the positions of the states that its
transitions lead to. -/
abbrev Placement := StatePlan × List Nat

/-- Compiles the speed of a state, finds the targets of its transitions, and compiles its
weights. -/
def placeState (d : Description) (env : Environment) (limit : Nat) (code : CodeBlock)
    (s : StateDescription) : Searching (Placement × CodeBlock) := do
  let (speed, code) ← lift (placeExpression env limit code (.speed s.id) s.speed)
  let targets ← s.transitions.mapM fun t => find (d.stateIndex? t.target)
  let (animations, code) ← lift (placeWeights env limit s.id code s.animations)
  return ((⟨speed, s.looping, s.transitions, animations⟩, targets), code)

/-- Compiles the expressions of all states, and finds all targets. -/
def placeStates (d : Description) (env : Environment) (limit : Nat) :
    CodeBlock → List StateDescription → Searching (List Placement × CodeBlock)
  | code, [] => return ([], code)
  | code, s :: rest => do
    let (placement, code) ← placeState d env limit code s
    let (later, code) ← placeStates d env limit code rest
    return (placement :: later, code)

/-- The fields of a transition to the state at an offset. -/
def transitionFields (t : TransitionDescription) (offset : Nat) : List Field :=
  [.word (ShortHash.ofName t.event).val, wordField offset, wordField t.mode.number]

/-- The fields of a state record whose transitions lead to some offsets. -/
def stateFields (s : StatePlan) (offsets : List Nat) : List Field :=
  [wordField s.speed, wordField (if s.looping then 1 else 0), wordField s.transitions.length] ++
    (List.zipWith transitionFields s.transitions offsets).flatten ++
    wordField s.animations.length :: s.animations.flatMap Plan.animationFields

/-- Every field of a resource whose initial state and targets are at some offsets. -/
def fields (p : Plan) (initialOffset : Nat) (targetOffsets : List (List Nat)) : List Field :=
  .header { p.header with initialStateOffset := UInt32.ofNat initialOffset } ::
    (List.zipWith stateFields p.states targetOffsets).flatten ++ p.variableFields ++
    p.code.map fun w => .word w.encode

/-- The bytes of a plan whose transitions lead to the states at some positions. -/
def write (p : Plan) (targets : List (List Nat)) : Searching Blob := do
  let initialState ← find (p.description.stateIndex? p.description.initialState)
  let initialOffset ← find p.stateOffsets[initialState]?
  let targetOffsets ← targets.mapM fun positions =>
    positions.mapM fun position => find p.stateOffsets[position]?
  return (fields p initialOffset targetOffsets).foldl writeField #[]

/-- The resource of a description. -/
def build (d : Description) (settings : BuildSettings) : Searching Blob := do
  lift d.check
  let env := settings.environment d.variableNames
  let (placements, code) ← placeStates d env settings.maxByteCodeWords [] d.states
  let plan : Plan := ⟨d, placements.map Prod.fst, code⟩
  lift (Building.require (plan.size ≤ 0xffffffff) (.resourceTooLarge plan.size))
  let bytes ← write plan (placements.map Prod.snd)
  lift (Building.note (.built plan.states.length d.vars.length code.length bytes.size))
  return bytes

/-! ## Steps that find everything -/

section Steps

variable {α β : Type}

/-- Steps that find what they look up, one after the other, find everything. -/
theorem bind_eq_lift {x : Searching α} {y : Building α} {f : α → Searching β} {g : α → Building β}
    (hx : x = lift y) (hf : ∀ a, y.run.value = .ok a → f a = lift (g a)) :
    (x >>= f) = lift (y >>= g) := by
  subst hx
  obtain ⟨_ | a, notices⟩ := y
  · rfl
  · have hnext := hf a rfl
    have hleft : (lift (ExceptT.mk ⟨.ok a, notices⟩) >>= f).run.run =
        ⟨(f a).run.run.value, (notices ++ []) ++ (f a).run.run.notices⟩ := rfl
    have hright : (lift (ExceptT.mk ⟨.ok a, notices⟩ >>= g)).run.run =
        ⟨some (g a).run.value, (notices ++ (g a).run.notices) ++ []⟩ := rfl
    have hlift : (lift (g a)).run.run = ⟨some (g a).run.value, (g a).run.notices ++ []⟩ := rfl
    refine hleft.trans (Eq.trans ?_ hright.symm)
    rw [hnext, hlift, List.append_nil, List.append_nil, List.append_nil]

theorem pure_eq_lift (a : α) : (pure a : Searching α) = lift (pure a) := rfl

theorem lift_map (f : α → β) (x : Building α) : lift (f <$> x) = f <$> lift x :=
  (bind_eq_lift rfl fun a _ => pure_eq_lift (f a)).symm

theorem find_eq_pure {x : Option α} {a : α} (h : x = some a) : find x = pure a := by
  subst h
  rfl

/-- A list of look-ups finds everything if each of them does. -/
theorem mapM_eq_pure {f : α → Searching β} {g : α → β} {xs : List α}
    (h : ∀ x ∈ xs, f x = pure (g x)) : xs.mapM f = pure (xs.map g) := by
  induction xs with
  | nil => rfl
  | cons x xs ih =>
    obtain ⟨hx, hxs⟩ := List.forall_mem_cons.1 h
    rw [List.mapM_cons, hx, ih hxs, pure_bind, pure_bind, List.map_cons]

end Steps

/-! ## Everything is found -/

section Placing

variable {d : Description} {env : Environment} {limit : Nat}

/-- The positions of the targets of a placed state. -/
def targets (d : Description) (plan : StatePlan) : List Nat :=
  plan.transitions.map fun t => (d.stateIndex? t.target).getD 0

/-- A placed state with the positions of its targets. -/
def withTargets (d : Description) (plan : StatePlan) : Placement := (plan, targets d plan)

theorem find_stateIndex? {id : String} (h : id ∈ d.stateIds) :
    find (d.stateIndex? id) = pure ((d.stateIndex? id).getD 0) := by
  obtain ⟨i, hi⟩ := Option.isSome_iff_exists.1 (List.isSome_idxOf?.2 h)
  have hindex : d.stateIndex? id = some i := hi
  rw [hindex]
  rfl

/-- The targets of a state are found if they are declared. -/
theorem placeState_eq_lift {s : StateDescription} (h : ∀ t ∈ s.transitions, t.target ∈ d.stateIds)
    (code : CodeBlock) : placeState d env limit code s =
      Prod.map (withTargets d) id <$> lift (Machine.placeState env limit code s) := by
  rw [← lift_map, Machine.placeState, map_bind]
  refine bind_eq_lift rfl fun ⟨speed, code⟩ _ => ?_
  dsimp only
  rw [mapM_eq_pure fun t ht => find_stateIndex? (h t ht), pure_bind, map_bind]
  refine bind_eq_lift rfl fun ⟨animations, code⟩ _ => ?_
  rw [map_pure]
  rfl

/-- The targets of all states are found if they are declared. -/
theorem placeStates_eq_lift {states : List StateDescription}
    (h : ∀ s ∈ states, ∀ t ∈ s.transitions, t.target ∈ d.stateIds) (code : CodeBlock) :
    placeStates d env limit code states =
      Prod.map (List.map (withTargets d)) id <$>
        lift (Machine.placeStates env limit code states) := by
  induction states generalizing code with
  | nil => rfl
  | cons s states ih =>
    obtain ⟨hs, hstates⟩ := List.forall_mem_cons.1 h
    rw [← lift_map, Machine.placeStates, map_bind, placeStates, placeState_eq_lift hs,
      bind_map_left]
    refine bind_eq_lift rfl fun ⟨plan, code⟩ _ => ?_
    dsimp only [Prod.map]
    rw [map_bind, ih hstates, bind_map_left]
    refine bind_eq_lift rfl fun ⟨later, code⟩ _ => ?_
    rw [map_pure]
    rfl

end Placing

/-- The fields of a plan are those with the offsets that belong to its names. -/
theorem fields_offsetOf (p : Plan) :
    fields p (p.offsetOf p.description.initialState)
      (p.states.map fun s => s.transitions.map fun t => p.offsetOf t.target) = p.fields := by
  have htransitions : ∀ s : StatePlan, (List.zipWith transitionFields s.transitions
      (s.transitions.map fun t => p.offsetOf t.target)).flatten =
        s.transitions.flatMap p.transitionFields := by
    intro s
    rw [List.zipWith_map_right, List.zipWith_self, List.flatMap_def]
    rfl
  have hstates : (List.zipWith stateFields p.states
      (p.states.map fun s => s.transitions.map fun t => p.offsetOf t.target)).flatten =
        p.states.flatMap p.stateFields := by
    rw [List.zipWith_map_right, List.zipWith_self, List.flatMap_def]
    simp only [stateFields, htransitions]
    rfl
  rw [fields, hstates]
  rfl

/-- **The states that a plan names are found where it is written.** -/
theorem write_eq_pure {p : Plan} (haligned : p.states.length = p.description.states.length)
    (hinitial : p.description.initialState ∈ p.description.stateIds)
    (htargets : ∀ s ∈ p.states, ∀ t ∈ s.transitions, t.target ∈ p.description.stateIds) :
    write p (p.states.map (targets p.description)) = pure p.bytes := by
  have hoffset : ∀ id ∈ p.description.stateIds,
      find p.stateOffsets[(p.description.stateIndex? id).getD 0]? = pure (p.offsetOf id) := by
    intro id hid
    obtain ⟨i, hi, hat⟩ := Plan.exists_offsetOf haligned hid
    rw [hi]
    exact find_eq_pure hat
  have htargetOffsets : (p.states.map (targets p.description)).mapM (fun positions =>
      positions.mapM fun position => find p.stateOffsets[position]?) =
        pure (p.states.map fun s => s.transitions.map fun t => p.offsetOf t.target) := by
    rw [List.mapM_map]
    refine mapM_eq_pure fun s hs => ?_
    rw [Function.comp_apply, targets, List.mapM_map]
    exact mapM_eq_pure fun t ht => hoffset t.target (htargets s hs t ht)
  rw [write, find_stateIndex? hinitial, pure_bind, hoffset _ hinitial, pure_bind, htargetOffsets,
    pure_bind, fields_offsetOf]
  rfl

/-- **Everything that is looked up is found**, whatever the description. -/
theorem build_eq_lift (d : Description) (settings : BuildSettings) :
    build d settings = lift (Machine.build d settings) := by
  refine bind_eq_lift rfl fun _ hcheck => ?_
  have hd := Description.check_eq_ok.1 hcheck
  dsimp only
  rw [placeStates_eq_lift hd.targets, bind_map_left]
  refine bind_eq_lift rfl fun ⟨plans, code⟩ hplans => ?_
  have hrenders := (renders_of_placeStates hplans).2
  have hplaced : (plans.map (withTargets d)).map Prod.fst = plans := by
    rw [List.map_map]
    exact List.map_id plans
  have htargets : (plans.map (withTargets d)).map Prod.snd = plans.map (targets d) :=
    List.map_map
  -- every plan renders a state, which is where the description is known to be well-formed
  have hdeclared : ∀ plan ∈ plans, ∀ t ∈ plan.transitions, t.target ∈ d.stateIds := by
    intro plan hplan t ht
    obtain ⟨i, hi⟩ := List.mem_iff_getElem?.1 hplan
    obtain ⟨s, hs, hr⟩ := exists_getElem?_of_forall₂ hrenders hi
    exact hd.targets s (List.mem_of_getElem? hs) t (hr.transitions ▸ ht)
  have hwrite : write ⟨d, plans, code⟩ (plans.map (targets d)) = _ :=
    write_eq_pure hrenders.length_eq.symm hd.initialState hdeclared
  simp only [Prod.map, hplaced, htargets, id]
  refine bind_eq_lift rfl fun _ _ => ?_
  rw [hwrite, pure_bind]
  exact bind_eq_lift rfl fun _ _ => rfl

end Lookup

end Flipbook.Machine
