import Flipbook.Proofs.Machine.Frames

/-!
# Proofs/Machine/Weighing — a tick plays the first of the heaviest animations

Each animation of a state has a finite weight, or raises one failure that says why it has none
(`Record.weightFailure?`).  A tick raises these failures, in the order of the animations, before
anything else, and plays the animation that no other one outweighs and that no earlier one equals
(`Record.Heaviest`).  There is one exactly if some weight is finite, and then only one:
`Record.playsHeaviest`.
-/

namespace Flipbook.Machine.Record

variable {r : Record} {dt : Single} {capacity : Nat} {source : SpriteSource} {state : State}
  {entry other : AnimationEntry} {i j : Nat} {name : LongHash}

/-! ## Weights that fail -/

/-- The failure of an animation whose weight cannot be evaluated or is not finite. -/
def weightFailure? (r : Record) (capacity : Nat) (entry : AnimationEntry) : Option Event :=
  match r.evaluate capacity entry.weight with
  | .ok weight =>
    if weight.isFinite then none
    else some (r.failure
      ("weight of animation " ++ entry.name.text ++ " evaluated to " ++ weight.text))
  | .error e => some (r.failure ("weight of animation " ++ entry.name.text ++ ": " ++ e.message))

/-- **An animation has a finite weight or raises a failure**, and not both. -/
theorem finiteWeight_or_fails (r : Record) (capacity : Nat) (entry : AnimationEntry) :
    ((∃ w, r.FiniteWeight capacity entry w) ∧ r.weightFailure? capacity entry = none) ∨
      ((∀ w, ¬ r.FiniteWeight capacity entry w) ∧
        ∃ reason, r.weightFailure? capacity entry = some (.evaluationFailed r.entity reason)) := by
  unfold weightFailure? FiniteWeight
  cases hweight : r.evaluate capacity entry.weight with
  | error e => exact .inr ⟨by simp, _, rfl⟩
  | ok w =>
    by_cases hfinite : w.isFinite
    · exact .inl ⟨⟨w, rfl, hfinite⟩, if_pos hfinite⟩
    · refine .inr ⟨fun v hv => hfinite ?_, _, if_neg hfinite⟩
      rw [Except.ok.inj hv.1]
      exact hv.2

/-- The failures of a tick are those of the animations, in order. -/
theorem weightFailures_weighed : r.weightFailures (r.weighed capacity state)
    = state.animations.filterMap (r.weightFailure? capacity) := by
  rw [weightFailures, weighed, List.filterMap_map]
  congr 1
  funext entry
  simp only [Function.comp_apply, weigh, weightFailure?]
  cases r.evaluate capacity entry.weight with
  | error e => rfl
  | ok w =>
    by_cases hfinite : w.isFinite <;>
      simp only [hfinite, if_true, Bool.false_eq_true, if_false]

/-! ## The heaviest animation -/

/-- Whether the animation at a place is the first one of the heaviest of a state: its weight is
finite, no finite weight is greater, and those before it are less. -/
structure Heaviest (r : Record) (capacity : Nat) (state : State) (i : Nat)
    (entry : AnimationEntry) : Prop where
  found : state.animations[i]? = some entry
  leads : ∃ w, r.FiniteWeight capacity entry w ∧ ∀ j other v, state.animations[j]? = some other →
    r.FiniteWeight capacity other v → ¬ w.less v ∧ (j < i → v.less w)

/-- None of the heaviest stands before the first one. -/
theorem Heaviest.le (h : r.Heaviest capacity state i entry)
    (h' : r.Heaviest capacity state j other) : j ≤ i := by
  obtain ⟨w, hw, hleads⟩ := h.leads
  obtain ⟨v, hv, hleads'⟩ := h'.leads
  by_contra hlt
  exact (hleads j other v h'.found hv).1 ((hleads' i entry w h.found hw).2 (Nat.not_le.1 hlt))

theorem Heaviest.unique (h : r.Heaviest capacity state i entry)
    (h' : r.Heaviest capacity state j other) : j = i :=
  Nat.le_antisymm (h.le h') (h'.le h)

theorem Heaviest.selects (h : r.Heaviest capacity state i entry) :
    r.Selects capacity state entry.name := by
  obtain ⟨hi, hentry⟩ := List.getElem?_eq_some_iff.1 h.found
  obtain ⟨w, hw, hleads⟩ := h.leads
  refine ⟨state.animations.take i, entry, state.animations.drop (i + 1), w, ?_, rfl, hw,
    fun e he v hv => ?_, fun e he v hv => ?_⟩
  · rw [← hentry, ← List.drop_eq_getElem_cons hi, List.take_append_drop]
  · obtain ⟨j, hj, rfl⟩ := List.mem_take_iff_getElem.1 he
    exact (hleads j _ v (List.getElem?_eq_getElem _) hv).2 (by omega)
  · obtain ⟨j, hj, rfl⟩ := List.mem_drop_iff_getElem.1 he
    exact (hleads _ _ v (List.getElem?_eq_getElem _) hv).1

/-- What is selected is the first one of the heaviest. -/
theorem Selects.exists_heaviest (h : r.Selects capacity state name) :
    ∃ i entry, r.Heaviest capacity state i entry ∧ entry.name = name := by
  obtain ⟨front, entry, back, w, hsplit, rfl, hw, hfront, hback⟩ := h
  refine ⟨front.length, entry, ⟨?_, w, hw, fun j other v hj hv => ?_⟩, rfl⟩
  · simp [hsplit]
  rw [hsplit] at hj
  rcases Nat.lt_trichotomy j front.length with hlt | rfl | hgt
  · rw [List.getElem?_append_left hlt] at hj
    have hless := hfront other (List.mem_of_getElem? hj) v hv
    exact ⟨fun hless' => Single.not_less_self _ (Single.less_trans hless hless'), fun _ => hless⟩
  · rw [List.getElem?_append_right (Nat.le_refl _), Nat.sub_self, List.getElem?_cons_zero] at hj
    obtain rfl := Option.some.inj hj
    obtain rfl := Except.ok.inj (hw.1.symm.trans hv.1)
    exact ⟨Single.not_less_self _, fun hlt => absurd hlt (Nat.lt_irrefl _)⟩
  · obtain ⟨n, rfl⟩ := Nat.exists_eq_add_of_lt hgt
    rw [List.getElem?_append_right (by omega), Nat.add_assoc, Nat.add_sub_cancel_left,
      List.getElem?_cons_succ] at hj
    exact ⟨hback other (List.mem_of_getElem? hj) v hv, fun hlt => by omega⟩

/-! ## One tick -/

/-- What a tick does with the animation that it chose. -/
def play (r : Record) (dt : Single) (capacity : Nat) (source : SpriteSource) (state : State)
    (name : LongHash) : Option Nat × List Event × Record :=
  match r.display source name with
  | none => (none, [r.failure ("animation " ++ name.text ++ " is missing or empty")], r)
  | some shown =>
    let (speed, speedFailures) := shown.speed capacity state
    let moved := { shown with time := shown.time + dt * speed }
    let (endEvents, after) := moved.finish state
    (moved.frame? state, speedFailures ++ endEvents, after)

/-- The animation that a tick plays is shown afterwards, unless there is no playable sprite of
it. -/
theorem active_play (r : Record) (dt : Single) (capacity : Nat) (source : SpriteSource)
    (state : State) (name : LongHash) :
    (r.play dt capacity source state name).2.2.active = some name ∨
      (r.display source name = none ∧ (r.play dt capacity source state name).2.2 = r) := by
  unfold play
  cases hshown : r.display source name with
  | none => exact .inr ⟨rfl, rfl⟩
  | some shown =>
    obtain ⟨animation, time, rfl⟩ := r.display_eq_some hshown
    exact .inl (showsSame_finish _ state).active

/-- What a tick of a record in a state makes of the weights of its animations. -/
structure PlaysHeaviest (r : Record) (dt : Single) (capacity : Nat) (source : SpriteSource)
    (state : State) : Prop where
  /-- Every animation has a finite weight or raises one failure of the entity. -/
  fails : ∀ entry, ((∃ w, r.FiniteWeight capacity entry w) ∧
      r.weightFailure? capacity entry = none) ∨
    ((∀ w, ¬ r.FiniteWeight capacity entry w) ∧
      ∃ reason, r.weightFailure? capacity entry = some (.evaluationFailed r.entity reason))
  /-- If some weight is finite, one animation is the first of the heaviest. -/
  found : (∃ entry ∈ state.animations, ∃ w, r.FiniteWeight capacity entry w) →
    ∃ i entry, r.Heaviest capacity state i entry
  /-- No other one is. -/
  unique : ∀ i entry j other, r.Heaviest capacity state i entry →
    r.Heaviest capacity state j other → j = i
  /-- It is the one that is played, after the failures of the others. -/
  plays : ∀ i entry, r.Heaviest capacity state i entry → r.step dt capacity source
    = ((r.play dt capacity source state entry.name).1,
      state.animations.filterMap (r.weightFailure? capacity)
        ++ (r.play dt capacity source state entry.name).2.1,
      (r.play dt capacity source state entry.name).2.2)
  /-- It is shown afterwards, unless there is no playable sprite of it. -/
  shows : ∀ i entry, r.Heaviest capacity state i entry →
    (r.step dt capacity source).2.2.active = some entry.name ∨
      (r.display source entry.name = none ∧ (r.step dt capacity source).2.2 = r)
  /-- If no weight is finite, there are the failures and nothing else. -/
  nothing : (∀ entry ∈ state.animations, ∀ w, ¬ r.FiniteWeight capacity entry w) →
    r.step dt capacity source
      = (none, state.animations.filterMap (r.weightFailure? capacity), r)

theorem step_of_heaviest (hstate : r.resource.state? r.state = some state)
    (h : r.Heaviest capacity state i entry) : r.step dt capacity source
      = ((r.play dt capacity source state entry.name).1,
        state.animations.filterMap (r.weightFailure? capacity)
          ++ (r.play dt capacity source state entry.name).2.1,
        (r.play dt capacity source state entry.name).2.2) := by
  obtain ⟨weight, hbest⟩ := exists_heaviest_weighed.2 h.selects
  rw [← weightFailures_weighed]
  unfold weighed at *
  simp only [step, hstate, hbest, play]
  cases r.display source entry.name with
  | none => rfl
  | some shown => simp only [List.append_assoc]

/-- **A tick plays the first of the heaviest animations**, after the failures of those that have no
weight. -/
theorem playsHeaviest (hstate : r.resource.state? r.state = some state) (dt : Single)
    (capacity : Nat) (source : SpriteSource) : r.PlaysHeaviest dt capacity source state where
  fails := finiteWeight_or_fails r capacity
  found hsome := by
    cases hbest : heaviest none (r.weighed capacity state) with
    | none =>
      obtain ⟨entry, hentry, w, hw⟩ := hsome
      exact absurd hw (heaviest_weighed_eq_none.1 hbest entry hentry w)
    | some best =>
      obtain ⟨i, entry, h, -⟩ :=
        (exists_heaviest_weighed.1 ⟨best.1, hbest⟩).exists_heaviest
      exact ⟨i, entry, h⟩
  unique _ _ _ _ h h' := h.unique h'
  plays _ _ h := step_of_heaviest hstate h
  shows i entry h := by
    rw [step_of_heaviest hstate h]
    exact r.active_play dt capacity source state entry.name
  nothing hnone := by
    rw [← weightFailures_weighed]
    have hbest := heaviest_weighed_eq_none.2 hnone
    unfold weighed at *
    simp only [step, hstate, hbest]

/-- A state of three animations: the weights are a NaN, negative zero and zero. -/
def tiedState : State where
  offset := 24
  speed := 4
  looping := false
  transitions := []
  animations := [⟨⟨5⟩, 0⟩, ⟨⟨6⟩, 2⟩, ⟨⟨7⟩, 4⟩]

/-- A door that has this state alone. -/
def tiedDoor : Resource :=
  { Engine.door with
    states := [tiedState]
    byteCode := [.push Single.nan, .finish, .push ⟨0x80000000⟩, .finish, .push Single.zero,
      .finish] }

theorem playsHeaviest_tiedDoor :
    (start ⟨7⟩ tiedDoor).resource.state? (start ⟨7⟩ tiedDoor).state = some tiedState ∧
      (∃ i entry, (start ⟨7⟩ tiedDoor).Heaviest 32 tiedState i entry ∧ entry.name = ⟨6⟩) ∧
      (start ⟨7⟩ tiedDoor).PlaysHeaviest Single.one 32 (fun _ => some ⟨[4], Single.one⟩)
        tiedState := by
  have hstate : (start ⟨7⟩ tiedDoor).resource.state? (start ⟨7⟩ tiedDoor).state
      = some tiedState := rfl
  refine ⟨hstate, Selects.exists_heaviest (exists_heaviest_weighed.1 ⟨⟨0x80000000⟩, ?_⟩),
    playsHeaviest hstate Single.one 32 _⟩
  decide +kernel

end Flipbook.Machine.Record
