import Flipbook.Proofs.Machine.Selection
import Flipbook.Proofs.Machine.Walks

/-!
# Proofs/Machine/Frames — a tick shows a frame or leaves the record as it is

An animation that a record shows was playable when it was taken from the source, and the record
keeps it (`Record.Showing`), so there is a frame of it at every time
(`Sprite.exists_frameAt?`, `Sprite.exists_loopingFrameAt?`).  A tick therefore goes without a frame
only if it has nothing to show, and then nothing of the record changes
(`Engine.showsOrFreezes_of_record?`).
-/

namespace Flipbook.Machine

/-! ## Frames of sprites -/

namespace Sprite

variable {s : Sprite}

theorem length_pos_of_isPlayable (h : s.isPlayable) : 0 < s.frames.length := by
  simp only [isPlayable, Bool.and_eq_true, Bool.not_eq_true', List.isEmpty_eq_false_iff] at h
  exact List.length_pos_iff.2 h.1.1

/-- **A playable sprite has a frame at every time.** -/
theorem exists_frameAt? (h : s.isPlayable) (time : Single) :
    ∃ frame ∈ s.frames, s.frameAt? time = some frame := by
  have hpos := length_pos_of_isPlayable h
  have hindex : ∀ i, min i (s.frames.length - 1) < s.frames.length := by omega
  exact ⟨_, List.getElem_mem (hindex _), List.getElem?_eq_getElem (hindex _)⟩

/-- **A playable sprite that starts over has a frame at every time.** -/
theorem exists_loopingFrameAt? (h : s.isPlayable) (time : Single) :
    ∃ frame ∈ s.frames, s.loopingFrameAt? time = some frame := by
  have hpos := length_pos_of_isPlayable h
  have hindex : ∀ i : Int, (i % s.frames.length).toNat < s.frames.length := by
    intro i
    have hlow := Int.emod_nonneg i (b := s.frames.length) (by omega)
    have hhigh := Int.emod_lt_of_pos i (b := s.frames.length) (by omega)
    omega
  unfold loopingFrameAt?
  dsimp only
  split
  · exact ⟨_, List.getElem_mem (hindex _), List.getElem?_eq_getElem (hindex _)⟩
  · rw [List.head?_eq_getElem?]
    exact ⟨_, List.getElem_mem hpos, List.getElem?_eq_getElem hpos⟩

end Sprite

namespace Record

/-! ## What is shown -/

/-- Whether a record has become one that shows the same. -/
structure ShowsSame (r r' : Record) : Prop where
  active : r'.active = r.active
  animation : r'.animation = r.animation

/-- Whether the animation that a record shows can be played. -/
def Showing (r : Record) : Prop := ∀ name, r.active = some name → r.animation.isPlayable

variable {r r' m : Record} {dt : Single} {capacity : Nat} {source : SpriteSource}

theorem ShowsSame.showing (h : r.ShowsSame r') (hr : r.Showing) : r'.Showing := by
  rw [Showing, h.active, h.animation]
  exact hr

theorem showsSame_fire (r : Record) (event : ShortHash) : r.ShowsSame (r.fire event).2.2 := by
  rcases r.fire_cases event with ⟨-, h⟩ | ⟨t, -, ⟨-, h⟩ | ⟨-, h⟩⟩ <;> rw [h] <;> exact ⟨rfl, rfl⟩

/-- The end of an animation changes nothing of what is shown. -/
theorem showsSame_finish (r : Record) (state : State) : r.ShowsSame (r.finish state).2 := by
  rcases r.finish_cases state with ⟨time, h⟩ | ⟨target, -, h⟩ | ⟨-, -, time, h⟩ <;> rw [h]
  · exact ⟨rfl, rfl⟩
  · exact ⟨rfl, rfl⟩
  · have hfire := r.showsSame_fire animationEnd
    exact ⟨hfire.active, hfire.animation⟩

/-- **What a tick shows can be played.** -/
theorem Showing.moved? (hr : r.Showing) (h : r.moved? dt capacity source = some m) :
    m.animation.isPlayable ∧ m.Showing := by
  obtain ⟨state, -, h⟩ := Option.bind_eq_some_iff.1 h
  obtain ⟨⟨weight, name⟩, -, h⟩ := Option.bind_eq_some_iff.1 h
  obtain ⟨shown, hshown, h⟩ := Option.bind_eq_some_iff.1 h
  obtain rfl := Option.some.inj h
  suffices key : shown.animation.isPlayable from ⟨key, fun _ _ => key⟩
  unfold display at hshown
  split at hshown
  · rename_i hactive
    obtain rfl := Option.some.inj hshown
    exact hr name hactive
  · obtain ⟨sprite, hsprite, rfl⟩ := Option.map_eq_some_iff.1 hshown
    exact (Option.filter_eq_some_iff.1 hsprite).2

/-- What a record shows can be played, whatever happens to it. -/
theorem evolution_showing : Evolution fun r _ r' => r.Showing → r'.Showing where
  refl _ := id
  trans _ _ _ _ _ h h' := h' ∘ h
  fire r event := (r.showsSame_fire event).showing
  write _ _ _ := id
  step r dt capacity source hr := by
    cases hmoved : r.moved? dt capacity source with
    | none =>
      obtain ⟨failures, -, hstep⟩ := r.step_of_moved?_eq_none hmoved
      rw [hstep]
      exact hr
    | some m =>
      obtain ⟨state, failures, -, -, hstep⟩ := r.step_of_moved?_eq_some hmoved
      rw [hstep]
      exact (m.showsSame_finish state).showing (hr.moved? hmoved).2

/-! ## Nothing to show -/

/-- Whether an animation has a finite weight. -/
def FiniteWeight (r : Record) (capacity : Nat) (entry : AnimationEntry) (weight : Single) : Prop :=
  r.evaluate capacity entry.weight = .ok weight ∧ weight.isFinite

/-- Whether the first one of the heaviest animations of a state has a given name. -/
def Selects (r : Record) (capacity : Nat) (state : State) (name : LongHash) : Prop :=
  ∃ front entry back weight, state.animations = front ++ entry :: back ∧ entry.name = name ∧
    r.FiniteWeight capacity entry weight ∧
    (∀ e ∈ front, ∀ w, r.FiniteWeight capacity e w → w.less weight) ∧
    ∀ e ∈ back, ∀ w, r.FiniteWeight capacity e w → ¬ weight.less w

theorem weigh_eq_ok {entry : AnimationEntry} {weight : Single} :
    r.weigh capacity entry = .ok weight ↔ r.FiniteWeight capacity entry weight := by
  unfold weigh FiniteWeight
  split
  · rename_i w hw
    rw [hw]
    split
    · rename_i hfinite
      constructor
      · intro h
        obtain rfl := Except.ok.inj h
        exact ⟨rfl, hfinite⟩
      · rintro ⟨h, -⟩
        rw [Except.ok.inj h]
    · rename_i hfinite
      constructor
      · intro h
        cases h
      · rintro ⟨h, hweight⟩
        obtain rfl := Except.ok.inj h
        exact absurd hweight hfinite
  · rename_i e he
    rw [he]
    simp

/-- The weights of the animations of a state, and why there are none, as a tick finds them. -/
def weighed (r : Record) (capacity : Nat) (state : State) :
    List (LongHash × Except String Single) :=
  state.animations.map fun entry => (entry.name, r.weigh capacity entry)

theorem isFinite_of_mem_weighed {state : State} : ∀ x ∈ r.weighed capacity state, ∀ w,
    x.2 = .ok w → w.isFinite := by
  intro x hx w hw
  obtain ⟨entry, -, rfl⟩ := List.mem_map.1 hx
  exact (weigh_eq_ok.1 hw).2

/-- **Nothing is the heaviest exactly if no animation of the state has a finite weight.** -/
theorem heaviest_weighed_eq_none {state : State} : heaviest none (r.weighed capacity state) = none ↔
    ∀ entry ∈ state.animations, ∀ w, ¬ r.FiniteWeight capacity entry w := by
  rw [heaviest_eq_none, weighed, List.forall_mem_map]
  simp only [ne_eq, weigh_eq_ok]

/-- **What is the heaviest is selected.** -/
theorem exists_heaviest_weighed {state : State} {name : LongHash} :
    (∃ weight, heaviest none (r.weighed capacity state) = some (weight, name))
      ↔ r.Selects capacity state name := by
  simp only [heaviest_eq_some isFinite_of_mem_weighed]
  constructor
  · rintro ⟨weight, front, back, hsplit, hfront, hback⟩
    obtain ⟨front, later, hanimations, rfl, hlater⟩ := List.map_eq_append_iff.1 hsplit
    obtain ⟨entry, back, rfl, hentry, rfl⟩ := List.map_eq_cons_iff.1 hlater
    obtain ⟨hname, hweight⟩ := Prod.mk.inj hentry
    refine ⟨front, entry, back, weight, hanimations, hname, weigh_eq_ok.1 hweight,
      fun e he w hw => ?_, fun e he w hw => ?_⟩
    · exact hfront _ (List.mem_map_of_mem he) w (weigh_eq_ok.2 hw)
    · exact hback _ (List.mem_map_of_mem he) w (weigh_eq_ok.2 hw)
  · rintro ⟨front, entry, back, weight, hanimations, rfl, hweight, hfront, hback⟩
    refine ⟨weight, front.map fun e => (e.name, r.weigh capacity e),
      back.map fun e => (e.name, r.weigh capacity e), ?_,
      List.forall_mem_map.2 fun e he w hw => ?_, List.forall_mem_map.2 fun e he w hw => ?_⟩
    · rw [weighed, hanimations, List.map_append, List.map_cons, weigh_eq_ok.2 hweight]
    · exact hfront e he w (weigh_eq_ok.1 hw)
    · exact hback e he w (weigh_eq_ok.1 hw)

/-- An animation that is shown anew has a playable sprite. -/
theorem display_eq_none {name : LongHash} : r.display source name = none ↔
    r.active ≠ some name ∧ ∀ sprite, source name = some sprite → ¬ sprite.isPlayable := by
  unfold display
  split
  · rename_i hactive
    simp [hactive]
  · rename_i hactive
    simp [hactive, Option.filter_eq_none_iff]

/-- Whether there is nothing to show: no weight is finite in the state of the record, or the
animation that is selected there is a new one and the source has no playable sprite of its name. -/
def NothingToShow (r : Record) (capacity : Nat) (source : SpriteSource) : Prop :=
  (∀ state, r.resource.state? r.state = some state →
    ∀ entry ∈ state.animations, ∀ w, ¬ r.FiniteWeight capacity entry w) ∨
  ∃ state name, r.resource.state? r.state = some state ∧ r.Selects capacity state name ∧
    r.active ≠ some name ∧ ∀ sprite, source name = some sprite → ¬ sprite.isPlayable

/-- **A tick does not move a record exactly if it has nothing to show.** -/
theorem moved?_eq_none :
    r.moved? dt capacity source = none ↔ r.NothingToShow capacity source := by
  cases hstate : r.resource.state? r.state with
  | none => simp [moved?, NothingToShow, hstate]
  | some state =>
    have hmoved : r.moved? dt capacity source
        = (heaviest none (r.weighed capacity state)).bind fun best =>
          (r.display source best.2).map fun shown =>
            { shown with time := shown.time + dt * (shown.speed capacity state).1 } := by
      simp only [moved?, hstate, Option.bind_eq_bind, Option.bind_some, Option.map_eq_bind]
      rfl
    simp only [hmoved, NothingToShow, hstate, Option.some.injEq, forall_eq', exists_and_left,
      exists_eq_left']
    cases hbest : heaviest none (r.weighed capacity state) with
    | none => exact iff_of_true rfl (.inl (heaviest_weighed_eq_none.1 hbest))
    | some best =>
      obtain ⟨weight, name⟩ := best
      rw [Option.bind_some, Option.map_eq_none_iff, display_eq_none]
      constructor
      · exact fun hnew => .inr ⟨name, exists_heaviest_weighed.1 ⟨weight, hbest⟩, hnew⟩
      · rintro (hnone | ⟨name', hselects, hnew⟩)
        · rw [heaviest_weighed_eq_none.2 hnone] at hbest
          cases hbest
        · obtain ⟨weight', hbest'⟩ := exists_heaviest_weighed.2 hselects
          rw [hbest] at hbest'
          obtain ⟨rfl, rfl⟩ := Prod.mk.inj (Option.some.inj hbest')
          exact hnew

/-- What a tick does to a record: it shows a frame of the animation that the record then has, or
leaves all of the record as it is, and does so exactly if there is nothing to show. -/
structure ShowsOrFreezes (r : Record) (dt : Single) (capacity : Nat) (source : SpriteSource) :
    Prop where
  nothing : (r.step dt capacity source).1 = none ↔ r.NothingToShow capacity source
  frozen : (r.step dt capacity source).1 = none → (r.step dt capacity source).2.2 = r
  shown : ∀ frame, (r.step dt capacity source).1 = some frame →
    frame ∈ (r.step dt capacity source).2.2.animation.frames

/-- A record whose animation can be played has a frame at every time. -/
theorem exists_frame? (h : r.animation.isPlayable) (state : State) :
    ∃ frame ∈ r.animation.frames, r.frame? state = some frame := by
  unfold frame?
  split
  · exact Sprite.exists_loopingFrameAt? h r.time
  · exact Sprite.exists_frameAt? h r.time

theorem Showing.showsOrFreezes (hr : r.Showing) (dt : Single) (capacity : Nat)
    (source : SpriteSource) : r.ShowsOrFreezes dt capacity source := by
  cases hmoved : r.moved? dt capacity source with
  | none =>
    obtain ⟨failures, -, hstep⟩ := r.step_of_moved?_eq_none hmoved
    refine ⟨?_, ?_, ?_⟩ <;> rw [hstep]
    · exact iff_of_true rfl (moved?_eq_none.1 hmoved)
    · exact fun _ => rfl
    · intro frame hframe
      cases hframe
  | some m =>
    obtain ⟨state, failures, -, -, hstep⟩ := r.step_of_moved?_eq_some hmoved
    obtain ⟨frame, hmem, hframe⟩ := exists_frame? (hr.moved? hmoved).1 state
    refine ⟨?_, ?_, ?_⟩ <;> rw [hstep, hframe]
    · refine iff_of_false (by simp) fun hnothing => ?_
      rw [moved?_eq_none.2 hnothing] at hmoved
      cases hmoved
    · intro hnone
      cases hnone
    · intro frame' hframe'
      obtain rfl := Option.some.inj hframe'
      rw [(m.showsSame_finish state).animation]
      exact hmem

end Record

namespace Engine

/-- **A tick shows a frame or leaves the record as it is**, for every record of an engine, at
whatever time. -/
theorem showsOrFreezes_of_record? {settings : EngineSettings} {cs : List Call} {entity : EntityId}
    {r : Record} (h : (after settings cs).record? entity = some r) (time dt : Single)
    (capacity : Nat) (source : SpriteSource) :
    ({ r with time } : Record).ShowsOrFreezes dt capacity source := by
  obtain ⟨before, resource, since, -, -, hshowing⟩ := exists_created Record.evolution_showing h
  have hstart : (Record.start entity resource).Showing := fun name hname => by cases hname
  exact Record.Showing.showsOrFreezes (r := { r with time }) (hshowing hstart) dt capacity source

theorem showsOrFreezes_of_record?_door : ∃ r, (after {} doorCalls).record? ⟨7⟩ = some r ∧
    ({ r with time := Single.nan } : Record).ShowsOrFreezes Single.one 32
      fun _ => some ⟨[4], Single.one⟩ := by
  have hsome : ((after {} doorCalls).record? ⟨7⟩).isSome := by
    rw [(holds_after ⟨7⟩ {} doorCalls).record]
    decide +kernel
  obtain ⟨r, hr⟩ := Option.isSome_iff_exists.1 hsome
  exact ⟨r, hr, showsOrFreezes_of_record? hr Single.nan Single.one 32 _⟩

end Engine

end Flipbook.Machine
