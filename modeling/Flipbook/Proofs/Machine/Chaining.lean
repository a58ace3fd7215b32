import Flipbook.Proofs.Expr.Execution
import Flipbook.Proofs.Machine.Verifying

/-!
# Proofs/Machine/Chaining — verified programs above what a stack holds

A run does not clear the stack, so programs can be run one after the other.  What a verified program
finds there it neither takes nor moves: its effect (`Word.effects?_below`) and its need of room
(`SoundBody.peak_add`) are those on an empty stack, shifted upward.  `chains_of_verifyWords` puts
this together: a verified program leaves its value above what the stack held where there is room for
its peak, and overflows where there is not.
-/

namespace Flipbook

open Flipbook.Expr (Word Stack)

/-! ## What lies below -/

namespace Expr.Word

variable {vars items items' : List Single}

/-- A word that finds its operands leaves alone what lies below them. -/
theorem effect?_below {w : Word} (h : w.effect? vars items = some items') (below : List Single) :
    w.effect? vars (items ++ below) = some (items' ++ below) := by
  cases w with
  | push value =>
    obtain rfl := Option.some.inj h
    rfl
  | load index =>
    obtain ⟨value, hvalue, rfl⟩ := Option.map_eq_some_iff.1 h
    rw [effect?, hvalue]
    rfl
  | call op =>
    simp only [effect?] at h ⊢
    split at h
    · cases h
    · rename_i hargs
      obtain rfl := Option.some.inj h
      have hle : op.arity ≤ items.length := Nat.le_of_not_lt hargs
      have henough : ¬ (items ++ below).length < op.arity := by
        rw [List.length_append]
        omega
      rw [if_neg henough, List.take_append_of_le_length hle, List.drop_append_of_le_length hle,
        List.append_assoc]
  | finish =>
    obtain rfl := Option.some.inj h
    rfl

/-- **Words leave alone what lies below the values that they find.** -/
theorem effects?_below {ws : List Word} (h : effects? vars ws items = some items')
    (below : List Single) : effects? vars ws (items ++ below) = some (items' ++ below) := by
  induction ws generalizing items with
  | nil =>
    obtain rfl := Option.some.inj h
    rfl
  | cons w ws ih =>
    obtain ⟨mid, hmid, hrest⟩ := Option.bind_eq_some_iff.1 h
    rw [effects?_cons, effect?_below hmid below, Option.bind_some]
    exact ih hrest

theorem length_effects? {ws : List Word} (h : effects? vars ws items = some items') :
    items'.length = depthAfterAll items.length ws := by
  induction ws generalizing items with
  | nil =>
    obtain rfl := Option.some.inj h
    rfl
  | cons w ws ih =>
    obtain ⟨mid, hmid, hrest⟩ := Option.bind_eq_some_iff.1 h
    rw [depthAfterAll_cons, ← length_effect? hmid]
    exact ih hrest

/-- More values below are more values behind a word that finds its operands. -/
theorem depthAfter_add {depth : Nat} {w : Word} (h : w.operands ≤ depth) (base : Nat) :
    w.depthAfter (depth + base) = w.depthAfter depth + base := by
  cases w with
  | push | load => exact Nat.add_right_comm _ _ _
  | call op =>
    have hargs : op.arity ≤ depth := h
    simp only [depthAfter]
    omega
  | finish => rfl

/-- The first words of some words need no more room than all of them. -/
theorem peak_le_peak_append (depth : Nat) {front : List Word} (hno : finish ∉ front)
    (back : List Word) : peak depth front ≤ peak depth (front ++ back) := by
  induction front generalizing depth with
  | nil => exact le_peak depth back
  | cons w front ih =>
    have hw : w ≠ finish := fun e => hno (e ▸ List.mem_cons_self)
    have hrest := ih (w.depthAfter depth) fun hm => hno (List.mem_cons_of_mem _ hm)
    rw [List.cons_append, peak_cons _ hw, peak_cons _ hw]
    omega

end Expr.Word

namespace Machine

variable {vars depth : Nat} {body : List Word}

/-- **A sound body needs as much room above some values as it needs by itself.** -/
theorem SoundBody.peak_add (h : SoundBody vars depth body) (base : Nat) :
    Word.peak (depth + base) body = Word.peak depth body + base := by
  induction body generalizing depth with
  | nil => rfl
  | cons w body ih =>
    obtain ⟨hw, -, hoperands, hbody⟩ := soundBody_cons.1 h
    rw [Word.peak_cons _ hw, Word.peak_cons _ hw, Word.depthAfter_add hoperands, ih hbody]
    omega

/-- A full stack has no room for a sound body: it has to push something before it can end. -/
theorem SoundBody.run_full {values : List Single} (h : SoundBody vars 0 body)
    (hvars : vars ≤ values.length) {s : Stack} (hfull : s.capacity ≤ s.size) (rest : List Word) :
    (s.run values (body ++ .finish :: rest)).1 = .error (.stack (.overflow s.capacity)) := by
  have hnot : ¬ s.size < s.capacity := Nat.not_lt.2 hfull
  induction body with
  | nil => exact absurd (soundBody_nil.1 h) (by decide)
  | cons w body ih =>
    obtain ⟨hw, hload, hoperands, hbody⟩ := soundBody_cons.1 h
    rw [List.cons_append, Stack.run_cons values hw]
    cases w with
    | push value => simp [Stack.step, Stack.pushValue, Stack.push, hnot]
    | load index =>
      have hlt := Nat.lt_of_lt_of_le (hload index rfl) hvars
      simp [Stack.step, Stack.pushValue, Stack.push, hnot, List.getElem?_eq_getElem hlt]
    | call op =>
      -- of the operations only the one that does nothing finds its operands
      have hnop : op = .nop := by
        have hargs : op.arity = 0 := Nat.le_zero.1 hoperands
        cases op <;> first | rfl | cases hargs
      subst hnop
      exact ih hbody
    | finish => exact absurd rfl hw

/-! ## Chained programs -/

/-- Whether words leave a value above whatever a stack holds, as long as there is room. -/
structure Chains (values : List Single) (ws : List Word) (value : Single) : Prop where
  /-- Evaluated where there is room for the peak, the words have the value. -/
  eval_eq : ∀ s : Stack, Word.peak 0 ws ≤ s.capacity →
    s.eval values ws = (.ok value, { s with items := [value] })
  /-- Where there is room for the peak above what a stack holds, the value comes on top of it. -/
  run_of_room : ∀ s : Stack, s.size + Word.peak 0 ws ≤ s.capacity →
    s.run values ws = (.ok (), { s with items := value :: s.items })
  /-- Where there is not, the run overflows. -/
  run_of_full : ∀ s : Stack, s.capacity < s.size + Word.peak 0 ws →
    (s.run values ws).1 = .error (.stack (.overflow s.capacity))
  /-- Up to the end there are, above what the stack held at first, values that do not depend on it,
  and the operands of the next word are among them. -/
  above : ∀ front, front <+: ws → .finish ∉ front → ∃ own : List Single,
    (∀ w, front ++ [w] <+: ws → w.operands ≤ own.length) ∧
      ∀ s : Stack, s.size + Word.peak 0 ws ≤ s.capacity →
        s.run values (front ++ [.finish]) = (.ok (), { s with items := own ++ s.items })

/-- What comes before the first end of some words is part of the words before it. -/
theorem prefix_of_finish_not_mem {front rest : List Word}
    (h : front <+: body ++ .finish :: rest) (hno : .finish ∉ front) : front <+: body := by
  rcases List.prefix_or_prefix_of_prefix h (List.prefix_append body _) with hle | ⟨more, rfl⟩
  · exact hle
  · cases more with
    | nil => exact (List.append_nil body).symm ▸ List.prefix_refl body
    | cons w more =>
      rw [List.prefix_append_right_inj, List.cons_prefix_cons] at h
      exact absurd (h.1 ▸ List.mem_append_right body List.mem_cons_self) hno

/-- **A verified program can be run above anything**: it leaves its value there if there is room for
its peak, and overflows otherwise. -/
theorem chains_of_verifyWords {ws : List Word} (h : verifyWords vars 0 ws = .ok ())
    {values : List Single} (hvars : vars ≤ values.length) : ∃ value, Chains values ws value := by
  obtain ⟨body, rest, rfl, hbody⟩ := verifyWords_eq_ok.1 h
  have hno := hbody.endless
  have hempty : SoundBody vars ([] : List Single).length body := hbody
  obtain ⟨value, hvalue⟩ := exists_effects?_of_soundBody hempty hvars
  have hpeak : ∀ s : Stack, Word.peak s.size body = s.size + Word.peak 0 body := by
    intro s
    have hadd := hbody.peak_add s.size
    rwa [Nat.zero_add, Nat.add_comm] at hadd
  refine ⟨value, ?_, ?_, ?_, ?_⟩ <;> rw [Word.peak_append_finish 0 hno]
  · exact fun s hroom => (Stack.eval_of_leavesOne hno hvalue s rest).1 hroom
  · intro s hroom
    exact Stack.run_of_effects? hno (Word.effects?_below hvalue s.items)
      ((hpeak s).trans_le hroom) rest
  · intro s hfull
    by_cases hs : s.size ≤ s.capacity
    · exact Stack.run_overflow hno (Word.effects?_below hvalue s.items) hs
        (hfull.trans_eq (hpeak s).symm) rest
    · exact hbody.run_full hvars (Nat.le_of_not_le hs) rest
  · intro front hfront hno'
    obtain ⟨back, rfl⟩ := prefix_of_finish_not_mem hfront hno'
    rw [Word.effects?_append] at hvalue
    obtain ⟨own, hown, -⟩ := Option.bind_eq_some_iff.1 hvalue
    refine ⟨own, fun w hw => ?_, fun s hroom => ?_⟩
    · rw [Word.length_effects? hown]
      rw [List.append_assoc, List.prefix_append_right_inj] at hw
      cases back with
      | nil =>
        obtain rfl : w = .finish := (List.cons_prefix_cons.1 hw).1
        exact Nat.zero_le _
      | cons v back =>
        obtain rfl : w = v := (List.cons_prefix_cons.1 hw).1
        exact hbody.operands front w back rfl
    · have hfits : Word.peak s.size front ≤ s.capacity :=
        Nat.le_trans (Word.peak_le_peak_append _ hno' back) ((hpeak s).trans_le hroom)
      exact Stack.run_of_effects? hno' (Word.effects?_below hown s.items) hfits []

/-- A product that needs room for two values, with a word behind its end. -/
theorem chains_of_verifyWords_product :
    verifyWords 1 0 [.load 0, .push ⟨0x40000000⟩, .call .mul, .finish, .push ⟨0⟩] = .ok () ∧
      1 ≤ [(⟨0x40400000⟩ : Single)].length ∧ ∃ value, Chains [⟨0x40400000⟩]
        [.load 0, .push ⟨0x40000000⟩, .call .mul, .finish, .push ⟨0⟩] value := by
  have hverified :
      verifyWords 1 0 [.load 0, .push ⟨0x40000000⟩, .call .mul, .finish, .push ⟨0⟩] = .ok () := by
    decide
  exact ⟨hverified, by decide, chains_of_verifyWords hverified (by decide)⟩

end Machine

end Flipbook
