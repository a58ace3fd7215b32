import Flipbook.Proofs.Expr.Execution

/-!
# Proofs/Expr/Replacing — words that may take the place of others

`Replaces` compares words on limited stacks: those in place of the others do the same wherever the
others do not overflow.  It is kept by whatever stands around the words (`Replaces.append`), so each
fold may be looked at by itself, and `eval_fold` says it of folding as a whole.  The converse fails:
a folded arrangement may fit where the arrangement does not.
-/

namespace Flipbook.Expr

/-- Whether a run ended for want of room. -/
def Overflows {α : Type} (outcome : Except EvalError α) : Prop :=
  ∃ capacity, outcome = .error (.stack (.overflow capacity))

/-- Whether words do what others do wherever those do not overflow, whatever they find on the stack
and whatever follows them. -/
def Replaces (vars : List Single) (us ws : List Word) : Prop :=
  ∀ (s : Stack) (rest : List Word), Overflows (s.run vars (ws ++ rest)).1 ∨
    s.run vars (us ++ rest) = s.run vars (ws ++ rest)

variable {vars : List Single} {us vs ws : List Word}

namespace Replaces

theorem refl (vars : List Single) (ws : List Word) : Replaces vars ws ws := fun _ _ => .inr rfl

theorem trans (h : Replaces vars us vs) (h' : Replaces vars vs ws) : Replaces vars us ws := by
  intro s rest
  rcases h' s rest with hoverflow | hsame
  · exact .inl hoverflow
  · rw [← hsame]
    exact h s rest

/-- Words are replaced in front of others. -/
theorem append_right (h : Replaces vars us ws) (after : List Word) :
    Replaces vars (us ++ after) (ws ++ after) := by
  intro s rest
  rw [List.append_assoc, List.append_assoc]
  exact h s (after ++ rest)

/-- Words are replaced behind others: the run comes to them with the same stack, or not at all. -/
theorem append_left (h : Replaces vars us ws) (before : List Word) :
    Replaces vars (before ++ us) (before ++ ws) := by
  induction before with
  | nil => exact h
  | cons w before ih =>
    intro s rest
    by_cases hw : w = .finish
    · exact .inr (by rw [hw]; rfl)
    · simp only [List.cons_append, Stack.run_cons vars hw]
      match s.step vars w with
      | (.ok (), s') => exact ih s' rest
      | (.error _, _) => exact .inr rfl

/-- **What may be replaced may be replaced inside a program.** -/
theorem append (h : Replaces vars us ws) (before after : List Word) :
    Replaces vars (before ++ us ++ after) (before ++ ws ++ after) :=
  (h.append_left before).append_right after

/-- A word that computes nothing may be left out. -/
theorem nop (vars : List Single) : Replaces vars [] [.call .nop] := by
  intro s rest
  refine .inr ?_
  rw [List.singleton_append, Stack.run_cons vars (by decide)]
  simp [Stack.step, Stack.execute, Operation.arity, Operation.result?]

end Replaces

/-! ## Computed constants -/

/-- Literals stack up, or overflow; in the first case there was room for one at least. -/
theorem run_map_push (vars values : List Single) (s : Stack) (rest : List Word) :
    Overflows (s.run vars (values.map .push ++ rest)).1 ∨
      (values = [] ∨ s.size < s.capacity) ∧ s.run vars (values.map .push ++ rest)
        = ({ s with items := values.reverse ++ s.items } : Stack).run vars rest := by
  induction values generalizing s with
  | nil => exact .inr ⟨.inl rfl, rfl⟩
  | cons v values ih =>
    rw [List.map_cons, List.cons_append, Stack.run_cons vars (by simp)]
    by_cases hroom : s.size < s.capacity
    · rw [Stack.step_of_effect? (w := .push v) rfl hroom]
      rcases ih { s with items := v :: s.items } with hoverflow | ⟨-, hrun⟩
      · exact .inl hoverflow
      · refine .inr ⟨.inr hroom, hrun.trans ?_⟩
        rw [List.reverse_cons, List.append_assoc, List.singleton_append]
    · simp only [Stack.step, Stack.pushValue, Stack.push, if_neg hroom]
      exact .inl ⟨_, rfl⟩

/-- **The value of an operation may take the place of the operation and its literal operands**: it
needs no more room than the first of them. -/
theorem Replaces.constant {op : Operation} {values : List Single} {v : Single}
    (h : op.result? values = some v) (vars : List Single) :
    Replaces vars [.push v] (values.map .push ++ [.call op]) := by
  intro s rest
  rw [List.append_assoc]
  rcases run_map_push vars values s ([.call op] ++ rest) with hoverflow | ⟨hroom, hrun⟩
  · exact .inl hoverflow
  · have hsome : values ≠ [] := by
      rintro rfl
      cases op <;> cases h
    have hroom : s.size < s.capacity := hroom.resolve_left hsome
    have heffect : (Word.call op).effect? vars (values.reverse ++ s.items) = some (v :: s.items) :=
      Word.effect?_call_of_result? values h
    have hcall : ({ s with items := values.reverse ++ s.items } : Stack).step vars (.call op)
        = (.ok (), { s with items := v :: s.items }) :=
      Stack.step_of_effect? heffect ((Word.length_effect? heffect).ge.trans hroom)
    rw [hrun, List.singleton_append, List.singleton_append, Stack.run_cons vars (by simp),
      Stack.run_cons vars (by simp), hcall, Stack.step_of_effect? (w := .push v) rfl hroom]
    exact .inr rfl

/-! ## Folding -/

namespace Postfix

/-- What is folded behind `done` replaces `done` and the rest. -/
theorem replaces_foldFrom {done rest out : Postfix} (h : foldFrom done rest = .ok out)
    (vars : List Single) : Replaces vars (words out) (words (done.reverse ++ rest)) := by
  fun_induction foldFrom done rest with
  | case1 done =>
    obtain rfl := Except.ok.inj h
    rw [List.append_nil]
    exact .refl vars _
  | case2 done b span rest hnop ih =>
    refine (ih h).trans ?_
    rw [words_append, words_append, words_cons, Item.word, hnop]
    simpa using (Replaces.nop vars).append (words done.reverse) (words rest)
  | case3 done b span rest hnop operands hc ih =>
    simpa using ih h
  | case4 done b span rest hnop operands v hc whole hfin ih =>
    -- the operands are the last entries done, so their words stand right before the builtin
    have hdone : done.reverse = (done.drop b.arity).reverse ++ operands := by
      rw [← List.reverse_append, List.take_append_drop]
    obtain ⟨values, hvalues, hv⟩ := Option.bind_eq_some_iff.1 hc
    refine (ih h).trans ?_
    have hreplaces := (Replaces.constant hv vars).append (words (done.drop b.arity).reverse)
      (words rest)
    rw [hdone]
    simpa [words_of_mapM_literal? hvalues, Item.word] using hreplaces
  | case5 => cases h
  | case6 done item rest hitem ih =>
    simpa using ih h

/-- **A folded arrangement evaluates to what the arrangement evaluates to**, a value or an error,
unless the arrangement overflows. -/
theorem eval_fold {items folded : Postfix} (h : items.fold = .ok folded) (vars : List Single)
    (s : Stack) (hroom : ¬ Overflows (s.eval vars items.program.words).1) :
    s.eval vars folded.program.words = s.eval vars items.program.words := by
  rcases replaces_foldFrom h vars s.clear [.finish] with ⟨capacity, hoverflow⟩ | hrun
  · exact absurd ⟨capacity, Stack.eval_of_run_error hoverflow⟩ hroom
  · have hwords : s.clear.run vars folded.program.words
        = s.clear.run vars items.program.words := hrun
    rw [Stack.eval, Stack.eval, hwords]

/-- The arrangement of `match(speed, 1 + 2)`. -/
def speedNearThree : Postfix :=
  [⟨.variable 0, ⟨6, 11⟩⟩, ⟨.literal ⟨0x3f800000⟩, ⟨13, 14⟩⟩, ⟨.literal ⟨0x40000000⟩, ⟨17, 18⟩⟩,
    ⟨.apply .plus, ⟨15, 16⟩⟩, ⟨.apply .comma, ⟨11, 12⟩⟩, ⟨.apply .near, ⟨0, 5⟩⟩]

/-- The arrangement of `match(speed, 3)`, as folding makes it. -/
def speedNearThreeFolded : Postfix :=
  [⟨.variable 0, ⟨6, 11⟩⟩, ⟨.literal ⟨0x40400000⟩, ⟨13, 18⟩⟩, ⟨.apply .near, ⟨0, 5⟩⟩]

theorem eval_fold_speedNearThree : speedNearThree.fold = .ok speedNearThreeFolded ∧
    ¬ Overflows ((⟨3, []⟩ : Stack).eval [⟨0x40200000⟩] speedNearThree.program.words).1 ∧
    (⟨3, []⟩ : Stack).eval [⟨0x40200000⟩] speedNearThreeFolded.program.words
      = (⟨3, []⟩ : Stack).eval [⟨0x40200000⟩] speedNearThree.program.words := by
  have hfold : speedNearThree.fold = .ok speedNearThreeFolded := by decide +kernel
  have hroom : ¬ Overflows
      ((⟨3, []⟩ : Stack).eval [⟨0x40200000⟩] speedNearThree.program.words).1 := by
    have hvalue : ((⟨3, []⟩ : Stack).eval [⟨0x40200000⟩] speedNearThree.program.words).1
        = .ok ⟨0x3f000000⟩ := by decide +kernel
    rintro ⟨capacity, hoverflow⟩
    exact absurd (hvalue.symm.trans hoverflow) (by simp)
  exact ⟨hfold, hroom, eval_fold hfold _ _ hroom⟩

/-- Where the arrangement overflows, the folded one may fit. -/
example : (evaluate 2 [⟨0x40200000⟩] speedNearThreeFolded.program.words,
    evaluate 2 [⟨0x40200000⟩] speedNearThree.program.words)
      = (.ok ⟨0x3f000000⟩, .error (.stack (.overflow 2))) := by decide +kernel

end Postfix

end Flipbook.Expr
