import Flipbook.Expr.Compile
import Flipbook.Proofs.Expr.Effect

/-!
# Proofs/Expr/Folding — folding keeps the meaning

`effects?_fold`: whatever the variables and the values below, the words of a folded arrangement do
what those of the arrangement itself do.  `mem_fold` tells where the entries of a folded arrangement
come from: they are entries of the arrangement, or literals that were computed and are finite.
-/

namespace Flipbook.Expr.Postfix

open Word (effects?)

/-- The words of an arrangement, without an end. -/
def words (items : Postfix) : List Word := items.map fun i => i.value.word

@[simp] theorem words_cons (i : Located Item) (items : Postfix) :
    words (i :: items) = i.value.word :: words items := rfl

@[simp] theorem words_append (xs ys : Postfix) : words (xs ++ ys) = words xs ++ words ys :=
  List.map_append

theorem finish_notMem_words (items : Postfix) : .finish ∉ words items := by
  intro h
  obtain ⟨⟨value | index | b, span⟩, -, hword⟩ := List.mem_map.1 h <;> cases hword

/-- Entries that are all literals push their values. -/
theorem words_of_mapM_literal? {operands : Postfix} {values : List Single}
    (h : operands.mapM literal? = some values) : words operands = values.map .push := by
  induction operands generalizing values with
  | nil =>
    obtain rfl := Option.some.inj h
    rfl
  | cons i operands ih =>
    obtain ⟨v, hv, vs, hvs, rfl⟩ : ∃ v, literal? i = some v ∧ ∃ vs,
        operands.mapM literal? = some vs ∧ v :: vs = values := by
      simpa [List.mapM_cons, Option.bind_eq_some_iff] using h
    rw [words_cons, ih hvs, List.map_cons]
    obtain ⟨_ | _ | _, span⟩ := i
    · obtain rfl := Option.some.inj hv
      rfl
    · cases hv
    · cases hv

/-- **A builtin behind literal operands may be replaced by its value.** -/
theorem effects?_of_constant? {vars : List Single} {operands : Postfix} {b : Builtin} {v : Single}
    (h : constant? b operands = some v) (ws : List Word) :
    effects? vars (words operands ++ .call b.operation :: ws) = effects? vars (.push v :: ws) := by
  obtain ⟨values, hvalues, hv⟩ := Option.bind_eq_some_iff.1 h
  funext items
  rw [words_of_mapM_literal? hvalues, Word.effects?_append, Word.effects?_map_push,
    Option.bind_some, Word.effects?_cons, Word.effect?_call_of_result? _ hv]
  rfl

/-- A word that computes nothing may be left out. -/
theorem effects?_nop_cons (vars : List Single) (ws : List Word) :
    effects? vars (.call .nop :: ws) = effects? vars ws := by
  funext items
  simp [Word.effect?, Operation.arity, Operation.result?]

/-- Folding behind `done` keeps the effect of `done` and the rest. -/
theorem effects?_foldFrom {vars : List Single} {done rest out : Postfix}
    (h : foldFrom done rest = .ok out) :
    effects? vars (words out) = effects? vars (words (done.reverse ++ rest)) := by
  funext items
  fun_induction foldFrom done rest with
  | case1 done =>
    obtain rfl := Except.ok.inj h
    rw [List.append_nil]
  | case2 done b span rest hnop ih =>
    rw [ih h, words_append, words_append, words_cons, Item.word, hnop, Word.effects?_append,
      Word.effects?_append, effects?_nop_cons]
  | case3 done b span rest hnop operands hc ih =>
    rw [ih h, List.reverse_cons, List.append_assoc, List.singleton_append]
  | case4 done b span rest hnop operands v hc whole hfin ih =>
    -- the operands are the last entries done, so their words stand right before the builtin
    have hdone : done.reverse = (done.drop b.arity).reverse ++ operands := by
      rw [← List.reverse_append, List.take_append_drop]
    rw [ih h, hdone, List.reverse_cons, List.append_assoc, List.append_assoc, words_append,
      words_append _ (operands ++ _), words_append operands, Word.effects?_append,
      Word.effects?_append, words_cons ⟨.apply b, span⟩, Item.word, effects?_of_constant? hc]
    rfl
  | case5 => cases h
  | case6 done item rest hitem ih =>
    rw [ih h, List.reverse_cons, List.append_assoc, List.singleton_append]

/-- **A folded arrangement does what the arrangement does.** -/
theorem effects?_fold {vars : List Single} {items folded : Postfix}
    (h : items.fold = .ok folded) : effects? vars folded.words = effects? vars items.words :=
  effects?_foldFrom h

/-- **Folding fails only on values that are not finite.** -/
theorem fold_eq_error {items : Postfix} {fault : Fault} (h : items.fold = .error fault) :
    ∃ span, fault = .nonFiniteConstant span := by
  suffices key : ∀ done rest, foldFrom done rest = .error fault →
      ∃ span, fault = .nonFiniteConstant span from key [] items h
  intro done rest h
  fun_induction foldFrom done rest with
  | case1 => cases h
  | case2 done b span rest hnop ih => exact ih h
  | case3 done b span rest hnop operands hc ih => exact ih h
  | case4 done b span rest hnop operands v hc whole hfin ih => exact ih h
  | case5 done b span rest hnop operands v hc whole hfin =>
    exact ⟨whole, (Except.error.inj h).symm⟩
  | case6 done item rest hitem ih => exact ih h

/-! ## Where entries come from -/

/-- Whether an entry applies a builtin that computes nothing. -/
def IsNop (i : Item) : Prop := ∃ b, i = .apply b ∧ b.operation = .nop

/-- An entry folded behind `done` was done, or is one of the rest that computes something, or is a
finite literal. -/
theorem mem_foldFrom {done rest out : Postfix} (h : foldFrom done rest = .ok out)
    {i : Located Item} (hi : i ∈ out) :
    i ∈ done ∨ (i ∈ rest ∧ ¬ IsNop i.value) ∨ ∃ v, i.value = .literal v ∧ v.isFinite := by
  fun_induction foldFrom done rest with
  | case1 done =>
    obtain rfl := Except.ok.inj h
    exact .inl (List.mem_reverse.1 hi)
  | case2 done b span rest hnop ih =>
    exact (ih h).imp_right (Or.imp_left (And.imp_left (List.mem_cons_of_mem _)))
  | case3 done b span rest hnop operands hc ih =>
    rcases ih h with hd | hlater
    · rcases List.mem_cons.1 hd with rfl | hd
      · refine .inr (.inl ⟨List.mem_cons_self, ?_⟩)
        rintro ⟨c, hc, hnop'⟩
        obtain rfl := Item.apply.inj hc
        exact hnop hnop'
      · exact .inl hd
    · exact .inr (hlater.imp_left (And.imp_left (List.mem_cons_of_mem _)))
  | case4 done b span rest hnop operands v hc whole hfin ih =>
    rcases ih h with hd | hlater
    · rcases List.mem_cons.1 hd with rfl | hd
      · exact .inr (.inr ⟨v, rfl, hfin⟩)
      · exact .inl (List.mem_of_mem_drop hd)
    · exact .inr (hlater.imp_left (And.imp_left (List.mem_cons_of_mem _)))
  | case5 => cases h
  | case6 done item rest hitem ih =>
    rcases ih h with hd | hlater
    · rcases List.mem_cons.1 hd with rfl | hd
      · refine .inr (.inl ⟨List.mem_cons_self, ?_⟩)
        rintro ⟨c, hc, -⟩
        exact hitem c i.span (by rw [← hc])
      · exact .inl hd
    · exact .inr (hlater.imp_left (And.imp_left (List.mem_cons_of_mem _)))

/-- **An entry of a folded arrangement computes something and was there before, or is a finite
literal.** -/
theorem mem_fold {items folded : Postfix} (h : items.fold = .ok folded) {i : Located Item}
    (hi : i ∈ folded) :
    (i ∈ items ∧ ¬ IsNop i.value) ∨ ∃ v, i.value = .literal v ∧ v.isFinite := by
  rcases mem_foldFrom h hi with hd | hrest
  · cases hd
  · exact hrest

end Flipbook.Expr.Postfix
