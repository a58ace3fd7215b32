import Flipbook.Proofs.Expr.Compiled
import Mathlib.Data.List.OfFn

/-!
# Proofs/Expr/Operands — the operand trees of an arrangement

A postfix arrangement denotes trees: every builtin takes the latest operands before it, and those
that compute nothing take and leave none.  `Postfix.operands?` builds the trees.  An arrangement
that is accepted has exactly one (`Postfix.exists_operand_of_check`), and its entries are those of
the arrangement that compute something, in the same order (`Postfix.entries_of_operands?`).
-/

namespace Flipbook.Expr

/-- A value of an expression: a literal, a variable, or a builtin with the operands it takes. -/
inductive Operand where
  | literal (value : Single) (span : Span)
  | variable (index : Nat) (span : Span)
  | call (b : Builtin) (computes : b.operation ≠ .nop) (span : Span)
    (operands : Fin b.arity → Operand)

namespace Operand

/-- The entries of an operand, each builtin behind its operands. -/
def entries : Operand → Postfix
  | .literal value span => [⟨.literal value, span⟩]
  | .variable index span => [⟨.variable index, span⟩]
  | .call b _ span operands =>
    (List.ofFn fun k => (operands k).entries).flatten ++ [⟨.apply b, span⟩]

/-- Whether an operand is a part of another one, or all of it. -/
inductive Within : Operand → Operand → Prop
  | refl (x : Operand) : Within x x
  | operand {x : Operand} {b : Builtin} {hb : b.operation ≠ .nop} {span : Span}
    {operands : Fin b.arity → Operand} (k : Fin b.arity) (h : Within x (operands k)) :
    Within x (call b hb span operands)

variable {b : Builtin} {hb : b.operation ≠ .nop} {span : Span} {operands : Fin b.arity → Operand}

theorem Within.trans {x y z : Operand} (h : x.Within y) (h' : y.Within z) : x.Within z := by
  induction h' with
  | refl => exact h
  | operand k _ ih => exact .operand k ih

theorem mem_entries_call {i : Located Item} : i ∈ (call b hb span operands).entries ↔
    (∃ k, i ∈ (operands k).entries) ∨ i = ⟨.apply b, span⟩ := by
  simp [entries]

/-- The entries of operands one after the other. -/
theorem flatten_ofFn_entries {n : Nat} (operands : Fin n → Operand) :
    (List.ofFn fun k => (operands k).entries).flatten
      = (List.ofFn operands).flatMap entries := by
  rw [List.flatMap_def, List.map_ofFn]
  rfl

end Operand

/-- A function of the entries of a list, one after the other. -/
theorem ofFn_getElem_of_length {α β : Type} {xs : List α} {n : Nat} (h : xs.length = n)
    (f : α → β) : List.ofFn (fun k : Fin n => f xs[k]) = xs.map f := by
  subst h
  exact List.ofFn_getElem_eq_map xs f

namespace Item

/-- Whether an entry takes part in computing a value. -/
def computes : Item → Bool
  | .apply b => b.operation ≠ .nop
  | _ => true

theorem computes_iff {i : Item} : i.computes ↔ ¬ Postfix.IsNop i := by
  cases i <;> simp [computes, Postfix.IsNop]

end Item

/-- Every entry of an operand computes something. -/
theorem Operand.computes_of_mem_entries {x : Operand} {i : Located Item} (hi : i ∈ x.entries) :
    ¬ Postfix.IsNop i.value := by
  induction x with
  | literal value span =>
    obtain rfl := List.mem_singleton.1 hi
    exact Item.computes_iff.1 rfl
  | «variable» index span =>
    obtain rfl := List.mem_singleton.1 hi
    exact Item.computes_iff.1 rfl
  | call b hb span operands ih =>
    rcases mem_entries_call.1 hi with ⟨k, hi⟩ | rfl
    · exact ih k hi
    · exact Item.computes_iff.1 (decide_eq_true hb)

namespace Postfix

/-- The operands after some entries, the latest first, where some are there before them; `none`
where a builtin lacks operands. -/
def operands? : List Operand → Postfix → Option (List Operand)
  | xs, [] => some xs
  | xs, ⟨.literal value, span⟩ :: rest => operands? (.literal value span :: xs) rest
  | xs, ⟨.variable index, span⟩ :: rest => operands? (.variable index span :: xs) rest
  | xs, ⟨.apply b, span⟩ :: rest =>
    if hb : b.operation = .nop then operands? xs rest
    else
      let taken := (xs.take b.arity).reverse
      if h : taken.length = b.arity then
        operands? (.call b hb span (fun k => taken[k]) :: xs.drop b.arity) rest
      else none

/-- The entries of operands of which the latest is the first. -/
def ofOperands (xs : List Operand) : Postfix := xs.reverse.flatMap Operand.entries

@[simp] theorem ofOperands_nil : ofOperands [] = [] := rfl

@[simp] theorem ofOperands_cons (x : Operand) (xs : List Operand) :
    ofOperands (x :: xs) = ofOperands xs ++ x.entries := by
  simp [ofOperands]

theorem ofOperands_append (xs ys : List Operand) :
    ofOperands (xs ++ ys) = ofOperands ys ++ ofOperands xs := by
  simp [ofOperands]

variable {xs ys : List Operand} {items : Postfix}

/-- A builtin that computes nothing takes and leaves nothing. -/
theorem operands?_nop {b : Builtin} (hb : b.operation = .nop) (span : Span) (rest : Postfix) :
    operands? xs (⟨.apply b, span⟩ :: rest) = operands? xs rest := by
  rw [operands?, dif_pos hb]

/-- **A builtin takes the latest operands.** -/
theorem operands?_apply {b : Builtin} (hb : b.operation ≠ .nop) {taken : List Operand}
    (h : taken.length = b.arity) (below : List Operand) (span : Span) (rest : Postfix) :
    operands? (taken.reverse ++ below) (⟨.apply b, span⟩ :: rest)
      = operands? (.call b hb span (fun k => taken[k]) :: below) rest := by
  have hlen : taken.reverse.length = b.arity := by rw [List.length_reverse, h]
  have hdrop : (taken.reverse ++ below).drop b.arity = below := by rw [← hlen, List.drop_left]
  simp [operands?, hb, hdrop, h]

/-- Operands that read back from their entries one by one do so one after the other. -/
theorem operands?_flatMap {ops : List Operand}
    (h : ∀ x ∈ ops, ∀ xs rest, operands? xs (x.entries ++ rest) = operands? (x :: xs) rest)
    (xs : List Operand) (rest : Postfix) :
    operands? xs (ops.flatMap Operand.entries ++ rest) = operands? (ops.reverse ++ xs) rest := by
  induction ops generalizing xs with
  | nil => rfl
  | cons x ops ih =>
    obtain ⟨hx, hops⟩ := List.forall_mem_cons.1 h
    rw [List.flatMap_cons, List.append_assoc, hx, ih hops, List.reverse_cons, List.append_assoc]
    rfl

/-- **The entries of an operand denote the operand.** -/
theorem operands?_entries (x : Operand) (xs : List Operand) (rest : Postfix) :
    operands? xs (x.entries ++ rest) = operands? (x :: xs) rest := by
  induction x generalizing xs rest with
  | literal value span => rfl
  | «variable» index span => rfl
  | call b hb span operands ih =>
    have hops : ∀ x ∈ List.ofFn operands, ∀ xs rest,
        operands? xs (x.entries ++ rest) = operands? (x :: xs) rest := by
      simpa using ih
    rw [Operand.entries, Operand.flatten_ofFn_entries, List.append_assoc, operands?_flatMap hops,
      List.singleton_append, operands?_apply hb List.length_ofFn]
    simp

/-- **The entries of the operands are those that compute something**, in the same order. -/
theorem ofOperands_of_operands? (h : operands? xs items = some ys) :
    ofOperands ys = ofOperands xs ++ items.filter (·.value.computes) := by
  fun_induction operands? xs items with
  | case1 xs =>
    obtain rfl := Option.some.inj h
    simp
  | case2 xs value span rest ih => simp [ih h, Item.computes, Operand.entries]
  | case3 xs index span rest ih => simp [ih h, Item.computes, Operand.entries]
  | case4 xs b span rest hb ih => simp [ih h, Item.computes, hb]
  | case5 xs b span rest hb taken hlen ih =>
    have htaken : (List.ofFn fun k : Fin b.arity => (taken[k]).entries).flatten
        = taken.flatMap Operand.entries := by
      rw [ofFn_getElem_of_length hlen, List.flatMap_def]
    have hsplit : ofOperands xs
        = ofOperands (xs.drop b.arity) ++ taken.flatMap Operand.entries := by
      have happend := ofOperands_append (xs.take b.arity) (xs.drop b.arity)
      rwa [List.take_append_drop] at happend
    rw [ih h, ofOperands_cons, Operand.entries, htaken, hsplit]
    simp [Item.computes, hb]
  | case6 => cases h

/-- What there is before some entries is a part of what there is after them. -/
theorem exists_within_of_operands? (h : operands? xs items = some ys) {x : Operand} (hx : x ∈ xs) :
    ∃ y ∈ ys, x.Within y := by
  fun_induction operands? xs items generalizing x with
  | case1 xs =>
    obtain rfl := Option.some.inj h
    exact ⟨x, hx, .refl x⟩
  | case2 xs value span rest ih => exact ih h (List.mem_cons_of_mem _ hx)
  | case3 xs index span rest ih => exact ih h (List.mem_cons_of_mem _ hx)
  | case4 xs b span rest hb ih => exact ih h hx
  | case5 xs b span rest hb taken hlen ih =>
    rw [← List.take_append_drop b.arity xs, List.mem_append] at hx
    rcases hx with htake | hdrop
    · obtain ⟨k, hk, rfl⟩ := List.getElem_of_mem (List.mem_reverse.2 htake)
      obtain ⟨y, hy, hwithin⟩ := ih h List.mem_cons_self
      exact ⟨y, hy, .trans (.operand ⟨k, hlen ▸ hk⟩ (.refl _)) hwithin⟩
    · exact ih h (List.mem_cons_of_mem _ hdrop)
  | case6 => cases h

/-- An arrangement that settles denotes as many operands as values are counted. -/
theorem exists_operands_of_settle {depth count : Nat} (h : items.settle depth = .ok count)
    (hxs : xs.length = depth) : ∃ ys, operands? xs items = some ys ∧ ys.length = count := by
  fun_induction settle depth items generalizing xs with
  | case1 depth =>
    obtain rfl := Except.ok.inj h
    exact ⟨xs, rfl, hxs⟩
  | case2 => cases h
  | case3 depth b span rest hargs ih =>
    by_cases hb : b.operation = .nop
    · rw [operands?_nop hb]
      refine ih h ?_
      simp [hxs, Builtin.arity, hb, Operation.arity, Operation.producesValue]
    · have htaken : ((xs.take b.arity).reverse).length = b.arity := by simp; omega
      simp only [operands?, dif_neg hb, dif_pos htaken]
      refine ih h ?_
      simp [hxs, Operation.producesValue, hb]
  | case4 depth item rest hitem ih =>
    obtain ⟨value | index | b, span⟩ := item
    · exact ih h (by simp [hxs])
    · exact ih h (by simp [hxs])
    · exact absurd rfl (hitem b span)

/-- **An arrangement that is accepted denotes one operand.** -/
theorem exists_operand_of_check (h : items.check = .ok ()) :
    ∃ x, operands? [] items = some [x] := by
  obtain ⟨ys, hys, hlen⟩ := exists_operands_of_settle (check_eq_ok.1 h) List.length_nil
  obtain ⟨x, rfl⟩ := List.length_eq_one_iff.1 hlen
  exact ⟨x, hys⟩

theorem entries_of_operands? {x : Operand} (h : operands? [] items = some [x]) :
    x.entries = items.filter (·.value.computes) := by
  simpa using ofOperands_of_operands? h

end Postfix

end Flipbook.Expr
