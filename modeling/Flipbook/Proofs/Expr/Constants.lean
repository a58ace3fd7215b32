import Flipbook.Proofs.Expr.Operands

/-!
# Proofs/Expr/Constants — folding is exact

Folding goes once through an arrangement and looks at no more than the entries just behind it.  That
is enough: what it has done at any moment are the operands so far, each folded by itself
(`Postfix.foldFrom_of_operands?`), and a constant operand is then a single literal.  So
`Postfix.fold_exact` says of every accepted arrangement that folding computes all of its constant
parts, each as the stack machine computes it, and fails exactly where one of them is not finite.
-/

namespace Flipbook.Expr

/-! ## Computing on a stack -/

namespace Stack

/-- The value of an operation on operands that are pushed onto the cleared stack, in order; `none`
where the operands have no room, or are too few, or no value is left. -/
def compute? (s : Stack) (op : Operation) (operands : List Single) : Option Single := do
  let full ← (operands.foldlM push s.clear).toOption
  match full.execute op with
  | (.ok (), after) => return (← after.pop.toOption).1
  | (.error _, _) => none

theorem foldlM_push {values : List Single} {s : Stack}
    (h : s.size + values.length ≤ s.capacity) :
    values.foldlM push s = .ok { s with items := values.reverse ++ s.items } := by
  induction values generalizing s with
  | nil => rfl
  | cons v values ih =>
    rw [List.length_cons] at h
    have hroom : s.size < s.capacity := by omega
    have hlater : ({ s with items := v :: s.items } : Stack).size + values.length ≤ s.capacity := by
      show s.items.length + 1 + values.length ≤ s.capacity
      have hsize : s.size = s.items.length := rfl
      omega
    rw [List.foldlM_cons, push, if_pos hroom]
    refine (ih (s := { s with items := v :: s.items }) hlater).trans ?_
    simp

/-- **A stack with room for the operands computes the result of the operation.** -/
theorem compute?_eq {s : Stack} {op : Operation} {operands : List Single}
    (hlen : operands.length = op.arity) (hroom : op.arity ≤ s.capacity) :
    s.compute? op operands = op.result? operands := by
  have hpush : operands.foldlM push s.clear = .ok { s with items := operands.reverse } := by
    have hfits : s.clear.size + operands.length ≤ s.clear.capacity := by
      show 0 + operands.length ≤ s.capacity
      omega
    rw [foldlM_push hfits]
    simp [clear]
  have hargs : ¬ ({ s with items := operands.reverse } : Stack).size < op.arity := by
    simp [size, hlen]
  have htake : operands.reverse.take op.arity = operands.reverse := by
    rw [← hlen, ← List.length_reverse, List.take_length]
  have hdrop : operands.reverse.drop op.arity = [] := by
    rw [← hlen, ← List.length_reverse, List.drop_length]
  rw [compute?, hpush]
  simp only [Except.toOption, Option.bind_eq_bind, Option.bind_some, execute, hargs, if_false,
    htake, hdrop, List.reverse_reverse, List.append_nil]
  cases op.result? operands <;> rfl

end Stack

/-- The stack that folding computes on. -/
def foldingStack : Stack := ⟨4, []⟩

/-- It holds the operands of every operation. -/
theorem arity_le_foldingStack (op : Operation) : op.arity ≤ foldingStack.capacity := by
  cases op <;> decide

/-! ## Constant operands -/

namespace Operand

/-- The value of an operand without variables, computed on a stack from the innermost parts on. -/
def constant? : Operand → Option Single
  | .literal value _ => some value
  | .variable .. => none
  | .call b _ _ operands =>
    ((List.ofFn fun k => (operands k).constant?).mapM id).bind
      (foldingStack.compute? b.operation)

/-- Whether an operand reads no variable. -/
def IsConstant (x : Operand) : Prop :=
  ∀ i ∈ x.entries, ∀ index, i.value ≠ .variable index

/-- Whether an operand is a builtin that reads no variable, with a value that is not finite. -/
structure NonFiniteCall (x : Operand) : Prop where
  isCall : ∃ b hb span operands, x = .call b hb span operands
  isConstant : x.IsConstant
  value : ∃ v, x.constant? = some v ∧ ¬ v.isFinite

variable {b : Builtin} {hb : b.operation ≠ .nop} {span : Span} {operands : Fin b.arity → Operand}

theorem isConstant_call : (call b hb span operands).IsConstant ↔ ∀ k, (operands k).IsConstant := by
  simp only [IsConstant, mem_entries_call]
  constructor
  · exact fun h k i hi => h i (.inl ⟨k, hi⟩)
  · rintro h i (⟨k, hi⟩ | rfl) index
    · exact h k i hi index
    · simp

theorem length_of_mapM_constant? {values : List Single}
    (h : (List.ofFn fun k => (operands k).constant?).mapM id = some values) :
    values.length = b.operation.arity := by
  rw [← (mapM_eq_some.1 h).length_eq, List.length_ofFn, Builtin.arity]

/-- **What is computed on the stack is the result of the operation.** -/
theorem constant?_call : (call b hb span operands).constant?
    = ((List.ofFn fun k => (operands k).constant?).mapM id).bind b.operation.result? := by
  rw [constant?]
  cases hvalues : (List.ofFn fun k => (operands k).constant?).mapM id with
  | none => rfl
  | some values =>
    exact Stack.compute?_eq (length_of_mapM_constant? hvalues) (arity_le_foldingStack b.operation)

/-- **An operand has a constant value exactly if it reads no variable.** -/
theorem isSome_constant? (x : Operand) : x.constant?.isSome ↔ x.IsConstant := by
  induction x with
  | literal value span => simp [constant?, IsConstant, entries]
  | «variable» index span => simp [constant?, IsConstant, entries]
  | call b hb span operands ih =>
    have hall : ((List.ofFn fun k => (operands k).constant?).mapM id).isSome ↔
        ∀ k, (operands k).IsConstant := by
      simp [isSome_mapM, ih]
    rw [isConstant_call, constant?_call, ← hall]
    cases hvalues : (List.ofFn fun k => (operands k).constant?).mapM id with
    | none => rfl
    | some values =>
      have hlen := length_of_mapM_constant? hvalues
      simp [Operation.isSome_result? _ _ hlen, Operation.producesValue, hb]

/-! ## Folding operands -/

/-- The value of an operand that is a literal. -/
def literal? : Operand → Option Single
  | .literal value _ => some value
  | _ => none

/-- An operand with its constant parts computed, whatever their values. -/
def folded : Operand → Operand
  | .literal value span => .literal value span
  | .variable index span => .variable index span
  | .call b hb span operands =>
    match (call b hb span operands).constant? with
    | some value =>
      .literal value (Postfix.extent span (List.ofFn fun k => (operands k).folded.entries).flatten)
    | none => .call b hb span fun k => (operands k).folded

/-- **A folded operand is a literal exactly where the operand has a constant value.** -/
@[simp] theorem literal?_folded (x : Operand) : x.folded.literal? = x.constant? := by
  cases x with
  | literal value span => rfl
  | «variable» index span => rfl
  | call b hb span operands =>
    rw [folded]
    cases (call b hb span operands).constant? <;> rfl

/-- A constant operand is folded to a literal. -/
theorem exists_folded_eq_literal {x : Operand} {v : Single} (h : x.constant? = some v) :
    ∃ span, x.folded = .literal v span := by
  rw [← literal?_folded] at h
  cases hx : x.folded with
  | literal value span =>
    rw [hx] at h
    obtain rfl := Option.some.inj h
    exact ⟨span, rfl⟩
  | _ => simp [hx, literal?] at h

/-- Folding keeps constant values. -/
@[simp] theorem constant?_folded (x : Operand) : x.folded.constant? = x.constant? := by
  induction x with
  | literal value span => rfl
  | «variable» index span => rfl
  | call b hb span operands ih =>
    rw [folded]
    cases hv : (call b hb span operands).constant? with
    | some v => rfl
    | none =>
      simp only [constant?_call, ih] at hv ⊢
      exact hv

/-- No constant part of a folded operand is left to be computed. -/
theorem exists_not_isConstant_of_within_folded {x : Operand}
    (h : (call b hb span operands).Within x.folded) : ∃ k, ¬ (operands k).IsConstant := by
  induction x with
  | literal value span => cases h
  | «variable» index span => cases h
  | call b' hb' span' operands' ih =>
    rw [folded] at h
    cases hv : (call b' hb' span' operands').constant? with
    | some v =>
      rw [hv] at h
      cases h
    | none =>
      rw [hv] at h
      cases h with
      | refl =>
        have hnone : ¬ (call b hb span operands').IsConstant := by
          rw [← isSome_constant?, hv]
          simp
        rw [isConstant_call, not_forall] at hnone
        simpa [← isSome_constant?] using hnone
      | operand k h => exact ih k h

/-- The last entry of an operand is a literal exactly if the operand is, and then it is the only
entry. -/
theorem exists_entries_eq (x : Operand) : ∃ init root, x.entries = init ++ [root] ∧
    Postfix.literal? root = x.literal? ∧ (x.literal?.isSome → init = []) := by
  cases x with
  | literal value span => exact ⟨[], _, rfl, rfl, fun _ => rfl⟩
  | «variable» index span => exact ⟨[], _, rfl, rfl, fun _ => rfl⟩
  | call b hb span operands =>
    exact ⟨_, _, rfl, rfl, fun h => by cases h⟩

/-- A builtin is not finite exactly if the stack machine computes a value that is not. -/
theorem nonFiniteCall_call : (call b hb span operands).NonFiniteCall ↔
    ∃ v, (call b hb span operands).constant? = some v ∧ ¬ v.isFinite := by
  constructor
  · exact NonFiniteCall.value
  · rintro ⟨v, hv, hfin⟩
    exact ⟨⟨b, hb, span, operands, rfl⟩, by rw [← isSome_constant?, hv]; rfl, v, hv, hfin⟩

/-- Whether every constant part of an operand has a finite value. -/
def AllFinite (x : Operand) : Prop := ∀ y : Operand, y.Within x → ¬ y.NonFiniteCall

theorem allFinite_literal (value : Single) (span : Span) : (literal value span).AllFinite := by
  rintro y (_ | _) h
  obtain ⟨b, hb, span', operands, heq⟩ := h.isCall
  cases heq

theorem allFinite_variable (index : Nat) (span : Span) : («variable» index span).AllFinite := by
  rintro y (_ | _) h
  obtain ⟨b, hb, span', operands, heq⟩ := h.isCall
  cases heq

theorem allFinite_call (h : ¬ (call b hb span operands).NonFiniteCall)
    (hoperands : ∀ k, (operands k).AllFinite) : (call b hb span operands).AllFinite := by
  intro y hy
  cases hy with
  | refl => exact h
  | operand k hy => exact hoperands k y hy

end Operand

namespace Postfix

variable {xs ys : List Operand} {items : Postfix}

/-- The latest entries of operands are literals exactly if the latest operands are. -/
theorem mapM_literal?_take {n : Nat} (h : n ≤ xs.length) :
    ((ofOperands xs).reverse.take n).mapM literal? = (xs.take n).mapM Operand.literal? := by
  induction xs generalizing n with
  | nil => simp
  | cons x xs ih =>
    cases n with
    | zero => simp
    | succ n =>
      obtain ⟨init, root, hentries, hroot, hinit⟩ := x.exists_entries_eq
      rw [ofOperands_cons, hentries, List.reverse_append, List.reverse_append, List.take_succ_cons]
      simp only [List.reverse_singleton, List.cons_append, List.nil_append, List.take_succ_cons,
        List.mapM_cons, hroot]
      cases hx : x.literal? with
      | none => rfl
      | some v =>
        obtain rfl := hinit (by rw [hx]; rfl)
        simp only [List.reverse_nil, List.nil_append, ih (Nat.le_of_succ_le_succ h)]

/-- A step that may have no result goes through a list from either end. -/
theorem mapM_reverse {α β : Type} (f : α → Option β) (xs : List α) :
    xs.reverse.mapM f = (xs.mapM f).map List.reverse := by
  refine Option.ext fun ys => ?_
  rw [Option.map_eq_some_iff]
  constructor
  · intro h
    refine ⟨ys.reverse, ?_, List.reverse_reverse ys⟩
    rw [mapM_eq_some] at h ⊢
    simpa using List.rel_reverse h
  · rintro ⟨zs, hzs, rfl⟩
    rw [mapM_eq_some] at hzs ⊢
    exact List.rel_reverse hzs

/-- Operands that are literals have an entry each. -/
theorem length_ofOperands (h : ∀ x ∈ xs, x.literal?.isSome) :
    (ofOperands xs).length = xs.length := by
  induction xs with
  | nil => rfl
  | cons x xs ih =>
    obtain ⟨hx, hxs⟩ := List.forall_mem_cons.1 h
    obtain ⟨init, root, hentries, -, hinit⟩ := x.exists_entries_eq
    rw [ofOperands_cons, List.length_append, ih hxs, hentries, hinit hx]
    rfl

/-- The operands so far, each folded by itself, as folding has done them: the latest entry first. -/
def done (xs : List Operand) : Postfix := (ofOperands (xs.map Operand.folded)).reverse

@[simp] theorem done_cons (x : Operand) (xs : List Operand) :
    done (x :: xs) = x.folded.entries.reverse ++ done xs := by
  simp [done]

theorem done_append (xs ys : List Operand) : done (xs ++ ys) = done xs ++ done ys := by
  simp [done, ofOperands_append]

/-- Where the latest operands are constant, folding has done one entry for each of them. -/
theorem done_of_constant {n : Nat} (hn : n ≤ xs.length)
    (h : ∀ x ∈ xs.take n, x.constant?.isSome) :
    (done xs).take n = done (xs.take n) ∧ (done xs).drop n = done (xs.drop n) := by
  have hliteral : ∀ y ∈ (xs.take n).map Operand.folded, y.literal?.isSome :=
    List.forall_mem_map.2 fun x hx => x.literal?_folded ▸ h x hx
  have hlen : (done (xs.take n)).length = n := by
    rw [done, List.length_reverse, length_ofOperands hliteral, List.length_map,
      List.length_take_of_le hn]
  have hsplit : done xs = done (xs.take n) ++ done (xs.drop n) := by
    rw [← done_append, List.take_append_drop]
  rw [hsplit]
  exact ⟨List.take_left' hlen, List.drop_left' hlen⟩

section Call

variable {b : Builtin} {hb : b.operation ≠ .nop} {span : Span} {operands : Fin b.arity → Operand}

theorem le_length_of_take (hops : List.ofFn operands = (xs.take b.arity).reverse) :
    b.arity ≤ xs.length := by
  have hlen := congrArg List.length hops
  rw [List.length_ofFn, List.length_reverse, List.length_take] at hlen
  omega

/-- What folding has done for the latest operands are the folded operands of a builtin. -/
theorem reverse_done_take (hops : List.ofFn operands = (xs.take b.arity).reverse) :
    (List.ofFn fun k => (operands k).folded.entries).flatten
      = (done (xs.take b.arity)).reverse := by
  have hfolded : (List.ofFn fun k => (operands k).folded.entries)
      = (xs.take b.arity).reverse.map fun x => x.folded.entries := by
    rw [← hops, List.map_ofFn]
    rfl
  rw [hfolded, done, List.reverse_reverse, ofOperands, ← List.map_reverse, List.flatMap_def,
    List.map_map]
  rfl

/-- **Folding finds the value of a constant part** among the entries that it has done. -/
theorem constant?_take_done (hb : b.operation ≠ .nop) (span : Span)
    (hops : List.ofFn operands = (xs.take b.arity).reverse) :
    constant? b ((done xs).take b.arity).reverse = (Operand.call b hb span operands).constant? := by
  have hfits : b.arity ≤ (xs.map Operand.folded).length := by
    rw [List.length_map]
    exact le_length_of_take hops
  have hdone : ((done xs).take b.arity).mapM literal?
      = (xs.take b.arity).mapM Operand.constant? := by
    have hvalue : Operand.literal? ∘ Operand.folded = Operand.constant? :=
      funext Operand.literal?_folded
    rw [done, mapM_literal?_take hfits, ← List.map_take, List.mapM_map, hvalue]
  have hcall : (List.ofFn fun k => (operands k).constant?).mapM id
      = (xs.take b.arity).reverse.mapM Operand.constant? := by
    have hvalues : (List.ofFn fun k => (operands k).constant?)
        = (xs.take b.arity).reverse.map Operand.constant? := by
      rw [← hops, List.map_ofFn]
      rfl
    rw [hvalues, List.mapM_map]
    rfl
  rw [constant?, Operand.constant?_call, hcall, mapM_reverse, mapM_reverse, hdone]

/-- The operands of a call that has a constant value have constant values. -/
theorem isSome_constant?_of_call {v : Single}
    (hops : List.ofFn operands = (xs.take b.arity).reverse)
    (h : (Operand.call b hb span operands).constant? = some v) :
    ∀ x ∈ xs.take b.arity, x.constant?.isSome := by
  intro x hx
  obtain ⟨k, rfl⟩ := List.mem_ofFn.1 (hops ▸ List.mem_reverse.2 hx)
  have hcall := (Operand.isSome_constant? _).1 (Option.isSome_of_eq_some h)
  exact (Operand.isSome_constant? _).2 (Operand.isConstant_call.1 hcall k)

/-- A constant call is folded to a literal around what folding has done for its operands. -/
theorem folded_call_of_constant? {v : Single}
    (hops : List.ofFn operands = (xs.take b.arity).reverse)
    (hv : (Operand.call b hb span operands).constant? = some v) :
    (Operand.call b hb span operands).folded
      = .literal v (extent span ((done xs).take b.arity).reverse) := by
  -- the operands are constant, so each of them is one entry
  obtain ⟨htaken, -⟩ :=
    done_of_constant (le_length_of_take hops) (isSome_constant?_of_call hops hv)
  rw [Operand.folded, hv, htaken]
  simp only
  rw [reverse_done_take hops]

/-- **Folding does to a call what it does to the call by itself.**  Where the call is constant, its
value takes the place of its operands; where it is not, it stays behind them. -/
theorem foldFrom_call (hops : List.ofFn operands = (xs.take b.arity).reverse)
    (hfinite : ¬ (Operand.call b hb span operands).NonFiniteCall) (rest : Postfix) :
    foldFrom (done xs) (⟨.apply b, span⟩ :: rest)
      = foldFrom (done (.call b hb span operands :: xs.drop b.arity)) rest := by
  have hoperands := reverse_done_take hops
  rw [Operand.nonFiniteCall_call] at hfinite
  rw [foldFrom, if_neg hb]
  simp only [constant?_take_done hb span hops]
  cases hv : (Operand.call b hb span operands).constant? with
  | none =>
    have hdone : done (.call b hb span operands :: xs.drop b.arity)
        = ⟨.apply b, span⟩ :: done xs := by
      rw [done_cons, Operand.folded, hv]
      simp only
      rw [Operand.entries, hoperands, List.reverse_append, List.reverse_reverse, List.append_assoc,
        ← done_append, List.take_append_drop]
      rfl
    rw [hdone]
  | some v =>
    have hfin : v.isFinite := by
      by_contra hnot
      exact hfinite ⟨v, hv, hnot⟩
    obtain ⟨-, hbelow⟩ :=
      done_of_constant (le_length_of_take hops) (isSome_constant?_of_call hops hv)
    simp only [if_pos hfin]
    rw [done_cons, folded_call_of_constant? hops hv, hbelow]
    rfl

/-- **Folding fails at a call that is constant and not finite**, and points at the place that its
value would have. -/
theorem foldFrom_nonFiniteCall (hops : List.ofFn operands = (xs.take b.arity).reverse)
    (h : (Operand.call b hb span operands).NonFiniteCall) (rest : Postfix) :
    ∃ v whole, (Operand.call b hb span operands).folded = .literal v whole ∧
      foldFrom (done xs) (⟨.apply b, span⟩ :: rest) = .error (.nonFiniteConstant whole) := by
  obtain ⟨v, hv, hfin⟩ := Operand.nonFiniteCall_call.1 h
  refine ⟨v, _, folded_call_of_constant? hops hv, ?_⟩
  rw [foldFrom, if_neg hb]
  simp only [constant?_take_done hb span hops, hv]
  rw [if_neg hfin]

end Call

/-- **Folding does to every operand what it does to the operand by itself**, and fails exactly if a
constant part of one of them is not finite; then it points at the place of such a part. -/
theorem foldFrom_of_operands? (h : operands? xs items = some ys) (hxs : ∀ x ∈ xs, x.AllFinite) :
    ((∀ y ∈ ys, y.AllFinite) ∧ foldFrom (done xs) items = .ok (done ys).reverse) ∨
      ∃ y ∈ ys, ∃ z : Operand, z.Within y ∧ z.NonFiniteCall ∧ ∃ v span,
        z.folded = .literal v span ∧
          foldFrom (done xs) items = .error (.nonFiniteConstant span) := by
  fun_induction operands? xs items with
  | case1 xs =>
    obtain rfl := Option.some.inj h
    exact .inl ⟨hxs, rfl⟩
  | case2 xs value span rest ih =>
    have hdone : foldFrom (done xs) (⟨.literal value, span⟩ :: rest)
        = foldFrom (done (.literal value span :: xs)) rest := by
      rw [done_cons]
      rfl
    rw [hdone]
    exact ih h (List.forall_mem_cons.2 ⟨Operand.allFinite_literal value span, hxs⟩)
  | case3 xs index span rest ih =>
    have hdone : foldFrom (done xs) (⟨.variable index, span⟩ :: rest)
        = foldFrom (done (.variable index span :: xs)) rest := by
      rw [done_cons]
      rfl
    rw [hdone]
    exact ih h (List.forall_mem_cons.2 ⟨Operand.allFinite_variable index span, hxs⟩)
  | case4 xs b span rest hb ih =>
    rw [foldFrom, if_pos hb]
    exact ih h hxs
  | case5 xs b span rest hb taken hlen ih =>
    have hops : (List.ofFn fun k : Fin b.arity => taken[k]) = (xs.take b.arity).reverse := by
      rw [ofFn_getElem_of_length hlen fun x => x, List.map_id']
    by_cases hcall : (Operand.call b hb span fun k => taken[k]).NonFiniteCall
    · obtain ⟨y, hy, hwithin⟩ := exists_within_of_operands? h List.mem_cons_self
      exact .inr ⟨y, hy, _, hwithin, hcall, foldFrom_nonFiniteCall hops hcall rest⟩
    · rw [foldFrom_call hops hcall]
      refine ih h (List.forall_mem_cons.2 ⟨Operand.allFinite_call hcall fun k => ?_, fun x hx =>
        hxs x (List.mem_of_mem_drop hx)⟩)
      exact hxs _ (List.mem_of_mem_take (List.mem_reverse.1 (List.getElem_mem _)))
  | case6 => cases h

/-! ## Folding on the stack -/

/-- The operands of a builtin as values, where they are all there and literals. -/
def literals? (b : Builtin) (operands : List (Located Item)) : Option (List Single) :=
  (operands.mapM literal?).filter fun values => values.length = b.arity

/-- Folds the remaining entries behind those already `done`, with every value computed on a
stack. -/
def foldOnStackFrom (s : Stack) : (done : Postfix) → Postfix → Except Fault Postfix
  | done, [] => .ok done.reverse
  | done, ⟨.apply b, span⟩ :: rest =>
    if b.operation = .nop then foldOnStackFrom s done rest
    else
      let operands := (done.take b.arity).reverse
      match literals? b operands with
      | none => foldOnStackFrom s (⟨.apply b, span⟩ :: done) rest
      | some values =>
        match s.compute? b.operation values with
        | none => .error (.arityMismatch b operands.length span)
        | some value =>
          let whole := extent span operands
          if value.isFinite then
            foldOnStackFrom s (⟨.literal value, whole⟩ :: done.drop b.arity) rest
          else .error (.nonFiniteConstant whole)
  | done, item :: rest => foldOnStackFrom s (item :: done) rest

/-- The arrangement with its constant parts computed on a stack; fails where one of them is not
finite, and where the stack lacks operands or room. -/
def foldOnStack (items : Postfix) : Except Fault Postfix := foldOnStackFrom foldingStack [] items

/-- A builtin that computes something has a value exactly on operands that are literals. -/
theorem literals?_eq_none {b : Builtin} (hb : b.operation ≠ .nop) {operands : Postfix} :
    literals? b operands = none ↔ constant? b operands = none := by
  rw [literals?, constant?]
  cases operands.mapM literal? with
  | none => simp
  | some values =>
    rw [Option.filter_some, Option.bind_some]
    by_cases hlen : values.length = b.arity
    · have hresult : (b.operation.result? values).isSome := by
        rw [Operation.isSome_result? _ _ hlen]
        simpa [Operation.producesValue] using hb
      simp [hlen, Option.isSome_iff_ne_none.1 hresult]
    · have hresult : b.operation.result? values = none :=
        Option.eq_none_iff_forall_ne_some.2 fun v hv => hlen (Operation.length_of_result? hv)
      simp [hlen, hresult]

/-- **A stack with room for the operands computes the value of a builtin.** -/
theorem compute?_of_literals? {b : Builtin} {operands : Postfix} {values : List Single}
    (h : literals? b operands = some values) :
    foldingStack.compute? b.operation values = constant? b operands := by
  obtain ⟨hvalues, hlen⟩ := Option.filter_eq_some_iff.1 h
  have hargs : values.length = b.operation.arity := of_decide_eq_true hlen
  rw [constant?, hvalues, Stack.compute?_eq hargs (arity_le_foldingStack _)]
  rfl

/-- **The stack never lacks operands or room.** -/
theorem foldOnStackFrom_eq (prior items : Postfix) :
    foldOnStackFrom foldingStack prior items = foldFrom prior items := by
  fun_induction foldOnStackFrom foldingStack prior items with
  | case1 => rfl
  | case2 prior b span rest hb ih => rw [foldFrom, if_pos hb, ih]
  | case3 prior b span rest hb operands hliterals ih =>
    have hvalue : constant? b (prior.take b.arity).reverse = none :=
      (literals?_eq_none hb).1 hliterals
    rw [foldFrom, if_neg hb]
    simp only [hvalue, ih]
  | case4 prior b span rest hb operands values hliterals hvalue =>
    rw [compute?_of_literals? hliterals, ← literals?_eq_none hb, hliterals] at hvalue
    cases hvalue
  | case5 prior b span rest hb operands values hliterals v hcompute whole hfin ih =>
    have hvalue : constant? b (prior.take b.arity).reverse = some v := by
      rw [← compute?_of_literals? hliterals, hcompute]
    rw [foldFrom, if_neg hb]
    simp only [hvalue, if_pos hfin]
    exact ih
  | case6 prior b span rest hb operands values hliterals v hcompute whole hfin =>
    have hvalue : constant? b (prior.take b.arity).reverse = some v := by
      rw [← compute?_of_literals? hliterals, hcompute]
    rw [foldFrom, if_neg hb]
    simp only [hvalue, if_neg hfin]
    rfl
  | case7 prior item rest hitem ih =>
    rw [foldFrom, ih]
    exact hitem

theorem foldOnStack_eq (items : Postfix) : items.foldOnStack = items.fold :=
  foldOnStackFrom_eq [] items

/-! ## Exactness -/

/-- What folding does to an arrangement that denotes an operand.  On the stack it is never without
operands.  It fails exactly if some constant part of the operand is not finite.  Otherwise the
result denotes the folded operand: it has no entry that computes nothing, each builtin in it has an
operand that reads a variable, and a constant expression is compiled to its value and an end. -/
structure FoldsExactly (items : Postfix) (x : Operand) : Prop where
  onStack : items.foldOnStack = items.fold
  arity : ∀ b found span, items.foldOnStack ≠ .error (.arityMismatch b found span)
  nonFinite : (∃ span, items.fold = .error (.nonFiniteConstant span)) ↔
    ∃ y : Operand, y.Within x ∧ y.NonFiniteCall
  denotes : x.AllFinite → items.fold = .ok x.folded.entries ∧
    operands? [] x.folded.entries = some [x.folded]
  computes : ∀ i ∈ x.folded.entries, ¬ IsNop i.value
  reads : ∀ b hb span operands, (Operand.call b hb span operands).Within x.folded →
    ∃ k, ∃ i ∈ (operands k).entries, ∃ index, i.value = .variable index
  compiled : ∀ source env tokens, tokenize source env = .ok tokens → arrange tokens = .ok items →
    (∀ t ∈ tokens, ∀ index, t.value ≠ .variable index) → x.AllFinite →
      ∃ v, x.constant? = some v ∧ compile source env = .ok (.constant v)

/-- An arrangement that denotes an operand is folded to the folded operand, or fails at the place of
a part that is not finite. -/
theorem fold_of_operands? {x : Operand} (h : operands? [] items = some [x]) :
    (x.AllFinite ∧ items.fold = .ok x.folded.entries) ∨
      ∃ z : Operand, z.Within x ∧ z.NonFiniteCall ∧ ∃ v span, z.folded = .literal v span ∧
        items.fold = .error (.nonFiniteConstant span) := by
  rcases foldFrom_of_operands? h (List.forall_mem_nil _) with ⟨hall, hfold⟩ | ⟨y, hy, hpart⟩
  · refine .inl ⟨hall x List.mem_cons_self, hfold.trans ?_⟩
    simp [done]
  · obtain rfl := List.mem_singleton.1 hy
    exact .inr hpart

/-- The operand of tokens without variables is constant. -/
theorem isConstant_of_arrange {x : Operand} {tokens : List (Located Token)}
    (hx : operands? [] items = some [x]) (hitems : arrange tokens = .ok items)
    (htokens : ∀ t ∈ tokens, ∀ index, t.value ≠ .variable index) : x.IsConstant := by
  intro i hi index hvalue
  rw [entries_of_operands? hx, List.mem_filter] at hi
  obtain ⟨t, ht, hitem, -⟩ := exists_token_of_arrange hitems hi.1
  rw [hvalue] at hitem
  cases hv : t.value with
  | «variable» index' => exact htokens t ht index' hv
  | _ => simp [hv, Token.item?] at hitem

/-- An arrangement that is accepted and denotes an operand is folded exactly. -/
theorem foldsExactly_of_operands? {x : Operand} (h : items.check = .ok ())
    (hx : operands? [] items = some [x]) : FoldsExactly items x where
  onStack := foldOnStack_eq items
  arity b found span herror := by
    obtain ⟨span', hspan⟩ := fold_eq_error ((foldOnStack_eq items).symm.trans herror)
    cases hspan
  nonFinite := by
    rcases fold_of_operands? hx with ⟨hall, hfold⟩ | ⟨y, hy, hcall, v, span, -, hfold⟩
    · exact iff_of_false (by simp [hfold]) fun ⟨y, hy, hcall⟩ => hall y hy hcall
    · exact iff_of_true ⟨span, hfold⟩ ⟨y, hy, hcall⟩
  denotes hall := by
    rcases fold_of_operands? hx with ⟨-, hfold⟩ | ⟨y, hy, hcall, -⟩
    · refine ⟨hfold, ?_⟩
      simpa [operands?] using operands?_entries x.folded [] []
    · exact absurd hcall (hall y hy)
  computes i hi := x.folded.computes_of_mem_entries hi
  reads b hb span operands hwithin := by
    obtain ⟨k, hk⟩ := Operand.exists_not_isConstant_of_within_folded hwithin
    exact ⟨k, by simpa [Operand.IsConstant] using hk⟩
  compiled source env tokens htokens hitems hvariables hall := by
    have hconstant := isConstant_of_arrange hx hitems hvariables
    obtain ⟨v, hv⟩ := Option.isSome_iff_exists.1 (x.isSome_constant?.2 hconstant)
    refine ⟨v, hv, ?_⟩
    obtain ⟨span, hfolded⟩ := x.exists_folded_eq_literal hv
    rcases fold_of_operands? hx with ⟨-, hfold⟩ | ⟨y, hy, hcall, -⟩
    · rw [compile_of_settle htokens hitems (check_eq_ok.1 h), hfold, hfolded]
      rfl
    · exact absurd hcall (hall y hy)

/-- **Folding is exact** on every arrangement that is accepted. -/
theorem fold_exact {items : Postfix} (h : items.check = .ok ()) :
    ∃ x, operands? [] items = some [x] ∧ FoldsExactly items x := by
  obtain ⟨x, hx⟩ := exists_operand_of_check h
  exact ⟨x, hx, foldsExactly_of_operands? h hx⟩

/-- The sum of `2` and `3`, a comma behind it, times the sine of a variable. -/
def sumTimesSine : Postfix :=
  [⟨.literal ⟨0x40000000⟩, ⟨0, 1⟩⟩, ⟨.literal ⟨0x40400000⟩, ⟨4, 5⟩⟩, ⟨.apply .plus, ⟨2, 3⟩⟩,
    ⟨.apply .comma, ⟨6, 7⟩⟩, ⟨.variable 0, ⟨12, 13⟩⟩, ⟨.apply .sin, ⟨8, 11⟩⟩,
    ⟨.apply .times, ⟨7, 8⟩⟩]

theorem fold_exact_sumTimesSine : sumTimesSine.check = .ok () ∧
    ∃ x, operands? [] sumTimesSine = some [x] ∧ FoldsExactly sumTimesSine x := by
  have hcheck : sumTimesSine.check = .ok () := by decide +kernel
  exact ⟨hcheck, fold_exact hcheck⟩

end Postfix

end Flipbook.Expr
