import Flipbook.Proofs.Expr.Constants

/-!
# Proofs/Expr/Extents — the place of a folded constant

A constant that folding computes stands for a range of the source: the least one around its builtin
and the places of its operands.  Since the operands were folded before, that is the least range
around all entries that the constant was computed from (`Operand.isExtent_of_folded`), whichever
side of their builtins they are written on.
-/

namespace Flipbook.Expr

/-- Whether a range is the least one around some entries: it contains them, begins with one of them
and ends with one of them. -/
structure Postfix.IsExtent (items : Postfix) (s : Span) : Prop where
  around : ∀ i ∈ items, s.start ≤ i.span.start ∧ i.span.stop ≤ s.stop
  begins : ∃ i ∈ items, i.span.start = s.start
  ends : ∃ i ∈ items, i.span.stop = s.stop

namespace Postfix

variable {xs ys : Postfix} {s s' : Span}

theorem isExtent_singleton (i : Located Item) : IsExtent [i] i.span :=
  ⟨by simp, ⟨i, List.mem_singleton_self i, rfl⟩, ⟨i, List.mem_singleton_self i, rfl⟩⟩

/-- The range around two lists of entries. -/
theorem IsExtent.append (h : IsExtent xs s) (h' : IsExtent ys s') :
    IsExtent (xs ++ ys) (s.cover s') where
  around i hi := by
    simp only [Span.cover]
    rcases List.mem_append.1 hi with hi | hi
    · have hs := h.around i hi
      omega
    · have hs' := h'.around i hi
      omega
  begins := by
    simp only [Span.cover]
    rcases Nat.le_total s.start s'.start with hle | hle
    · obtain ⟨i, hi, hstart⟩ := h.begins
      exact ⟨i, List.mem_append_left _ hi, by omega⟩
    · obtain ⟨i, hi, hstart⟩ := h'.begins
      exact ⟨i, List.mem_append_right _ hi, by omega⟩
  ends := by
    simp only [Span.cover]
    rcases Nat.le_total s.stop s'.stop with hle | hle
    · obtain ⟨i, hi, hstop⟩ := h'.ends
      exact ⟨i, List.mem_append_right _ hi, by omega⟩
    · obtain ⟨i, hi, hstop⟩ := h.ends
      exact ⟨i, List.mem_append_left _ hi, by omega⟩

/-- The order of the entries does not matter. -/
theorem IsExtent.perm (h : IsExtent xs s) (hperm : xs.Perm ys) : IsExtent ys s where
  around i hi := h.around i (hperm.mem_iff.2 hi)
  begins := by
    obtain ⟨i, hi, hstart⟩ := h.begins
    exact ⟨i, hperm.mem_iff.1 hi, hstart⟩
  ends := by
    obtain ⟨i, hi, hstop⟩ := h.ends
    exact ⟨i, hperm.mem_iff.1 hi, hstop⟩

/-- Operands that are folded to literals widen a range to all of their entries. -/
theorem IsExtent.extent {ops : List Operand} (h : IsExtent xs s)
    (hops : ∀ x ∈ ops, ∃ v span, x.folded = .literal v span ∧ IsExtent x.entries span) :
    IsExtent (xs ++ ops.flatMap Operand.entries)
      (extent s (ops.flatMap fun x => x.folded.entries)) := by
  induction ops generalizing xs s with
  | nil => simpa [Postfix.extent] using h
  | cons x ops ih =>
    obtain ⟨⟨v, span, hfolded, hx⟩, hops⟩ := List.forall_mem_cons.1 hops
    have hrest := ih (h.append hx) hops
    rw [List.flatMap_cons, List.flatMap_cons, hfolded, ← List.append_assoc]
    exact hrest

end Postfix

/-- **A folded constant stands for the least range around what it was computed from.** -/
theorem Operand.isExtent_of_folded {x : Operand} {v : Single} {s : Span}
    (h : x.folded = .literal v s) : x.entries.IsExtent s := by
  induction x generalizing v s with
  | literal value span =>
    obtain ⟨⟩ := h
    exact Postfix.isExtent_singleton ⟨.literal value, span⟩
  | «variable» index span => cases h
  | call b hb span operands ih =>
    have hv : (call b hb span operands).constant? = some v := by
      rw [← literal?_folded, h]
      rfl
    have hconstant := (isSome_constant? _).1 (Option.isSome_of_eq_some hv)
    rw [folded, hv] at h
    obtain ⟨-, rfl⟩ := Operand.literal.inj h
    have hops : ∀ x ∈ List.ofFn operands, ∃ v span, x.folded = .literal v span ∧
        x.entries.IsExtent span := by
      intro x hx
      obtain ⟨k, rfl⟩ := List.mem_ofFn.1 hx
      obtain ⟨v, hv⟩ := Option.isSome_iff_exists.1
        ((isSome_constant? _).2 (isConstant_call.1 hconstant k))
      obtain ⟨span, hfolded⟩ := exists_folded_eq_literal hv
      exact ⟨v, span, hfolded, ih k hfolded⟩
    have hfolded : (List.ofFn fun k => (operands k).folded.entries)
        = (List.ofFn operands).map fun x => x.folded.entries := by
      rw [List.map_ofFn]
      rfl
    have hextent := (Postfix.isExtent_singleton ⟨.apply b, span⟩).extent hops
    rw [entries, flatten_ofFn_entries, hfolded, ← List.flatMap_def]
    exact hextent.perm List.perm_append_comm

end Flipbook.Expr
