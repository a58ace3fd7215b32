import Flipbook.Proofs.Expr.Grammar
import Flipbook.Proofs.Expr.Operands
import Flipbook.Proofs.Expr.SourceOrder

/-!
# Proofs/Expr/Placement — where builtins stand among their operands

A compilation counts operands and does not look at where they are written.  All that is true of any
source is that the operands of a builtin are first what is written before it and then what is
written behind it (`Operand.Split`), so `1 2 +` is a sum.  In a source that follows the grammar of
infix notation every builtin stands where its fixity says, between its operands or before them
(`Operand.Placed`, `compile_placement`).
-/

namespace Flipbook.Expr

namespace Operand

/-! ## Places of builtins -/

/-- Whether the entries of the operands of every builtin are first some that are written before the
builtin, and then some that are written behind it. -/
def Split (x : Operand) : Prop :=
  ∀ b hb span operands, (call b hb span operands).Within x →
    ∃ front back, (List.ofFn fun k => (operands k).entries).flatten = front ++ back ∧
      (∀ i ∈ front, i.span.stop ≤ span.start) ∧ ∀ i ∈ back, span.stop ≤ i.span.start

/-- Whether every builtin stands where its fixity says: one between operands behind all of the first
operand and before all of the second, and one before operands before all of them. -/
def Placed (x : Operand) : Prop :=
  ∀ b hb span operands, (call b hb span operands).Within x →
    ∀ k, ∀ i ∈ (operands k).entries,
      if b.fixity = .between ∧ k.val = 0 then i.span.stop ≤ span.start
      else span.stop ≤ i.span.start

theorem placed_literal (value : Single) (span : Span) : (literal value span).Placed := by
  rintro b hb span' operands (_ | _)

theorem placed_variable (index : Nat) (span : Span) : («variable» index span).Placed := by
  rintro b hb span' operands (_ | _)

theorem placed_call {b : Builtin} {hb : b.operation ≠ .nop} {span : Span}
    {operands : Fin b.arity → Operand} (hoperands : ∀ k, (operands k).Placed)
    (h : ∀ k, ∀ i ∈ (operands k).entries,
      if b.fixity = .between ∧ k.val = 0 then i.span.stop ≤ span.start
      else span.stop ≤ i.span.start) : (call b hb span operands).Placed := by
  intro b' hb' span' operands' hwithin
  cases hwithin with
  | refl => exact h
  | operand k hwithin => exact hoperands k b' hb' span' operands' hwithin

/-- The entries of a part of an operand stand among those of the operand, in the same order. -/
theorem Within.sublist {x y : Operand} (h : x.Within y) : x.entries.Sublist y.entries := by
  induction h with
  | refl => exact .refl _
  | @operand b hb span operands k h ih =>
    have hmem : (operands k).entries ∈ List.ofFn fun k => (operands k).entries :=
      List.mem_ofFn.2 ⟨k, rfl⟩
    exact (ih.trans (List.sublist_flatten_of_mem hmem)).trans (List.sublist_append_left _ _)

end Operand

/-! ## Sources in general -/

/-- **Every operand of a source is split at its builtins.** -/
theorem Operand.split_of_arrange {tokens : List (Located Token)} {items : Postfix} {x : Operand}
    (htokens : InOrder tokens) (hitems : Postfix.arrange tokens = .ok items)
    (hx : Postfix.operands? [] items = some [x]) : x.Split := by
  intro b hb span operands hwithin
  have hsub : (call b hb span operands).entries.Sublist items := by
    refine hwithin.sublist.trans ?_
    rw [Postfix.entries_of_operands? hx]
    exact List.filter_sublist
  exact Postfix.exists_split_of_arrange htokens hitems hsub

/-! ## The grammar -/

/-- What entries that a part of a source becomes denote: some operands, the latest first, in which
every builtin is placed, with all their entries from the part. -/
structure Denotes (part : List (Located Token)) (items : Postfix) (xs : List Operand) : Prop where
  operands : ∀ ys rest,
    Postfix.operands? ys (items ++ rest) = Postfix.operands? (xs ++ ys) rest
  placed : ∀ x ∈ xs, x.Placed
  written : ∀ x ∈ xs, ∀ i ∈ x.entries, ∃ t ∈ part, t.span = i.span

/-- Whether the entries of a part in order denote as many operands as `count` says. -/
def Reads (count : Nat) (part : List (Located Token)) (items : Postfix) : Prop :=
  InOrder part → ∃ xs : List Operand, xs.length = count ∧ Denotes part items xs

namespace Reads

variable {count count' : Nat} {part part' : List (Located Token)} {items items' : Postfix}
  {b : Builtin} {span : Span}

theorem literal (value : Single) (span : Span) :
    Reads 1 [⟨.number value, span⟩] [⟨.literal value, span⟩] := fun _ =>
  ⟨[.literal value span], rfl, fun _ _ => rfl, by simp [Operand.placed_literal],
    by simp [Operand.entries]⟩

theorem load (index : Nat) (span : Span) :
    Reads 1 [⟨.variable index, span⟩] [⟨.variable index, span⟩] := fun _ =>
  ⟨[.variable index span], rfl, fun _ _ => rfl, by simp [Operand.placed_variable],
    by simp [Operand.entries]⟩

/-- Tokens without entries may stand around a part. -/
theorem mono (h : Reads count part items) (hpart : part.Sublist part') :
    Reads count part' items := by
  intro horder
  obtain ⟨xs, hlen, hxs⟩ := h (horder.sublist hpart)
  refine ⟨xs, hlen, hxs.operands, hxs.placed, fun x hx i hi => ?_⟩
  obtain ⟨t, ht, hspan⟩ := hxs.written x hx i hi
  exact ⟨t, hpart.subset ht, hspan⟩

/-- A builtin that computes nothing leaves the operands. -/
theorem nop (h : Reads count part items) (hb : b.operation = .nop) (span : Span) :
    Reads count part (items ++ [⟨.apply b, span⟩]) := by
  intro horder
  obtain ⟨xs, hlen, hxs⟩ := h horder
  refine ⟨xs, hlen, fun ys rest => ?_, hxs.placed, hxs.written⟩
  rw [List.append_assoc, hxs.operands, List.singleton_append, Postfix.operands?_nop hb]

/-- Two parts denote the operands of both. -/
theorem append (h : Reads count part items) (h' : Reads count' part' items') :
    Reads (count' + count) (part ++ part') (items ++ items') := by
  intro horder
  obtain ⟨xs, hlen, hxs⟩ := h (horder.sublist (List.sublist_append_left _ _))
  obtain ⟨xs', hlen', hxs'⟩ := h' (horder.sublist (List.sublist_append_right _ _))
  refine ⟨xs' ++ xs, by rw [List.length_append, hlen, hlen'], fun ys rest => ?_, ?_, ?_⟩
  · rw [List.append_assoc, hxs.operands, hxs'.operands, List.append_assoc]
  · exact List.forall_mem_append.2 ⟨hxs'.placed, hxs.placed⟩
  · refine List.forall_mem_append.2 ⟨fun x hx i hi => ?_, fun x hx i hi => ?_⟩
    · obtain ⟨t, ht, hspan⟩ := hxs'.written x hx i hi
      exact ⟨t, List.mem_append_right _ ht, hspan⟩
    · obtain ⟨t, ht, hspan⟩ := hxs.written x hx i hi
      exact ⟨t, List.mem_append_left _ ht, hspan⟩

/-- **A builtin before its operands** is placed. -/
theorem before (h : Reads count part items) (hb : b.fixity = .before) (hnop : b.operation ≠ .nop)
    (hcount : count = b.arity) (span : Span) :
    Reads 1 (⟨.builtin b, span⟩ :: part) (items ++ [⟨.apply b, span⟩]) := by
  intro horder
  obtain ⟨xs, hlen, hxs⟩ := h (horder.sublist (List.sublist_cons_self _ _))
  have htaken : xs.reverse.length = b.arity := by rw [List.length_reverse, hlen, hcount]
  have hmem : ∀ k : Fin b.arity, xs.reverse[k] ∈ xs := fun k =>
    List.mem_reverse.1 (List.getElem_mem _)
  refine ⟨[.call b hnop span fun k => xs.reverse[k]], rfl, fun ys rest => ?_, ?_, ?_⟩
  · have happly := Postfix.operands?_apply hnop htaken ys span rest
    rw [List.reverse_reverse] at happly
    rw [List.append_assoc, hxs.operands, List.singleton_append, happly]
    rfl
  · refine List.forall_mem_singleton.2 (Operand.placed_call (fun k => hxs.placed _ (hmem k)) ?_)
    intro k i hi
    obtain ⟨t, ht, hspan⟩ := hxs.written _ (hmem k) i hi
    rw [if_neg (by simp [hb]), ← hspan]
    exact (List.pairwise_cons.1 horder.pairwise).1 t ht
  · refine List.forall_mem_singleton.2 fun i hi => ?_
    rcases Operand.mem_entries_call.1 hi with ⟨k, hi⟩ | rfl
    · obtain ⟨t, ht, hspan⟩ := hxs.written _ (hmem k) i hi
      exact ⟨t, List.mem_cons_of_mem _ ht, hspan⟩
    · exact ⟨_, List.mem_cons_self, rfl⟩

/-- **A builtin between two operands** is placed. -/
theorem between (h : Reads 1 part items) (h' : Reads 1 part' items') (hb : b.fixity = .between)
    (hnop : b.operation ≠ .nop) (harity : b.arity = 2) (span : Span) :
    Reads 1 (part ++ ⟨.builtin b, span⟩ :: part') (items ++ items' ++ [⟨.apply b, span⟩]) := by
  intro horder
  obtain ⟨xs, hlen, hxs⟩ := h (horder.sublist (List.sublist_append_left _ _))
  obtain ⟨ys, hlen', hys⟩ := h' (horder.sublist
    ((List.sublist_cons_self _ _).trans (List.sublist_append_right _ _)))
  obtain ⟨x, rfl⟩ := List.length_eq_one_iff.1 hlen
  obtain ⟨y, rfl⟩ := List.length_eq_one_iff.1 hlen'
  have htaken : [x, y].length = b.arity := harity.symm
  have hcases : ∀ k : Fin b.arity, (k.val = 0 ∧ [x, y][k] = x) ∨ (k.val = 1 ∧ [x, y][k] = y) := by
    rintro ⟨k, hk⟩
    obtain rfl | rfl : k = 0 ∨ k = 1 := by omega
    · exact .inl ⟨rfl, rfl⟩
    · exact .inr ⟨rfl, rfl⟩
  obtain ⟨-, hlater, hfirst⟩ := List.pairwise_append.1 horder.pairwise
  have hsecond := (List.pairwise_cons.1 hlater).1
  refine ⟨[.call b hnop span fun k => [x, y][k]], rfl, fun below rest => ?_, ?_, ?_⟩
  · rw [List.append_assoc, List.append_assoc, hxs.operands, hys.operands]
    exact Postfix.operands?_apply hnop htaken below span rest
  · refine List.forall_mem_singleton.2 (Operand.placed_call (fun k => ?_) fun k i hi => ?_)
    · rcases hcases k with ⟨-, hk⟩ | ⟨-, hk⟩
      · rw [hk]
        exact hxs.placed x (List.mem_singleton_self x)
      · rw [hk]
        exact hys.placed y (List.mem_singleton_self y)
    · rcases hcases k with ⟨hzero, hk⟩ | ⟨hone, hk⟩
      · obtain ⟨t, ht, hspan⟩ := hxs.written x (List.mem_singleton_self x) i (hk ▸ hi)
        rw [if_pos ⟨hb, hzero⟩, ← hspan]
        exact hfirst t ht _ List.mem_cons_self
      · obtain ⟨t, ht, hspan⟩ := hys.written y (List.mem_singleton_self y) i (hk ▸ hi)
        rw [if_neg (by simp [hone]), ← hspan]
        exact hsecond t ht
  · refine List.forall_mem_singleton.2 fun i hi => ?_
    rcases Operand.mem_entries_call.1 hi with ⟨k, hi⟩ | rfl
    · rcases hcases k with ⟨-, hk⟩ | ⟨-, hk⟩
      · obtain ⟨t, ht, hspan⟩ := hxs.written x (List.mem_singleton_self x) i (hk ▸ hi)
        exact ⟨t, List.mem_append_left _ ht, hspan⟩
      · obtain ⟨t, ht, hspan⟩ := hys.written y (List.mem_singleton_self y) i (hk ▸ hi)
        exact ⟨t, List.mem_append_right _ (List.mem_cons_of_mem _ ht), hspan⟩
    · exact ⟨_, List.mem_append_right _ List.mem_cons_self, rfl⟩

end Reads

namespace Derivation

/-- Two arguments with their separator. -/
theorem reads_comma {count count' : Nat} {ts ts' : List Token}
    (hfirst : Postfix.Yields (Reads count) 1 1 ts)
    (hsecond : Postfix.Yields (Reads count') 12 12 ts') :
    Postfix.Yields (Reads (count' + count)) 1 1 (ts ++ .builtin .comma :: ts') :=
  Postfix.Yields.between rfl rfl hfirst (hsecond.weaken (by decide) (by decide))
    fun span _ _ _ _ h h' =>
      ((h.append h').nop rfl span).mono ((List.sublist_cons_self _ _).append_left _)

/-- A function before its arguments in parentheses. -/
theorem reads_arguments {b : Builtin} (hb : b.fixity = .before)
    (hprec : 16 ≤ b.precedence ∧ b.precedence < 18) (hnop : b.operation ≠ .nop) {ts : List Token}
    (h : Postfix.Yields (Reads b.arity) 1 1 ts) :
    Postfix.Yields (Reads 1) 18 16 (.builtin b :: .opening :: ts ++ [.closing]) :=
  Postfix.Yields.before hb hprec.2 hprec.1
    (h.parenthesized 18 16 fun _ _ _ _ hpart => hpart.mono
      ((List.sublist_cons_self _ _).trans (List.sublist_append_left _ _)))
    fun span _ _ hpart => hpart.before hb hnop rfl span

/-- **The tokens of a derivation denote an operand in which every builtin is placed.** -/
theorem reads {n : Nonterminal} (t : Derivation n) :
    Postfix.Yields (Reads 1) (entry n) n.loosest t.tokens := by
  induction t with
  | number value => exact .literal _ _ (Reads.literal value)
  | load index => exact .load _ _ (Reads.load index)
  | parenthesized inner ih =>
    exact (ih.weaken (by decide) (by decide)).parenthesized _ _ fun _ _ _ _ hpart => hpart.mono
      ((List.sublist_cons_self _ _).trans (List.sublist_append_left _ _))
  | before op operand ih =>
    refine ih.before op.fixity_builtin op.precedence_builtin.2 op.precedence_builtin.1
      fun span _ _ hpart => ?_
    cases op with
    | keep => exact (hpart.nop rfl span).mono (List.sublist_cons_self _ _)
    | negate | sin | cos | abs => exact hpart.before rfl (by decide) rfl span
  | near a b iha ihb =>
    exact reads_arguments rfl (by decide) (by decide)
      (reads_comma (iha.weaken (by decide) (by decide)) ihb)
  | near2d a b c d iha ihb ihc ihd =>
    have hab := reads_comma (iha.weaken (by decide) (by decide)) ihb
    exact reads_arguments rfl (by decide) (by decide) (reads_comma (reads_comma hab ihc) ihd)
  | factor single ih => exact ih.weaken (by decide) (by decide)
  | scaled left op right ihl ihr =>
    refine ihl.between op.fixity_builtin op.precedence_builtin
      (ihr.weaken (by decide) (by decide)) fun span _ _ _ _ h h' => ?_
    cases op <;> exact h.between h' rfl (by decide) rfl span
  | term single ih => exact ih.weaken (by decide) (by decide)
  | added left op right ihl ihr =>
    refine ihl.between op.fixity_builtin op.precedence_builtin
      (ihr.weaken (by decide) (by decide)) fun span _ _ _ _ h h' => ?_
    cases op <;> exact h.between h' rfl (by decide) rfl span

/-- The operand of a source derived from the grammar. -/
theorem placed_of_arrange {n : Nonterminal} {tokens : List (Located Token)} {items : Postfix}
    {x : Operand} (t : Derivation n) (htokens : InOrder tokens)
    (hyield : tokens.map Located.value = t.tokens) (hitems : Postfix.arrange tokens = .ok items)
    (hx : Postfix.operands? [] items = some [x]) : x.Placed := by
  obtain ⟨out, hout, hreads⟩ := t.reads.arrange hyield
  obtain rfl := Except.ok.inj (hitems.symm.trans hout)
  obtain ⟨xs, -, hxs⟩ := hreads htokens
  have hoperands := hxs.operands [] []
  rw [List.append_nil, List.append_nil, hx] at hoperands
  obtain rfl := Option.some.inj hoperands
  exact hxs.placed x (List.mem_singleton_self x)

end Derivation

/-! ## Compiled sources -/

/-- **Where the builtins of a compiled source stand.**  Its tokens denote one operand, and the
entries of the operands of every builtin in it are first those written before the builtin, and then
those written behind it.  If the source is infix notation, every builtin stands where its fixity
says. -/
theorem compile_placement {source : String} {env : Environment} {p : Program}
    (h : compile source env = .ok p) : ∃ tokens items x, tokenize source env = .ok tokens ∧
      Postfix.arrange tokens = .ok items ∧ Postfix.operands? [] items = some [x] ∧ x.Split ∧
        ∀ t : Derivation .summation, tokens.map Located.value = t.tokens → x.Placed := by
  obtain ⟨tokens, items, folded, htokens, hitems, hsettle, -, -⟩ := compile_eq_ok.1 h
  obtain ⟨x, hx⟩ := Postfix.exists_operand_of_check (Postfix.check_eq_ok.2 hsettle)
  have horder := inOrder_of_tokenize htokens
  exact ⟨tokens, items, x, htokens, hitems, hx, Operand.split_of_arrange horder hitems hx,
    fun t hyield => t.placed_of_arrange horder hyield hitems hx⟩

/-- A product whose second operand has a sign in front of it. -/
theorem compile_placement_scaled :
    compile "speed * -speed" (.ofVariables ["speed"])
        = .ok ⟨[.load 0, .load 0, .call .neg, .call .mul, .finish]⟩ ∧
      ∃ tokens items x, tokenize "speed * -speed" (.ofVariables ["speed"]) = .ok tokens ∧
        Postfix.arrange tokens = .ok items ∧ Postfix.operands? [] items = some [x] ∧ x.Split ∧
          x.Placed := by
  have hcompile : compile "speed * -speed" (.ofVariables ["speed"])
      = .ok ⟨[.load 0, .load 0, .call .neg, .call .mul, .finish]⟩ := by decide +kernel
  have htokens : tokenize "speed * -speed" (.ofVariables ["speed"]) =
      .ok [⟨.variable 0, ⟨0, 5⟩⟩, ⟨.builtin .times, ⟨6, 7⟩⟩, ⟨.builtin .negate, ⟨8, 9⟩⟩,
        ⟨.variable 0, ⟨9, 14⟩⟩] := by decide +kernel
  obtain ⟨tokens, items, x, htokens', hitems, hx, hsplit, hplaced⟩ := compile_placement hcompile
  obtain rfl := Except.ok.inj (htokens.symm.trans htokens')
  exact ⟨hcompile, _, items, x, htokens, hitems, hx, hsplit,
    hplaced (.term (.scaled (.factor (.load 0)) .times (.before .negate (.load 0)))) rfl⟩

/-- **A sign behind both its operands is accepted**: `1 2 +` is compiled to their sum. -/
theorem compile_sum_behind :
    compile "1 2 +" .empty = .ok (.constant ⟨0x40400000⟩) ∧
      ∃ tokens items x, tokenize "1 2 +" .empty = .ok tokens ∧
        Postfix.arrange tokens = .ok items ∧ Postfix.operands? [] items = some [x] ∧
          ¬ x.Placed := by
  have htokens : tokenize "1 2 +" .empty = .ok [⟨.number ⟨0x3f800000⟩, ⟨0, 1⟩⟩,
      ⟨.number ⟨0x40000000⟩, ⟨2, 3⟩⟩, ⟨.builtin .plus, ⟨4, 5⟩⟩] := by decide +kernel
  refine ⟨by decide +kernel, _, _, _, htokens, rfl, rfl, fun hplaced => ?_⟩
  -- the second operand ends before the sign begins
  have hsecond := hplaced _ _ _ _ (.refl _) ⟨1, by decide⟩ _ (List.mem_singleton_self _)
  exact absurd hsecond (by decide)

end Flipbook.Expr
