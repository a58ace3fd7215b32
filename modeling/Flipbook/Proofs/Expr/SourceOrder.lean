import Flipbook.Proofs.Expr.Arrangement
import Mathlib.Data.List.TakeWhile
import Mathlib.Data.List.Triplewise

/-!
# Proofs/Expr/SourceOrder — what an arrangement keeps of the order of the source

Tokens are not empty and stand in the source one after the other (`inOrder_of_tokenize`).  Waiting
builtins leave the latest first, so an arrangement never has, before an entry, one that is written
behind it and then one that is written before it (`Postfix.triplewise_arrange`).  So the entries
before an entry are first those written before it, and then those written behind it
(`Postfix.exists_split_of_arrange`).
-/

namespace Flipbook.Expr

/-- Tokens that are not empty and stand one after the other. -/
structure InOrder (ts : List (Located Token)) : Prop where
  nonempty : ∀ t ∈ ts, t.span.start < t.span.stop
  pairwise : ts.Pairwise fun t u => t.span.stop ≤ u.span.start

namespace InOrder

variable {ts us : List (Located Token)}

theorem sublist (h : InOrder ts) (hus : us.Sublist ts) : InOrder us :=
  ⟨fun t ht => h.nonempty t (hus.subset ht), h.pairwise.sublist hus⟩

/-- Tokens begin in their order. -/
theorem pairwise_start (h : InOrder ts) :
    ts.Pairwise fun t u => t.span.start < u.span.start :=
  h.pairwise.imp_of_mem fun ht _ hle => Nat.lt_of_lt_of_le (h.nonempty _ ht) hle

/-- A token that begins before another one ends before it. -/
theorem stop_le_of_start_lt (h : InOrder ts) {t u : Located Token} (ht : t ∈ ts) (hu : u ∈ ts)
    (hlt : t.span.start < u.span.start) : t.span.stop ≤ u.span.start := by
  have key : ∀ ⦃t⦄, t ∈ ts → ∀ ⦃u⦄, u ∈ ts →
      t.span.start < u.span.start → t.span.stop ≤ u.span.start := by
    refine List.Pairwise.forall_of_forall_of_flip
      (R := fun t u : Located Token => t.span.start < u.span.start → t.span.stop ≤ u.span.start)
      ?_ ?_ ?_
    · exact fun t _ hself => absurd hself (Nat.lt_irrefl _)
    · exact h.pairwise.imp fun {t u} hle (_ : t.span.start < u.span.start) => hle
    · exact h.pairwise_start.imp fun hlt hflip => absurd hflip (Nat.lt_asymm hlt)
  exact key ht hu hlt

end InOrder

/-! ## Tokens -/

theorem utf8Length_pos {cs : List Char} (h : cs ≠ []) : 0 < utf8Length cs := by
  cases cs with
  | nil => exact absurd rfl h
  | cons c cs =>
    rw [utf8Length_cons]
    exact Nat.add_pos_left c.utf8Size_pos _

/-- The tokens of pieces that are not empty are in order, none of them before the first piece. -/
theorem Lexeme.inOrder_tokens {env : Environment} {after : Bool} {start : Nat} {ls : List Lexeme}
    {ts : List (Located Token)} (hls : ∀ l ∈ ls, l.chars ≠ [])
    (h : Lexeme.tokens env after start ls = .ok ts) :
    InOrder ts ∧ ∀ t ∈ ts, start ≤ t.span.start := by
  induction ls generalizing after start ts with
  | nil =>
    obtain rfl := Except.ok.inj h
    exact ⟨⟨by simp, .nil⟩, by simp⟩
  | cons l ls ih =>
    obtain ⟨hl, hls⟩ := List.forall_mem_cons.1 hls
    have hpos : start < start + utf8Length l.chars := Nat.lt_add_of_pos_right (utf8Length_pos hl)
    obtain ⟨token?, htoken, h⟩ := bind_eq_ok.1 h
    cases token? with
    | none =>
      obtain ⟨horder, hstart⟩ := ih hls h
      exact ⟨horder, fun t ht => Nat.le_trans (Nat.le_of_lt hpos) (hstart t ht)⟩
    | some token =>
      obtain ⟨rest, hrest, h⟩ := bind_eq_ok.1 h
      obtain rfl := pure_eq_ok.1 h
      obtain ⟨horder, hstart⟩ := ih hls hrest
      refine ⟨⟨List.forall_mem_cons.2 ⟨hpos, horder.nonempty⟩,
        List.pairwise_cons.2 ⟨hstart, horder.pairwise⟩⟩, List.forall_mem_cons.2 ⟨Nat.le_refl _, ?_⟩⟩
      exact fun t ht => Nat.le_trans (Nat.le_of_lt hpos) (hstart t ht)

/-- **The tokens of a source are in order.** -/
theorem inOrder_of_tokenize {source : String} {env : Environment} {ts : List (Located Token)}
    (h : tokenize source env = .ok ts) : InOrder ts :=
  (Lexeme.inOrder_tokens (fun _ => Lexeme.ne_nil_of_mem_split) h).1

/-! ## Arrangements -/

/-- A property of all triples in a list is one of all triples in a part of it. -/
theorem triplewise_of_sublist {α : Type} {p : α → α → α → Prop} {xs ys : List α}
    (hxs : xs.Sublist ys) (h : ys.Triplewise p) : xs.Triplewise p := by
  induction hxs with
  | slnil => exact .nil
  | cons y hxs ih => exact ih (List.triplewise_cons.1 h).2
  | cons_cons y hxs ih =>
    obtain ⟨hy, hys⟩ := List.triplewise_cons.1 h
    exact .cons (hy.sublist hxs) (ih hys)

/-- Where nothing that has a property is behind something without it, all that has it is in
front. -/
theorem not_of_mem_dropWhile_of_pairwise {α : Type} {p : α → Bool} {xs : List α}
    (h : xs.Pairwise fun x y => p y → p x) : ∀ x ∈ xs.dropWhile p, ¬ p x := by
  induction h with
  | nil => simp
  | @cons x xs hx hxs ih =>
    by_cases hp : p x
    · rwa [List.dropWhile_cons_of_pos hp]
    · rw [List.dropWhile_cons_of_neg hp]
      exact List.forall_mem_cons.2 ⟨hp, fun y hy hpy => hp (hx y hy hpy)⟩

namespace Postfix

/-- Whether the second entry is written before the first one if it is written before `bound`. -/
abbrev Behind (bound : Nat) (i j : Located Item) : Prop :=
  j.span.start < bound → j.span.start < i.span.start

/-- Whether the first two entries keep to the order that the third one asks for: not the one written
behind it first and the one written before it second. -/
abbrev Sorted (i j k : Located Item) : Prop :=
  ¬ (j.span.start < k.span.start ∧ k.span.start < i.span.start)

/-- What leaves from before `bound` waited. -/
theorem exists_waiting_of_mem_arrangeFrom {opened : List Span} {waiting : List Waiting}
    {ts : List (Located Token)} {out : Postfix} {bound : Nat}
    (h : arrangeFrom opened waiting ts = .ok out) (hts : ∀ t ∈ ts, bound ≤ t.span.start)
    {i : Located Item} (hi : i ∈ out) (hbound : i.span.start < bound) :
    ∃ w ∈ waiting, w.item = i := by
  rcases List.mem_append.1 ((arrangeFrom_perm h).mem_iff.1 hi) with hwaiting | hlater
  · exact List.mem_map.1 hwaiting
  · obtain ⟨t, ht, -, hspan⟩ := mem_ofTokens.1 hlater
    have hle := hts t ht
    rw [hspan] at hle
    omega

/-- What waits leaves the latest first. -/
theorem sorted_of_pairwise {items : Postfix} (bound : Nat)
    (h : items.Pairwise fun i j => j.span.start < i.span.start) :
    items.Pairwise (Behind bound) ∧ items.Triplewise Sorted := by
  refine ⟨h.imp fun {i j} hlt (_ : j.span.start < bound) => hlt, ?_⟩
  induction h with
  | nil => exact .nil
  | cons hi hrest ih =>
    exact .cons (hrest.imp fun hlt hsorted => absurd hsorted.1 (Nat.lt_asymm hlt)) ih

/-- A value leaves at once. -/
theorem sorted_cons {i : Located Item} {rest : Postfix} {bound : Nat}
    (hbound : bound ≤ i.span.start) (hbehind : rest.Pairwise (Behind (i.span.start + 1)))
    (hsorted : rest.Triplewise Sorted) :
    (i :: rest).Pairwise (Behind bound) ∧ (i :: rest).Triplewise Sorted := by
  refine ⟨List.pairwise_cons.2 ⟨fun j _ hj => Nat.lt_of_lt_of_le hj hbound, ?_⟩, .cons ?_ hsorted⟩
  · exact hbehind.imp fun h hj => h (Nat.lt_succ_of_lt (Nat.lt_of_lt_of_le hj hbound))
  · exact hbehind.imp fun h ⟨hjk, hk⟩ => Nat.lt_asymm hjk (h (Nat.lt_succ_of_lt hk))

/-- **Waiting builtins leave the latest first**, and an entry leaves behind those written before it
and then those written behind it. -/
theorem arrangeFrom_sorted {opened : List Span} {waiting : List Waiting}
    {ts : List (Located Token)} {out : Postfix} (bound : Nat)
    (h : arrangeFrom opened waiting ts = .ok out)
    (hwaiting : waiting.Pairwise fun v w => w.span.start < v.span.start)
    (hbefore : ∀ w ∈ waiting, w.span.start < bound) (hbehind : ∀ t ∈ ts, bound ≤ t.span.start)
    (hts : ts.Pairwise fun t u => t.span.start < u.span.start) :
    out.Pairwise (Behind bound) ∧ out.Triplewise Sorted := by
  fun_induction arrangeFrom opened waiting ts generalizing bound out with
  | case1 waiting =>
    obtain rfl := Except.ok.inj h
    exact sorted_of_pairwise bound (List.pairwise_map.2 hwaiting)
  | case2 => cases h
  | case3 opened waiting t ts value hv ih | case4 opened waiting t ts index hv ih =>
    obtain ⟨rest, hrest, rfl⟩ := map_eq_ok.1 h
    obtain ⟨hbound, -⟩ := List.forall_mem_cons.1 hbehind
    obtain ⟨ht, hts⟩ := List.pairwise_cons.1 hts
    have hbefore' : ∀ w ∈ waiting, w.span.start < t.span.start + 1 := fun w hw =>
      Nat.lt_succ_of_lt (Nat.lt_of_lt_of_le (hbefore w hw) hbound)
    obtain ⟨hrest₁, hrest₂⟩ := ih _ hrest hwaiting hbefore' ht hts
    exact sorted_cons hbound hrest₁ hrest₂
  | case5 opened waiting t ts hv ih =>
    exact ih _ h hwaiting hbefore (List.forall_mem_cons.1 hbehind).2 hts.of_cons
  | case6 => cases h
  | case7 waiting t ts hv span outer ih =>
    exact ih _ h hwaiting hbefore (List.forall_mem_cons.1 hbehind).2 hts.of_cons
  | case8 opened waiting t ts b hv leaving staying hrelease ih =>
    obtain ⟨rest, hrest, rfl⟩ := map_eq_ok.1 h
    obtain ⟨hbound, -⟩ := List.forall_mem_cons.1 hbehind
    obtain ⟨ht, hts⟩ := List.pairwise_cons.1 hts
    have hsplit : leaving ++ staying = waiting := by
      have := release_append opened.length b waiting
      rwa [hrelease] at this
    subst hsplit
    obtain ⟨hleaving, hstaying, hapart⟩ := List.pairwise_append.1 hwaiting
    obtain ⟨hleft, hstay⟩ := List.forall_mem_append.1 hbefore
    have hwaits : (⟨opened.length, b, t.span⟩ :: staying : List Waiting).Pairwise
        fun v w => w.span.start < v.span.start :=
      List.pairwise_cons.2 ⟨fun w hw => Nat.lt_of_lt_of_le (hstay w hw) hbound, hstaying⟩
    have hbefore' : ∀ w ∈ (⟨opened.length, b, t.span⟩ :: staying : List Waiting),
        w.span.start < t.span.start + 1 :=
      List.forall_mem_cons.2 ⟨Nat.lt_succ_self _, fun w hw =>
        Nat.lt_succ_of_lt (Nat.lt_of_lt_of_le (hstay w hw) hbound)⟩
    obtain ⟨hrest₁, hrest₂⟩ := ih _ hrest hwaits hbefore' ht hts
    -- of what leaves later, only builtins that stayed are written before the bound
    have hlater : ∀ i ∈ leaving.map Waiting.item, ∀ j ∈ rest, Behind bound i j := by
      intro i hi j hj hjbound
      obtain ⟨v, hv, rfl⟩ := List.mem_map.1 hi
      obtain ⟨w, hw, rfl⟩ := exists_waiting_of_mem_arrangeFrom hrest ht hj
        (Nat.lt_succ_of_lt (Nat.lt_of_lt_of_le hjbound hbound))
      rcases List.mem_cons.1 hw with rfl | hw
      · exact absurd hjbound (Nat.not_lt.2 hbound)
      · exact hapart v hv w hw
    have hitems : (leaving.map Waiting.item).Pairwise fun i j => j.span.start < i.span.start :=
      List.pairwise_map.2 hleaving
    obtain ⟨hleaving₁, hleaving₂⟩ := sorted_of_pairwise bound hitems
    refine ⟨List.pairwise_append.2 ⟨hleaving₁, ?_, hlater⟩,
      List.triplewise_append.2 ⟨hleaving₂, hrest₂, ?_, ?_⟩⟩
    · exact hrest₁.imp fun h hj => h (Nat.lt_succ_of_lt (Nat.lt_of_lt_of_le hj hbound))
    · intro i hi
      obtain ⟨v, hv, rfl⟩ := List.mem_map.1 hi
      have hi : v.span.start < t.span.start := Nat.lt_of_lt_of_le (hleft v hv) hbound
      refine hrest₁.imp fun h => ?_
      rintro ⟨hjk, hk⟩
      exact Nat.lt_asymm hjk (h (Nat.lt_succ_of_lt (Nat.lt_trans hk hi)))
    · intro k hk
      refine hitems.imp_of_mem fun {i j} hi hj hlt => ?_
      rintro ⟨hjk, hki⟩
      obtain ⟨v, hv, rfl⟩ := List.mem_map.1 hi
      exact Nat.lt_asymm hjk (hlater j hj k hk (Nat.lt_trans hki (hleft v hv)))

/-- **An arrangement of tokens in order is sorted.** -/
theorem triplewise_arrange {ts : List (Located Token)} {out : Postfix} (hts : InOrder ts)
    (h : arrange ts = .ok out) : out.Triplewise Sorted :=
  (arrangeFrom_sorted 0 h .nil (by simp) (by simp) hts.pairwise_start).2

/-- No two entries begin at the same place. -/
theorem pairwise_start_ne_of_arrange {ts : List (Located Token)} {out : Postfix} (hts : InOrder ts)
    (h : arrange ts = .ok out) : out.Pairwise fun i j => i.span.start ≠ j.span.start := by
  refine ((arrange_perm h).pairwise_iff fun hne => hne.symm).2 (List.pairwise_filterMap.2 ?_)
  refine hts.pairwise_start.imp fun {t u} hlt i hi j hj => ?_
  obtain ⟨_, -, rfl⟩ := Option.map_eq_some_iff.1 hi
  obtain ⟨_, -, rfl⟩ := Option.map_eq_some_iff.1 hj
  exact Nat.ne_of_lt hlt

/-- **Entries before an entry are first those written before it, and then those written behind
it.** -/
theorem exists_split_of_arrange {ts : List (Located Token)} {out before : Postfix}
    {i : Located Item} (hts : InOrder ts) (h : arrange ts = .ok out)
    (hsub : (before ++ [i]).Sublist out) : ∃ front back, before = front ++ back ∧
      (∀ j ∈ front, j.span.stop ≤ i.span.start) ∧ ∀ j ∈ back, i.span.stop ≤ j.span.start := by
  have hmem : ∀ j ∈ before ++ [i], ∃ t ∈ ts, t.span = j.span := by
    intro j hj
    obtain ⟨t, ht, -, hspan⟩ := exists_token_of_arrange h (hsub.subset hj)
    exact ⟨t, ht, hspan⟩
  obtain ⟨t, ht, hi⟩ := hmem i (by simp)
  have hne : ∀ j ∈ before, j.span.start ≠ i.span.start := fun j hj =>
    (List.pairwise_append.1 ((pairwise_start_ne_of_arrange hts h).sublist hsub)).2.2 j hj i
      (List.mem_singleton_self i)
  have hsorted : before.Pairwise fun j k =>
      decide (k.span.start < i.span.start) → decide (j.span.start < i.span.start) := by
    have htriple := (List.triplewise_append.1
      (triplewise_of_sublist hsub (triplewise_arrange hts h))).2.2.2 i (List.mem_singleton_self i)
    refine htriple.imp_of_mem fun {j k} hj _ hsorted hk => ?_
    have hjne := hne j hj
    simp only [Sorted, decide_eq_true_eq] at hsorted hk ⊢
    omega
  refine ⟨before.takeWhile fun j => j.span.start < i.span.start,
    before.dropWhile fun j => j.span.start < i.span.start,
    List.takeWhile_append_dropWhile.symm, fun j hj => ?_, fun j hj => ?_⟩
  · obtain ⟨u, hu, hspan⟩ := hmem j (List.mem_append_left _ ((List.takeWhile_sublist _).subset hj))
    have hlt : j.span.start < i.span.start := by
      have htrue := List.mem_takeWhile_imp hj
      exact of_decide_eq_true htrue
    rw [← hspan, ← hi] at hlt ⊢
    exact hts.stop_le_of_start_lt hu ht hlt
  · have hjmem := (List.dropWhile_sublist _).subset hj
    obtain ⟨u, hu, hspan⟩ := hmem j (List.mem_append_left _ hjmem)
    have hnot := not_of_mem_dropWhile_of_pairwise hsorted j hj
    have hlt : i.span.start < j.span.start := by
      have hjne := hne j hjmem
      simp only [decide_eq_true_eq] at hnot
      omega
    rw [← hspan, ← hi] at hlt ⊢
    exact hts.stop_le_of_start_lt ht hu hlt

end Postfix

end Flipbook.Expr
