import Flipbook.Proofs.Expr.Arrangement
import Flipbook.Proofs.Expr.Parentheses
import Mathlib.Data.List.Sort

/-!
# Proofs/Expr/Reordering — what an arrangement does to the positions of tokens

Tokens may be alike, and nothing is asked of their places in a source, so an arrangement is
described by the positions of its tokens: it is some order of the positions that hold no
parenthesis.  There is one exactly if the parentheses match (`Postfix.arrange_reorders`).  Whatever
the tokens are, numbers and variables keep their order, and no builtin is put before one of them
that is written before it (`Postfix.Reorders`).
-/

namespace Flipbook.Expr

/-- The positions of the tokens that are no parentheses, in order. -/
def entryPositions (ts : List (Located Token)) : List (Fin ts.length) :=
  (List.finRange ts.length).filter fun k => (ts.get k).item?.isSome

section Positions

variable {ts : List (Located Token)} {j k : Fin ts.length}

theorem mem_entryPositions : k ∈ entryPositions ts ↔ (ts.get k).item?.isSome := by
  simp [entryPositions]

theorem pairwise_entryPositions : (entryPositions ts).Pairwise (· < ·) :=
  (List.pairwise_lt_finRange _).filter _

/-- Positions come one behind the other. -/
theorem sublist_entryPositions (hjk : j < k) (hj : (ts.get j).item?.isSome)
    (hk : (ts.get k).item?.isSome) : [j, k].Sublist (entryPositions ts) := by
  have hsub : [j, k] ⊆ entryPositions ts :=
    List.cons_subset.2 ⟨mem_entryPositions.2 hj, List.cons_subset.2 ⟨mem_entryPositions.2 hk,
      List.nil_subset _⟩⟩
  have hsorted : [j, k].Pairwise (· < ·) := by simp [hjk]
  exact List.sublist_of_subperm_of_sortedLE (List.subperm_of_subset (by simp [hjk.ne]) hsub)
    hsorted.sortedLT.sortedLE pairwise_entryPositions.sortedLT.sortedLE

end Positions

theorem Located.isSome_item?_of_isOperand {t : Located Token} (h : t.value.isOperand) :
    t.item?.isSome := by
  obtain ⟨value, span⟩ := t
  cases value with
  | number _ => rfl
  | «variable» _ => rfl
  | builtin _ => cases h
  | opening | closing => cases h

namespace Postfix

/-- Whether an arrangement has the tokens at some positions as its entries, one for each token that
is no parenthesis, in an order that delays nothing but builtins. -/
structure Reorders (ts : List (Located Token)) (out : Postfix) (order : List (Fin ts.length)) :
    Prop where
  entries : order.map (fun k => (ts.get k).item?) = out.map some
  /-- No token is lost or added but the parentheses. -/
  perm : order.Perm (entryPositions ts)
  /-- Numbers and variables keep their order. -/
  operands : (order.filter fun k => (ts.get k).value.isOperand).Pairwise (· < ·)
  /-- A builtin, between operands or before them, is behind all numbers and variables that are
  written before it. -/
  behind : ∀ j k b, (ts.get j).value.isOperand → (ts.get k).value = .builtin b → j < k →
    [j, k].Sublist order

/-- Every arrangement is a reordering of the positions. -/
theorem exists_reorders {ts : List (Located Token)} {out : Postfix} (h : arrange ts = .ok out) :
    ∃ order, Reorders ts out order := by
  have hnone : ([] : List (Fin ts.length)).map ts.get = ([] : List Waiting).map Waiting.token := rfl
  obtain ⟨order, hdelayed, hentries⟩ := arrangeFrom_delayed h hnone (List.map_get_finRange ts)
  have hoperands : order.filter (fun k => (ts.get k).value.isOperand)
      = (entryPositions ts).filter fun k => (ts.get k).value.isOperand := hdelayed.operands
  refine ⟨order, hentries, hdelayed.perm, ?_, fun j k b hj hk hjk => ?_⟩
  · rw [hoperands]
    exact pairwise_entryPositions.filter _
  · have hbuiltin : (ts.get k).item?.isSome := by rw [Located.item?, hk]; rfl
    exact hdelayed.behind j k hj
      (sublist_entryPositions hjk (Located.isSome_item?_of_isOperand hj) hbuiltin)

/-- **Tokens are arranged exactly if their parentheses match, and no token is lost or added.**  Of
any tokens, numbers and variables keep their order, and every builtin is behind the numbers and
variables that are written before it. -/
theorem arrange_reorders (ts : List (Located Token)) :
    ((∃ out, arrange ts = .ok out) ↔ Balanced (parentheses ts)) ∧
      ∀ out, arrange ts = .ok out → ∃ order, Reorders ts out order :=
  ⟨exists_arrange_eq_ok_iff, fun _ => exists_reorders⟩

/-- The tokens of `match(x, 1) * (x - -x)`, all of them at one place. -/
def productTokens : List (Located Token) :=
  [.builtin .near, .opening, .variable 0, .builtin .comma, .number ⟨0x3f800000⟩, .closing,
    .builtin .times, .opening, .variable 0, .builtin .minus, .builtin .negate, .variable 0,
    .closing].map (⟨·, default⟩)

/-- The separator and the function leave before the product begins to wait. -/
theorem arrange_reorders_product :
    ∃ out, arrange productTokens = .ok out ∧ (∃ order, Reorders productTokens out order) ∧
      out.map Located.value = [.variable 0, .literal ⟨0x3f800000⟩, .apply .comma, .apply .near,
        .variable 0, .variable 0, .apply .negate, .apply .minus, .apply .times] := by
  obtain ⟨out, hout⟩ : ∃ out, arrange productTokens = .ok out := ⟨_, rfl⟩
  refine ⟨out, hout, (arrange_reorders productTokens).2 out hout, ?_⟩
  obtain rfl := Except.ok.inj (hout.symm.trans rfl)
  rfl

end Postfix

end Flipbook.Expr
