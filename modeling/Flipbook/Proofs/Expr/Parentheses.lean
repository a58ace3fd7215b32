import Flipbook.Expr.Postfix
import Flipbook.Proofs.Steps

/-!
# Proofs/Expr/Parentheses — which parenthesis does not match

Parentheses match where none is closed that is not open, and none is left open (`Balanced`).  While
tokens are arranged, the ones that are still open are known by their places, each with balanced
tokens behind it (`LeavesOpen`).  So tokens are arranged exactly if their parentheses match
(`Postfix.exists_arrange_eq_ok_iff`), and an arrangement fails at the first closing parenthesis that
closes nothing, or else at the last opening one that is never closed
(`Postfix.mismatch_of_arrange`).
-/

namespace Flipbook.Expr

/-- One of the two parentheses. -/
inductive Parenthesis where
  | opening
  | closing
deriving DecidableEq, Repr

/-- The parenthesis that a token is. -/
def Token.parenthesis? : Token → Option Parenthesis
  | .opening => some .opening
  | .closing => some .closing
  | _ => none

/-- The parentheses among some tokens, in order. -/
def parentheses (ts : List (Located Token)) : List Parenthesis :=
  ts.filterMap fun t => t.value.parenthesis?

/-- Whether no parenthesis is closed that is not open. -/
def Nested (ps : List Parenthesis) : Prop :=
  ∀ front back, ps = front ++ back → front.count .closing ≤ front.count .opening

/-- Whether every parenthesis is closed behind where it is opened. -/
structure Balanced (ps : List Parenthesis) : Prop where
  nested : Nested ps
  equal : ps.count .closing = ps.count .opening

section Counting

variable {ps qs : List Parenthesis}

theorem Nested.append (h : Nested ps) (h' : Nested qs) : Nested (ps ++ qs) := by
  intro front back hsplit
  rcases List.append_eq_append_iff.1 hsplit with ⟨mid, rfl, hqs⟩ | ⟨mid, hps, -⟩
  · have hbefore := h ps [] (List.append_nil ps).symm
    have hbehind := h' mid back hqs
    rw [List.count_append, List.count_append]
    omega
  · exact h front mid hps

theorem balanced_nil : Balanced [] := by
  refine ⟨fun front back hsplit => ?_, rfl⟩
  obtain ⟨rfl, -⟩ := List.append_eq_nil_iff.1 hsplit.symm
  exact Nat.le_refl _

theorem nested_opening : Nested [.opening] := by
  intro front back hsplit
  have hnone : front.count .closing + back.count .closing = 0 := by
    rw [← List.count_append, ← hsplit]
    rfl
  omega

theorem Balanced.append (h : Balanced ps) (h' : Balanced qs) : Balanced (ps ++ qs) :=
  ⟨h.nested.append h'.nested, by rw [List.count_append, List.count_append, h.equal, h'.equal]⟩

/-- What is balanced is so inside parentheses. -/
theorem Balanced.parenthesized (h : Balanced ps) : Balanced (.opening :: (ps ++ [.closing])) := by
  have hnest : Nested (.opening :: ps) := nested_opening.append h.nested
  have hequal : (.opening :: (ps ++ [.closing])).count Parenthesis.closing
      = (.opening :: (ps ++ [.closing])).count .opening := by
    simp [h.equal]
  refine ⟨fun front back hsplit => ?_, hequal⟩
  -- behind the last parenthesis the counts are equal; before it nothing is closed too early
  rcases List.eq_nil_or_concat' back with rfl | ⟨back, last, rfl⟩
  · rw [List.append_nil] at hsplit
    exact Nat.le_of_eq (hsplit ▸ hequal)
  · have hfront : (.opening :: ps) ++ [.closing] = (front ++ back) ++ [last] := by
      rw [List.append_assoc front]
      exact hsplit
    exact hnest front back (List.append_inj' hfront rfl).1

end Counting

/-! ## Parentheses of tokens -/

section Tokens

variable {t : Located Token}

@[simp] theorem parentheses_nil : parentheses [] = [] := rfl

@[simp] theorem parentheses_append (ts us : List (Located Token)) :
    parentheses (ts ++ us) = parentheses ts ++ parentheses us := List.filterMap_append

@[simp] theorem parentheses_cons (t : Located Token) (ts : List (Located Token)) :
    parentheses (t :: ts) = t.value.parenthesis?.toList ++ parentheses ts := by
  rw [parentheses, List.filterMap_cons]
  cases t.value.parenthesis? <;> rfl

end Tokens

/-- Whether the parentheses that some tokens leave open are those at the given places, the innermost
first. -/
def LeavesOpen : List (Located Token) → List Span → Prop
  | ts, [] => Balanced (parentheses ts)
  | ts, span :: outer => ∃ front t back, ts = front ++ t :: back ∧ t.value = .opening ∧
      t.span = span ∧ Balanced (parentheses back) ∧ LeavesOpen front outer

namespace LeavesOpen

variable {t : Located Token} {ts us : List (Located Token)} {opened : List Span} {span : Span}

/-- Balanced tokens leave nothing open. -/
theorem append (h : LeavesOpen ts opened) (hus : Balanced (parentheses us)) :
    LeavesOpen (ts ++ us) opened := by
  cases opened with
  | nil =>
    rw [LeavesOpen, parentheses_append]
    exact Balanced.append h hus
  | cons span outer =>
    obtain ⟨front, t, back, rfl, ht, hspan, hback, hfront⟩ := h
    refine ⟨front, t, back ++ us, by simp, ht, hspan, ?_, hfront⟩
    rw [parentheses_append]
    exact hback.append hus

/-- A token that is no parenthesis changes nothing. -/
theorem concat (h : LeavesOpen ts opened) (ht : t.value.parenthesis? = none) :
    LeavesOpen (ts ++ [t]) opened := by
  refine h.append ?_
  rw [parentheses_cons, ht]
  exact balanced_nil

/-- A parenthesis is opened. -/
theorem opening (h : LeavesOpen ts opened) (ht : t.value = .opening) :
    LeavesOpen (ts ++ [t]) (t.span :: opened) :=
  ⟨ts, t, [], rfl, ht, rfl, balanced_nil, h⟩

/-- The innermost parenthesis is closed. -/
theorem closing (h : LeavesOpen ts (span :: opened)) (ht : t.value = .closing) :
    LeavesOpen (ts ++ [t]) opened := by
  obtain ⟨front, u, back, rfl, hu, -, hback, hfront⟩ := h
  have hsplit : front ++ u :: back ++ [t] = front ++ u :: (back ++ [t]) := by simp
  have hinner : parentheses (u :: (back ++ [t]))
      = .opening :: (parentheses back ++ [.closing]) := by
    simp [hu, ht, Token.parenthesis?]
  rw [hsplit]
  refine hfront.append ?_
  rw [hinner]
  exact hback.parenthesized

theorem nested (h : LeavesOpen ts opened) : Nested (parentheses ts) := by
  induction opened generalizing ts with
  | nil => exact Balanced.nested h
  | cons span outer ih =>
    obtain ⟨front, t, back, rfl, ht, -, hback, hfront⟩ := h
    rw [parentheses_append, parentheses_cons, ht]
    exact (ih hfront).append (nested_opening.append hback.nested)

end LeavesOpen

/-! ## What an arrangement says about parentheses -/

/-- Whether a token is the first closing parenthesis that closes nothing. -/
def FirstUnopened (ts : List (Located Token)) (t : Located Token) : Prop :=
  ∃ front back, ts = front ++ t :: back ∧ t.value = .closing ∧ Balanced (parentheses front)

/-- Whether every closing parenthesis closes one, and a token is the last opening one that is never
closed. -/
def LastUnclosed (ts : List (Located Token)) (t : Located Token) : Prop :=
  Nested (parentheses ts) ∧
    ∃ front back, ts = front ++ t :: back ∧ t.value = .opening ∧ Balanced (parentheses back)

section Mismatches

variable {ts : List (Located Token)} {t : Located Token}

/-- A closing parenthesis that closes nothing is one too many. -/
theorem FirstUnopened.not_balanced (h : FirstUnopened ts t) : ¬ Balanced (parentheses ts) := by
  obtain ⟨front, back, rfl, ht, hfront⟩ := h
  intro hbalanced
  have hsplit : parentheses (front ++ t :: back)
      = (parentheses front ++ [.closing]) ++ parentheses back := by
    simp [ht, Token.parenthesis?]
  have hle : (parentheses front).count .closing + 1 ≤ (parentheses front).count .opening := by
    simpa using hbalanced.nested _ _ hsplit
  have hequal := hfront.equal
  omega

/-- An opening parenthesis that is never closed leaves one too few in front of it. -/
theorem LastUnclosed.not_balanced (h : LastUnclosed ts t) : ¬ Balanced (parentheses ts) := by
  obtain ⟨hnested, front, back, rfl, ht, hback⟩ := h
  intro hbalanced
  have hsplit : parentheses (front ++ t :: back)
      = parentheses front ++ .opening :: parentheses back := by
    simp [ht, Token.parenthesis?]
  have hle := hnested _ _ hsplit
  have htotal : (parentheses front).count .closing + (parentheses back).count .closing
      = (parentheses front).count .opening + ((parentheses back).count .opening + 1) := by
    simpa [hsplit] using hbalanced.equal
  have hequal := hback.equal
  omega

end Mismatches

namespace Postfix

/-- Whether an arrangement of some tokens succeeds because their parentheses match, or fails at the
first closing parenthesis that closes nothing, or else at the last opening one that is never
closed. -/
def Judges (ts : List (Located Token)) : Except Fault Postfix → Prop
  | .ok _ => Balanced (parentheses ts)
  | .error f => ∃ t, f = .unbalancedParenthesis t.span ∧ (FirstUnopened ts t ∨ LastUnclosed ts t)

theorem Judges.map {ts : List (Located Token)} {outcome : Except Fault Postfix}
    (h : Judges ts outcome) (f : Postfix → Postfix) : Judges ts (f <$> outcome) := by
  cases outcome <;> exact h

theorem judges_arrangeFrom {front ts : List (Located Token)} {opened : List Span}
    {waiting : List Waiting} (hfront : LeavesOpen front opened) :
    Judges (front ++ ts) (arrangeFrom opened waiting ts) := by
  -- the tokens that are done are balanced up to the parentheses that are open
  fun_induction arrangeFrom opened waiting ts generalizing front with
  | case1 waiting =>
    rw [List.append_nil]
    exact hfront
  | case2 span outer waiting =>
    rw [List.append_nil]
    obtain ⟨before, t, back, rfl, ht, rfl, hback, -⟩ := id hfront
    exact ⟨t, rfl, .inr ⟨hfront.nested, before, back, rfl, ht, hback⟩⟩
  | case3 opened waiting t ts value hv ih | case4 opened waiting t ts index hv ih =>
    have hrest := ih (hfront.concat (t := t) (by rw [hv]; rfl))
    rw [List.append_assoc] at hrest
    exact hrest.map _
  | case5 opened waiting t ts hv ih =>
    have hrest := ih (hfront.opening hv)
    rwa [List.append_assoc] at hrest
  | case6 waiting t ts hv => exact ⟨t, rfl, .inl ⟨front, ts, rfl, hv, hfront⟩⟩
  | case7 waiting t ts hv span outer ih =>
    have hrest := ih (hfront.closing hv)
    rwa [List.append_assoc] at hrest
  | case8 opened waiting t ts b hv leaving staying hrelease ih =>
    have hrest := ih (hfront.concat (t := t) (by rw [hv]; rfl))
    rw [List.append_assoc] at hrest
    exact hrest.map _

/-- An arrangement judges the parentheses of all its tokens. -/
theorem judges_arrange (ts : List (Located Token)) : Judges ts (arrange ts) :=
  judges_arrangeFrom (show LeavesOpen [] [] from balanced_nil)

/-- **An arrangement fails at the first closing parenthesis that closes nothing, or else at the last
opening one that is never closed.** -/
theorem mismatch_of_arrange {ts : List (Located Token)} {f : Fault} (h : arrange ts = .error f) :
    ∃ t, f = .unbalancedParenthesis t.span ∧ (FirstUnopened ts t ∨ LastUnclosed ts t) := by
  have hjudges := judges_arrange ts
  rwa [h] at hjudges

/-- **Tokens are arranged exactly if their parentheses match.** -/
theorem exists_arrange_eq_ok_iff {ts : List (Located Token)} :
    (∃ out, arrange ts = .ok out) ↔ Balanced (parentheses ts) := by
  have hjudges := judges_arrange ts
  cases h : arrange ts with
  | ok out =>
    rw [h] at hjudges
    exact iff_of_true ⟨out, rfl⟩ hjudges
  | error f =>
    obtain ⟨t, -, hmismatch⟩ := mismatch_of_arrange h
    exact iff_of_false nofun (hmismatch.elim FirstUnopened.not_balanced LastUnclosed.not_balanced)

end Postfix

end Flipbook.Expr
