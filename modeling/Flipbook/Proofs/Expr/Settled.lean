import Flipbook.Proofs.Expr.Pieces

/-!
# Proofs/Expr/Settled — a piece is told by nothing behind it

Where a piece ends is decided by the first character behind it, and the end of the text decides the
same.  So a text that is cut at the end of a piece has the same pieces up to there
(`split_flatMap_of_append`).
-/

namespace Flipbook.Expr.Lexeme

/-! ## Characters in front -/

/-- Whether what is taken off the front of a text is settled where it ends: text that begins with it
has the same taken off, whatever comes behind. -/
def Settled (take : List Char → List Char) : Prop :=
  ∀ a b, take (a ++ b) <+: a → take a = take (a ++ b)

theorem settled_takeWhile (p : Char → Bool) : Settled (List.takeWhile p) := by
  intro a b h
  induction a with
  | nil => exact (List.prefix_nil.1 h).symm
  | cons x a ih =>
    by_cases hp : p x
    · rw [List.cons_append, List.takeWhile_cons_of_pos hp] at h ⊢
      rw [List.takeWhile_cons_of_pos hp, ih (List.cons_prefix_cons.1 h).2]
    · rw [List.cons_append, List.takeWhile_cons_of_neg hp, List.takeWhile_cons_of_neg hp]

/-- What stands behind the part that was taken off. -/
theorem dropWhile_append_of_settled {p : Char → Bool} {a b : List Char}
    (h : (a ++ b).takeWhile p <+: a) : (a ++ b).dropWhile p = a.dropWhile p ++ b := by
  have hsplit : (a ++ b).takeWhile p ++ (a ++ b).dropWhile p = a ++ b :=
    List.takeWhile_append_dropWhile
  rw [← settled_takeWhile p a b h] at hsplit
  conv at hsplit => rhs; rw [← @List.takeWhile_append_dropWhile _ p a, List.append_assoc]
  exact List.append_cancel_left hsplit

/-- A sign with the digits behind it is settled where it ends. -/
theorem settled_signedDigits :
    Settled fun cs => (splitSign cs).1 ++ (splitSign cs).2.takeWhile Char.isDigit := by
  intro a b h
  cases a with
  | nil => exact (List.prefix_nil.1 h).symm
  | cons x a =>
    simp only [List.cons_append, splitSign] at h ⊢
    split at h
    · rename_i hsign
      simp only [if_pos hsign, List.singleton_append, List.cons_prefix_cons, true_and] at h ⊢
      rw [settled_takeWhile _ a b h]
    · rename_i hsign
      simp only [if_neg hsign, List.nil_append] at h ⊢
      exact settled_takeWhile _ (x :: a) b h

theorem settled_splitExponent : Settled fun cs => (splitExponent cs).1 := by
  intro a b h
  cases a with
  | nil => exact (List.prefix_nil.1 h).symm
  | cons x a =>
    simp only [List.cons_append, splitExponent] at h ⊢
    split at h
    · rename_i hmark
      simp only [if_pos hmark, List.cons_prefix_cons, true_and] at h ⊢
      exact congrArg (x :: ·) (settled_signedDigits a b h)
    · rename_i hmark
      simp only [if_neg hmark]

theorem settled_splitNumber : Settled fun cs => (splitNumber cs).1 := by
  intro a b h
  simp only [splitNumber] at h ⊢
  have htake : (a ++ b).takeWhile isMantissa <+: a := (List.prefix_append _ _).trans h
  rw [dropWhile_append_of_settled htake, ← settled_takeWhile _ a b htake] at h ⊢
  conv at h => rhs; rw [← @List.takeWhile_append_dropWhile _ isMantissa a]
  exact congrArg (_ ++ ·) (settled_splitExponent _ b ((List.prefix_append_right_inj _).1 h))

/-! ## Pieces -/

/-- Whether a number begins is settled where it ends. -/
theorem startsNumber_settled {c : Char} {a b : List Char}
    (h : startsNumber c (a ++ b) → (splitNumber (a ++ b)).1 <+: a) :
    startsNumber c a = startsNumber c (a ++ b) := by
  cases a with
  | cons x a => rfl
  | nil =>
    -- a point in front of a digit is not the end of a number
    have hpoint : startsNumber c b → b.head?.any Char.isDigit = false := by
      intro hstarts
      have hnil := List.prefix_nil.1 (h hstarts)
      cases b with
      | nil => rfl
      | cons y b =>
        rw [List.head?_cons, Option.any_some, Bool.eq_false_iff]
        intro hdigit
        have hmantissa : isMantissa y := by rw [isMantissa, hdigit, Bool.true_or]
        simp [splitNumber, List.takeWhile_cons_of_pos hmantissa] at hnil
    rw [List.nil_append, Bool.eq_iff_iff]
    constructor
    · intro hstarts
      have hdigit : c.isDigit := by simpa [startsNumber] using hstarts
      rw [startsNumber, hdigit, Bool.true_or]
    · intro hstarts
      have hdigit : c.isDigit := by simpa [startsNumber, hpoint hstarts] using hstarts
      rw [startsNumber, hdigit, Bool.true_or]

/-- A piece is settled where it ends. -/
theorem next_settled {c : Char} {a b : List Char} (h : (next c (a ++ b)).1.chars <+: c :: a) :
    (next c a).1 = (next c (a ++ b)).1 := by
  by_cases hblank : isBlank c
  · rw [next, if_pos hblank, next, if_pos hblank]
  have hnumber := startsNumber_settled (c := c) (a := a) (b := b) fun hstarts => by
    rw [next, if_neg hblank, if_pos hstarts] at h
    exact (List.cons_prefix_cons.1 h).2
  simp only [next, if_neg hblank, hnumber] at h ⊢
  split at h
  · rename_i hstarts
    rw [if_pos hstarts, if_pos hstarts]
    exact congrArg (fun tail => Lexeme.mk .number (c :: tail))
      (settled_splitNumber a b (List.cons_prefix_cons.1 h).2)
  rename_i hstarts
  rw [if_neg hstarts, if_neg hstarts]
  split at h
  · rename_i hname
    rw [if_pos hname, if_pos hname]
    exact congrArg (fun tail => Lexeme.mk .name (c :: tail))
      (settled_takeWhile _ a b (List.cons_prefix_cons.1 h).2)
  rename_i hname
  rw [if_neg hname, if_neg hname]
  split
  · rfl
  split <;> rfl

/-- **The pieces in front of a piece are the pieces of the text in front of it.** -/
theorem split_flatMap_of_append {cs : List Char} {front back : List Lexeme}
    (h : split cs = front ++ back) : split (front.flatMap Lexeme.chars) = front := by
  induction front generalizing cs with
  | nil => rw [List.flatMap_nil, split]
  | cons l front ih =>
    cases cs with
    | nil => rw [split] at h; cases h
    | cons c cs =>
      rw [split, List.cons_append] at h
      obtain ⟨rfl, hrest⟩ := List.cons.inj h
      obtain ⟨tail, htail⟩ := List.head?_eq_some_iff.1 (head?_next c cs)
      have hbehind : (next c cs).2 = front.flatMap Lexeme.chars ++ back.flatMap Lexeme.chars := by
        rw [← flatten_split (next c cs).2, hrest, List.map_append, List.flatten_append,
          List.flatMap_def, List.flatMap_def]
      have hcs : (tail ++ front.flatMap Lexeme.chars) ++ back.flatMap Lexeme.chars = cs := by
        have happend := next_append c cs
        rw [htail, hbehind, List.cons_append, ← List.append_assoc] at happend
        exact (List.cons.inj happend).2
      have hnext : (next c (tail ++ front.flatMap Lexeme.chars)).1 = (next c cs).1 := by
        rw [← hcs]
        refine next_settled ?_
        rw [hcs, htail, ← List.cons_append]
        exact List.prefix_append _ _
      have hrest' : (next c (tail ++ front.flatMap Lexeme.chars)).2 =
          front.flatMap Lexeme.chars := by
        have happend := next_append c (tail ++ front.flatMap Lexeme.chars)
        rw [hnext, htail, ← List.cons_append] at happend
        exact List.append_cancel_left happend
      rw [List.flatMap_cons, htail, List.cons_append, split, hnext, hrest', ih hrest]

end Flipbook.Expr.Lexeme
