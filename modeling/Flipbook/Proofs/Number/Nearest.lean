import Flipbook.Proofs.Number.Order
import Flipbook.Number.Shortest
import Mathlib.Tactic.Linarith
import Mathlib.Tactic.Ring

/-!
# Proofs/Number/Nearest — shortest decimals read back

A ratio inside the rounding interval of a value rounds to that value
(`Single.roundUnits_of_contains`); the one case where its leading bit is another one is below a
power of two.  The search for the shortest decimal only takes multiples inside this interval, and
finds one at the latest where they are as dense as single-precision values.  So the nearest value to
the shortest decimal of a value is the value itself (`Single.round_shortest`).
-/

namespace Flipbook

/-- A ratio at most a half away from a whole number rounds to it, if less than a half or if the
number is even. -/
theorem nearestQuotient_eq {num den n : Nat} (hden : 0 < den)
    (hlow : 2 * n * den ≤ 2 * num + den) (hhigh : 2 * num ≤ (2 * n + 1) * den)
    (htie : n % 2 = 1 → 2 * n * den < 2 * num + den ∧ 2 * num < (2 * n + 1) * den) :
    nearestQuotient num den = n := by
  have hsplit := Nat.div_add_mod num den
  have hmod := Nat.mod_lt num hden
  unfold nearestQuotient
  dsimp only
  generalize num / den = q at *
  generalize num % den = r at *
  subst hsplit
  -- the quotient is the number itself, or the one before it
  have hq : q < n + 1 := by
    by_contra hge
    have hmul := Nat.mul_le_mul_left den (Nat.not_lt.1 hge)
    nlinarith
  have hq' : n < q + 2 := by
    by_contra hge
    have hmul := Nat.mul_le_mul_left den (Nat.not_lt.1 hge)
    nlinarith
  obtain rfl | rfl : q = n ∨ n = q + 1 := by omega
  · have hr : 2 * r ≤ den := by nlinarith
    have hr' : q % 2 = 1 → 2 * r < den := fun h => by nlinarith [(htie h).2]
    rw [if_pos (by omega)]
  · have hr : den ≤ 2 * r := by nlinarith
    have hr' : (q + 1) % 2 = 1 → den < 2 * r := fun h => by nlinarith [(htie h).1]
    rw [if_neg (by omega)]

namespace BinaryFormat

variable (f : BinaryFormat) {p num den : Nat}

/-- The leading bit of a ratio. -/
theorem log2_div_eq {k : Nat} (hden : 0 < den) (hlow : pow2 k * den ≤ num)
    (hhigh : num < pow2 (k + 1) * den) : (num / den).log2 = k := by
  have hle : pow2 k ≤ num / den := (Nat.le_div_iff_mul_le hden).2 hlow
  have hne : num / den ≠ 0 := Nat.ne_of_gt (Nat.lt_of_lt_of_le (pow2_pos k) hle)
  exact (Nat.log2_eq_iff hne).2 ⟨hle, (Nat.div_lt_iff_lt_mul hden).2 hhigh⟩

/-- A ratio that has the shift of a pattern and is at most half a step away rounds to the
pattern. -/
theorem roundUnits_of_shift (hden : 0 < den) (hp : p ≤ f.infinity)
    (hshift : (num / den).log2 - f.fractionBits = f.shift p)
    (hlow : 2 * f.significand p * (den * pow2 (f.shift p)) ≤ 2 * num + den * pow2 (f.shift p))
    (hhigh : 2 * num ≤ (2 * f.significand p + 1) * (den * pow2 (f.shift p)))
    (htie : f.significand p % 2 = 1 →
      2 * f.significand p * (den * pow2 (f.shift p)) < 2 * num + den * pow2 (f.shift p) ∧
      2 * num < (2 * f.significand p + 1) * (den * pow2 (f.shift p))) :
    f.roundUnits num den = p := by
  rw [roundUnits, hshift, nearestQuotient_eq (Nat.mul_pos hden (pow2_pos _)) hlow hhigh htie,
    f.shift_mul_add_significand, Nat.min_eq_right hp]

/-- A ratio below the least shifted one is not shifted. -/
theorem log2_div_le {k : Nat} (hhigh : num < pow2 (k + 1) * den) (hden : 0 < den) :
    (num / den).log2 ≤ k := by
  rcases Nat.eq_zero_or_pos (num / den) with hzero | hpos
  · rw [hzero, Nat.log2_zero]
    exact Nat.zero_le k
  · exact Nat.le_of_lt_succ
      ((Nat.log2_lt (Nat.ne_of_gt hpos)).2 ((Nat.div_lt_iff_lt_mul hden).2 hhigh))

end BinaryFormat

namespace Single

/-! ## The rounding interval -/

/-- Whether a ratio of units is inside an interval. -/
def Interval.Contains (i : Interval) (num den : Nat) : Prop :=
  if i.closed then i.low * den ≤ 4 * num ∧ 4 * num ≤ i.high * den
  else i.low * den < 4 * num ∧ 4 * num < i.high * den

section Contains

variable {x : Single} {num den : Nat}

/-- The lower part of the interval of a value is a quarter of a step wide where the significand is a
power of two and can be one bit shorter, and half a step elsewhere. -/
def lowerWidth (x : Single) : Nat :=
  let f := BinaryFormat.single
  if f.significand x.pattern = pow2 f.fractionBits ∧ 0 < f.shift x.pattern
  then pow2 (f.shift x.pattern) else 2 * pow2 (f.shift x.pattern)

/-- What the ends of the interval say about a ratio inside. -/
theorem bounds_of_contains (h : x.interval.Contains num den) :
    (4 * x.units * den ≤ 4 * num + x.lowerWidth * den ∧
      4 * num ≤ 4 * x.units * den + 2 * pow2 (BinaryFormat.single.shift x.pattern) * den) ∧
    (x.pattern % 2 = 1 → 4 * x.units * den < 4 * num + x.lowerWidth * den ∧
      4 * num < 4 * x.units * den + 2 * pow2 (BinaryFormat.single.shift x.pattern) * den) := by
  have hend : 4 * x.units ≤ x.interval.low + x.lowerWidth := by
    show 4 * x.units ≤ 4 * x.units - x.lowerWidth + x.lowerWidth
    omega
  have hlow : 4 * x.units * den ≤ x.interval.low * den + x.lowerWidth * den := by
    rw [← Nat.add_mul]
    exact Nat.mul_le_mul_right den hend
  have hhigh : x.interval.high * den
      = 4 * x.units * den + 2 * pow2 (BinaryFormat.single.shift x.pattern) * den := by
    rw [← Nat.add_mul]
    rfl
  rw [← hhigh]
  have hclosed : x.interval.closed = decide (x.pattern % 2 = 0) := rfl
  unfold Interval.Contains at h
  rw [hclosed] at h
  split at h
  · rename_i heven
    exact ⟨⟨by omega, h.2⟩, fun hodd => by simp_all⟩
  · exact ⟨⟨by omega, by omega⟩, fun _ => ⟨by omega, h.2⟩⟩

theorem lowerWidth_le (x : Single) :
    x.lowerWidth ≤ 2 * pow2 (BinaryFormat.single.shift x.pattern) := by
  unfold lowerWidth
  dsimp only
  split <;> omega

/-- The shift and the significand of a value. -/
theorem units_eq (x : Single) : x.units = BinaryFormat.single.significand x.pattern
    * pow2 (BinaryFormat.single.shift x.pattern) := rfl

/-- What is inside has no higher leading bit than the value can have. -/
theorem lt_of_contains (hden : 0 < den) (h : x.interval.Contains num den) :
    num < pow2 (BinaryFormat.single.fractionBits + BinaryFormat.single.shift x.pattern + 1)
      * den := by
  obtain ⟨⟨-, hhigh⟩, -⟩ := bounds_of_contains h
  have hlt := BinaryFormat.single.significand_lt x.pattern
  have hstep := Nat.mul_pos hden (pow2_pos (BinaryFormat.single.shift x.pattern))
  rw [units_eq] at hhigh
  rw [← two_mul_pow2_mul_pow2]
  nlinarith

/-- What is inside and has the leading bit of the value, or a value that is not shifted. -/
theorem roundUnits_of_lead (hx : x.isFinite) (hden : 0 < den) (h : x.interval.Contains num den)
    (hlead : BinaryFormat.single.shift x.pattern = 0 ∨
      pow2 (BinaryFormat.single.fractionBits + BinaryFormat.single.shift x.pattern) * den ≤ num) :
    BinaryFormat.single.roundUnits num den = x.pattern := by
  obtain ⟨⟨hlow, hhigh⟩, hstrict⟩ := bounds_of_contains h
  have hbelow := lt_of_contains hden h
  have hwidth := Nat.mul_le_mul_right den x.lowerWidth_le
  have hsplit := BinaryFormat.single.shift_mul_add_significand x.pattern
  have hshift : (num / den).log2 - BinaryFormat.single.fractionBits
      = BinaryFormat.single.shift x.pattern := by
    rcases hlead with hzero | hlead
    · rw [hzero] at hbelow ⊢
      have hle := BinaryFormat.log2_div_le hbelow hden
      omega
    · rw [BinaryFormat.log2_div_eq hden hlead hbelow]
      omega
  rw [units_eq] at hlow hhigh hstrict
  refine BinaryFormat.single.roundUnits_of_shift hden (Nat.le_of_lt (of_decide_eq_true hx)) hshift
    (by linarith) (by linarith) fun hodd => ?_
  -- the shift takes no part in whether the pattern is even
  have heven : pow2 BinaryFormat.single.fractionBits = 2 * pow2 22 := Nat.pow_succ'
  rw [heven, Nat.mul_left_comm] at hsplit
  obtain ⟨hlow, hhigh⟩ := hstrict (by omega)
  exact ⟨by linarith, by linarith⟩

/-- What is inside with a lower leading bit is next to a power of two. -/
theorem roundUnits_of_not_lead (hx : x.isFinite) (hden : 0 < den)
    (h : x.interval.Contains num den) (hshift : 0 < BinaryFormat.single.shift x.pattern)
    (hlead : num
      < pow2 (BinaryFormat.single.fractionBits + BinaryFormat.single.shift x.pattern) * den) :
    BinaryFormat.single.roundUnits num den = x.pattern := by
  obtain ⟨⟨hlow, -⟩, -⟩ := bounds_of_contains h
  have hwidth := Nat.mul_le_mul_right den x.lowerWidth_le
  have hfinite : x.pattern < BinaryFormat.single.infinity := of_decide_eq_true hx
  have hsplit := BinaryFormat.single.shift_mul_add_significand x.pattern
  have hleading := BinaryFormat.single.le_significand hshift
  have hpos := pow2_pos BinaryFormat.single.fractionBits
  rw [units_eq] at hlow
  rw [pow2_add] at hlead
  have hm : BinaryFormat.single.significand x.pattern = pow2 BinaryFormat.single.fractionBits := by
    by_contra hne
    have hlt : pow2 BinaryFormat.single.fractionBits + 1
        ≤ BinaryFormat.single.significand x.pattern := by omega
    have hmul := Nat.mul_le_mul_right
      (den * pow2 (BinaryFormat.single.shift x.pattern)) hlt
    have hstep := Nat.mul_pos hden (pow2_pos (BinaryFormat.single.shift x.pattern))
    linarith
  have hnarrow : x.lowerWidth = pow2 (BinaryFormat.single.shift x.pattern) := if_pos ⟨hm, hshift⟩
  obtain ⟨s, hs⟩ := Nat.exists_eq_succ_of_ne_zero (Nat.ne_of_gt hshift)
  have hdouble : pow2 (s + 1) = 2 * pow2 s := Nat.pow_succ'
  rw [hnarrow, hm, hs, hdouble] at hlow
  rw [hs, hdouble] at hlead
  rw [hm, hs, Nat.succ_mul] at hsplit
  have hone := Nat.mul_le_mul_right (pow2 s * den) hpos
  have hlog : (num / den).log2 = BinaryFormat.single.fractionBits + s := by
    refine BinaryFormat.log2_div_eq hden ?_ ?_
    · rw [pow2_add]
      linarith
    · rw [Nat.add_assoc, pow2_add, hdouble]
      exact hlead
  -- one step below, where steps are half as wide, the pattern before is odd
  have hround : nearestQuotient num (den * pow2 s)
      = 2 * pow2 BinaryFormat.single.fractionBits := by
    refine nearestQuotient_eq (Nat.mul_pos hden (pow2_pos s)) (by linarith) (by linarith) ?_
    intro hodd
    rw [Nat.mul_mod_right] at hodd
    cases hodd
  rw [BinaryFormat.roundUnits, hlog]
  simp only [Nat.add_sub_cancel_left, hround]
  rw [Nat.two_mul, ← Nat.add_assoc, hsplit, Nat.min_eq_right (Nat.le_of_lt hfinite)]

/-- **What is inside the rounding interval of a value rounds to the value.** -/
theorem roundUnits_of_contains (hx : x.isFinite) (hden : 0 < den)
    (h : x.interval.Contains num den) : BinaryFormat.single.roundUnits num den = x.pattern := by
  by_cases hlead : BinaryFormat.single.shift x.pattern = 0 ∨
      pow2 (BinaryFormat.single.fractionBits + BinaryFormat.single.shift x.pattern) * den ≤ num
  · exact roundUnits_of_lead hx hden h hlead
  · rw [not_or, Nat.not_le] at hlead
    exact roundUnits_of_not_lead hx hden h (Nat.pos_of_ne_zero hlead.1) hlead.2

end Contains

/-! ## The search -/

section Search

variable {x : Single} {i : Interval} {tie : TieBreak} {n : Nat} {e : Int}

/-- A multiple of a power of ten, as the numerator of a ratio of units. -/
def multipleUnits (n : Nat) (e : Int) : Nat :=
  n * pow10 e.toNat * pow2 BinaryFormat.single.unitExponent

theorem four_mul_multipleUnits (n : Nat) (e : Int) : 4 * multipleUnits n e
    = n * (4 * pow2 BinaryFormat.single.unitExponent * pow10 e.toNat) := by
  rw [multipleUnits]
  ring

/-- Only multiples inside the interval are taken. -/
theorem Interval.contains_of_multiple? (h : i.multiple? tie e = some n) :
    i.Contains (multipleUnits n e) (pow10 (-e).toNat) := by
  rw [Contains, four_mul_multipleUnits]
  unfold multiple? at h
  cases hclosed : i.closed <;> simp only [hclosed, Bool.false_eq_true, if_false, if_true] at h ⊢
  all_goals
    split at h
    case h_1 hbelow habove =>
      obtain rfl := Option.some.inj h
      split
      · exact of_decide_eq_true habove
      · exact of_decide_eq_true hbelow
    case h_2 hbelow habove =>
      obtain rfl := Option.some.inj h
      exact of_decide_eq_true hbelow
    case h_3 hbelow habove =>
      obtain rfl := Option.some.inj h
      exact of_decide_eq_true habove
    case h_4 => cases h

/-- A multiple is taken where the one below the value is inside the interval. -/
theorem Interval.isSome_multiple? (h : i.Contains
    (multipleUnits (i.value * pow10 (-e).toNat
      / (4 * pow2 BinaryFormat.single.unitExponent * pow10 e.toNat)) e) (pow10 (-e).toNat)) :
    (i.multiple? tie e).isSome := by
  rw [Contains, four_mul_multipleUnits] at h
  unfold multiple?
  cases hclosed : i.closed <;> simp only [hclosed, Bool.false_eq_true, if_false, if_true] at h ⊢
  all_goals
    rw [decide_eq_true h]
    split <;> first | rfl | contradiction

theorem lowerWidth_pos (x : Single) : 0 < x.lowerWidth := by
  have hstep := pow2_pos (BinaryFormat.single.shift x.pattern)
  unfold lowerWidth
  dsimp only
  split <;> omega

/-- The interval of a positive value does not reach down to zero. -/
theorem lowerWidth_lt (hpos : 0 < x.pattern) : x.lowerWidth < 4 * x.units := by
  have hwidth := x.lowerWidth_le
  have hunits := BinaryFormat.single.units_pos hpos
  have hsignificand : 0 < BinaryFormat.single.significand x.pattern :=
    Nat.pos_of_mul_pos_right hunits
  have hstep := pow2_pos (BinaryFormat.single.shift x.pattern)
  rw [units_eq]
  nlinarith

/-- **Multiples that are as dense as the values hit every interval.** -/
theorem Interval.isSome_multiple?_of_dense (hpos : 0 < x.pattern)
    (hgrid : 4 * pow2 BinaryFormat.single.unitExponent * pow10 e.toNat ≤ pow10 (-e).toNat) :
    (x.interval.multiple? tie e).isSome := by
  refine isSome_multiple? ?_
  have hwidth := Nat.mul_le_mul_right (pow10 (-e).toNat) x.lowerWidth_pos
  have hstep := pow2_pos (BinaryFormat.single.shift x.pattern)
  have hup := pow10_pos (-e).toNat
  have hpow : 0 < 4 * pow2 BinaryFormat.single.unitExponent * pow10 e.toNat :=
    Nat.mul_pos (Nat.mul_pos (by decide) (pow2_pos _)) (pow10_pos _)
  have hbelow := Nat.div_mul_le_self (x.interval.value * pow10 (-e).toNat)
    (4 * pow2 BinaryFormat.single.unitExponent * pow10 e.toNat)
  have habove := Nat.lt_div_mul_add hpow (a := x.interval.value * pow10 (-e).toNat)
  have hlow : x.interval.value * pow10 (-e).toNat
      = x.interval.low * pow10 (-e).toNat + x.lowerWidth * pow10 (-e).toNat := by
    have hend : x.interval.value = x.interval.low + x.lowerWidth :=
      (Nat.sub_add_cancel (Nat.le_of_lt (lowerWidth_lt hpos))).symm
    rw [← Nat.add_mul, ← hend]
  have hhigh : x.interval.high * pow10 (-e).toNat = x.interval.value * pow10 (-e).toNat
      + 2 * pow2 (BinaryFormat.single.shift x.pattern) * pow10 (-e).toNat :=
    Nat.add_mul ..
  rw [Contains, four_mul_multipleUnits]
  split
  · exact ⟨by omega, by omega⟩
  · exact ⟨by omega, by nlinarith⟩

/-- **The search finds a decimal inside the interval.** -/
theorem contains_shortest (tie : TieBreak) (hpos : 0 < x.pattern) :
    x.interval.Contains (multipleUnits (x.shortest tie).significand (x.shortest tie).exponent)
      (pow10 (-(x.shortest tie).exponent).toNat) := by
  have hsome : (((List.range 96).map fun i => (39 : Int) - Int.ofNat i).findSome? fun e =>
      (x.interval.multiple? tie e).map (Decimal.mk · e)).isSome := by
    rw [List.findSome?_isSome_iff]
    refine ⟨-56, List.mem_map.2 ⟨95, by decide, by decide⟩, ?_⟩
    rw [Option.isSome_map]
    exact Interval.isSome_multiple?_of_dense hpos (by decide +kernel)
  obtain ⟨d, hd⟩ := Option.isSome_iff_exists.1 hsome
  have hshortest : x.shortest tie = d := by
    rw [shortest, hd]
    rfl
  obtain ⟨e, -, he⟩ := List.exists_of_findSome?_eq_some hd
  obtain ⟨n, hn, rfl⟩ := Option.map_eq_some_iff.1 he
  rw [hshortest]
  exact Interval.contains_of_multiple? hn

/-- The shortest decimal of a positive value is positive. -/
theorem significand_shortest_pos (tie : TieBreak) (hpos : 0 < x.pattern) :
    0 < (x.shortest tie).significand := by
  refine Nat.pos_of_ne_zero fun hzero => ?_
  have hcontains := contains_shortest tie hpos
  obtain ⟨⟨hlow, -⟩, -⟩ := bounds_of_contains hcontains
  have hwidth := Nat.mul_lt_mul_of_pos_right (lowerWidth_lt hpos)
    (pow10_pos (-(x.shortest tie).exponent).toNat)
  rw [hzero, multipleUnits, Nat.zero_mul, Nat.zero_mul] at hlow
  omega

/-- **The value nearest to the shortest decimal of a value is the value.** -/
theorem round_shortest (tie : TieBreak) (hx : x.isFinite) (hpos : 0 < x.pattern) :
    BinaryFormat.single.round ((x.shortest tie).significand
      * pow10 (x.shortest tie).exponent.toNat) (pow10 (-(x.shortest tie).exponent).toNat)
      = x.pattern :=
  roundUnits_of_contains hx (pow10_pos _) (contains_shortest tie hpos)

end Search

end Single

end Flipbook
