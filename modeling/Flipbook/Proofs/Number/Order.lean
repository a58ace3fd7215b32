import Flipbook.Number.Single

/-!
# Proofs/Number/Order — the order of values, and rounding in it

Of two values that are numbers the one with the smaller key is less (`Single.less_iff`).  A number
of units that is not above the value of a pattern rounds to no greater pattern
(`BinaryFormat.roundUnits_le`).  So the remainder by a positive value, which is below that value
before it is rounded, is not above it afterwards (`Single.not_less_remainder`).
-/

namespace Flipbook

/-- A ratio that is not above a whole number rounds to no greater one. -/
theorem nearestQuotient_le {num den n : Nat} (hden : 0 < den) (h : num ≤ n * den) :
    nearestQuotient num den ≤ n := by
  have hquotient : num / den ≤ n := Nat.div_le_of_le_mul (Nat.mul_comm n den ▸ h)
  unfold nearestQuotient
  dsimp only
  split
  · exact hquotient
  · rename_i hup
    -- the whole number itself has no remainder and does not round up
    refine Nat.lt_of_le_of_ne hquotient fun heq => hup (.inl ?_)
    have hsplit := Nat.div_add_mod num den
    rw [heq, Nat.mul_comm den n] at hsplit
    omega

theorem two_mul_pow2_mul_pow2 (m n : Nat) : 2 * pow2 m * pow2 n = pow2 (m + n + 1) := by
  rw [Nat.mul_assoc, ← pow2_add, Nat.mul_comm]
  rfl

/-! ## Rounding -/

namespace BinaryFormat

variable (f : BinaryFormat) {p units : Nat}

/-- A pattern is its shift and its significand. -/
theorem shift_mul_add_significand (p : Nat) :
    f.shift p * pow2 f.fractionBits + f.significand p = p := by
  have hshift : f.shift p * pow2 f.fractionBits ≤ p := by
    refine Nat.le_trans (Nat.mul_le_mul_right _ ?_) (Nat.div_mul_le_self p (pow2 f.fractionBits))
    exact Nat.sub_le ..
  exact Nat.add_sub_cancel' hshift

theorem significand_lt (p : Nat) : f.significand p < 2 * pow2 f.fractionBits := by
  have hpos := pow2_pos f.fractionBits
  have hsplit := f.shift_mul_add_significand p
  have hlt : p < (f.shift p + 2) * pow2 f.fractionBits := by
    rw [← Nat.div_lt_iff_lt_mul hpos, shift]
    omega
  rw [Nat.add_mul] at hlt
  omega

/-- A pattern that is shifted has its leading bit. -/
theorem le_significand (h : 0 < f.shift p) : pow2 f.fractionBits ≤ f.significand p := by
  have hsplit := f.shift_mul_add_significand p
  have hle : (f.shift p + 1) * pow2 f.fractionBits ≤ p := by
    rw [← Nat.le_div_iff_mul_le (pow2_pos _)]
    unfold shift at *
    omega
  rw [Nat.add_mul] at hle
  omega

/-- A pattern other than 0 has a positive value. -/
theorem units_pos (h : 0 < p) : 0 < f.units p := by
  refine Nat.mul_pos ?_ (pow2_pos _)
  rcases Nat.eq_zero_or_pos (f.shift p) with hzero | hpos
  · have hsplit := f.shift_mul_add_significand p
    rw [hzero] at hsplit
    omega
  · exact Nat.lt_of_lt_of_le (pow2_pos _) (f.le_significand hpos)

/-- **What is not above the value of a pattern rounds to no greater pattern.** -/
theorem roundUnits_le (h : units ≤ f.units p) : f.roundUnits units 1 ≤ p := by
  unfold roundUnits
  simp only [Nat.div_one, Nat.one_mul]
  refine Nat.le_trans (Nat.min_le_right _ _) ?_
  generalize hs : units.log2 - f.fractionBits = s
  have hsplit := f.shift_mul_add_significand p
  have hbelow : units < 2 * pow2 f.fractionBits * pow2 s := by
    refine Nat.lt_of_lt_of_le Nat.lt_log2_self ?_
    rw [two_mul_pow2_mul_pow2]
    exact Nat.pow_le_pow_right (show 0 < 2 by decide) (by omega)
  rcases Nat.lt_trichotomy s (f.shift p) with hlow | heq | hhigh
  · -- at most the power of two where the next shift begins
    have hquotient := nearestQuotient_le (pow2_pos s) (Nat.le_of_lt hbelow)
    have hlead := f.le_significand (p := p) (by omega)
    have hmul := Nat.mul_le_mul_right (pow2 f.fractionBits) (Nat.succ_le_of_lt hlow)
    rw [Nat.succ_mul] at hmul
    omega
  · have hquotient : nearestQuotient units (pow2 s) ≤ f.significand p :=
      nearestQuotient_le (pow2_pos s) (heq ▸ h)
    rw [heq] at hquotient ⊢
    omega
  · -- the leading bit of the units would be above the value
    exfalso
    have hpos : units ≠ 0 := by
      rintro rfl
      simp at hs
      omega
    have hvalue : f.units p < 2 * pow2 f.fractionBits * pow2 (f.shift p) :=
      Nat.mul_lt_mul_of_pos_right (f.significand_lt p) (pow2_pos _)
    rw [two_mul_pow2_mul_pow2] at hvalue
    have hmono : pow2 (f.fractionBits + f.shift p + 1) ≤ pow2 units.log2 :=
      Nat.pow_le_pow_right (show 0 < 2 by decide) (by omega)
    have hlead : pow2 units.log2 ≤ units := Nat.log2_self_le hpos
    omega

end BinaryFormat

namespace Single

variable {negative : Bool} {p : Nat} {a b c x t : Single}

/-! ## Comparing -/

theorem less_iff : a.less b ↔ a.isNaN = false ∧ b.isNaN = false ∧ a.key < b.key := by
  simp [less, and_assoc]

theorem less_trans (h : a.less b) (h' : b.less c) : a.less c := by
  rw [less_iff] at *
  exact ⟨h.1, h'.2.1, Int.lt_trans h.2.2 h'.2.2⟩

theorem isNaN_eq_false (h : a.isFinite) : a.isNaN = false := by
  simp only [isFinite, isNaN, decide_eq_true_eq, decide_eq_false_iff_not] at *
  omega

/-- What is not above a number is below what the number is below. -/
theorem less_of_not_less (hb : b.isNaN = false) (h : ¬ a.less b) (h' : a.less c) : b.less c := by
  rw [less_iff] at *
  refine ⟨hb, h'.2.1, Int.lt_of_le_of_lt (Int.not_lt.1 fun hlt => h ⟨h'.1, hb, hlt⟩) h'.2.2⟩

theorem not_less_self (a : Single) : ¬ a.less a := fun h => Int.lt_irrefl _ (less_iff.1 h).2.2

theorem key_le_pattern (x : Single) : x.key ≤ x.pattern := by
  unfold key
  split <;> omega

/-- The key of a positive value is its pattern. -/
theorem key_eq_pattern (h : zero.less x) : x.key = x.pattern := by
  have hkey : 0 < x.key := (less_iff.1 h).2.2
  unfold key at hkey ⊢
  split
  · rename_i hneg
    rw [if_pos hneg] at hkey
    omega
  · rfl

theorem pattern_pos (h : zero.less x) : 0 < x.pattern := by
  have hkey : 0 < x.key := (less_iff.1 h).2.2
  rw [key_eq_pattern h] at hkey
  omega

/-- A finite value is less than infinity. -/
theorem less_infinity (h : x.isFinite) : x.less (infinity false) := by
  have hpattern : x.pattern < BinaryFormat.single.infinity := of_decide_eq_true h
  have hinfinity : (infinity false).key = BinaryFormat.single.infinity := by decide
  refine less_iff.2 ⟨isNaN_eq_false h, by decide, Int.lt_of_le_of_lt x.key_le_pattern ?_⟩
  rw [hinfinity]
  exact Int.ofNat_lt.2 hpattern

/-! ## Values of patterns -/

theorem toNat_bits_ofPattern (h : p < signBit) :
    (ofPattern negative p).bits.toNat = p + if negative then signBit else 0 := by
  have hlt : p + (if negative then signBit else 0) < UInt32.size := by
    have hsign : signBit + signBit = UInt32.size := rfl
    split <;> omega
  exact UInt32.toNat_ofNat_of_lt' hlt

theorem pattern_ofPattern (h : p < signBit) : (ofPattern negative p).pattern = p := by
  rw [pattern, toNat_bits_ofPattern h]
  cases negative
  · exact Nat.mod_eq_of_lt h
  · exact (Nat.add_mod_right p signBit).trans (Nat.mod_eq_of_lt h)

/-- A value is its sign and its pattern. -/
theorem ofPattern_pattern (x : Single) : ofPattern x.negative x.pattern = x := by
  have hlt : x.bits.toNat < 2 ^ 32 := x.bits.toNat_lt
  have hbits : x.pattern + (if x.negative then signBit else 0) = x.bits.toNat := by
    rw [pattern, negative]
    by_cases h : signBit ≤ x.bits.toNat
    · rw [decide_eq_true h, if_pos rfl, signBit] at *
      omega
    · rw [decide_eq_false h, if_neg Bool.false_ne_true, signBit] at *
      omega
  rw [ofPattern, hbits, UInt32.ofNat_toNat]

theorem pattern_ofUnits (units : Nat) :
    (ofUnits negative units).pattern = BinaryFormat.single.roundUnits units 1 :=
  pattern_ofPattern (Nat.lt_of_le_of_lt (Nat.min_le_left _ _) (by decide))

/-- A number of units is never a NaN. -/
theorem isNaN_ofUnits (units : Nat) : (ofUnits negative units).isNaN = false := by
  rw [isNaN, pattern_ofUnits]
  exact decide_eq_false (Nat.not_lt.2 (Nat.min_le_left _ _))

/-! ## Remainders -/

/-- The remainder by a positive value is there for finite values. -/
theorem remainder_eq (ht : t.isFinite) (hpos : zero.less t) (x : Single) : x.remainder t =
    if x.isFinite then ofUnits x.negative (x.units % t.units) else nan := by
  have hpattern := pattern_pos hpos
  cases hx : x.isFinite with
  | true => simp [remainder, isNaN_eq_false hx, isNaN_eq_false ht, hx, ht, Nat.ne_of_gt hpattern]
  | false => simp [remainder, hx]

/-- **The remainder by a positive value is not greater than that value.** -/
theorem not_less_remainder (ht : t.isFinite) (hpos : zero.less t) (x : Single) :
    ¬ t.less (x.remainder t) := by
  rw [remainder_eq ht hpos]
  split
  · intro hless
    have hunits : x.units % t.units ≤ t.units :=
      Nat.le_of_lt (Nat.mod_lt _ (BinaryFormat.single.units_pos (pattern_pos hpos)))
    have hround := BinaryFormat.single.roundUnits_le hunits
    have hkey := Int.lt_of_lt_of_le (less_iff.1 hless).2.2 (key_le_pattern _)
    rw [key_eq_pattern hpos, pattern_ofUnits] at hkey
    omega
  · exact fun hless => absurd (less_iff.1 hless).2.1 (by decide)

end Single

end Flipbook
