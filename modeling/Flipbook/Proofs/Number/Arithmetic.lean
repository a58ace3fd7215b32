import Flipbook.Proofs.Number.Order
import Mathlib

/-!
# Proofs/Number/Arithmetic — which sums, differences and products are numbers

    Single ──parts──▸ UnpackedFloat
      │ +               │ add
      ▾                 ▾
    Single ◂─ofParts─ UnpackedFloat

The core type of floats computes on values taken apart into sign, significand and power of two, and
puts the result together.  A value put together is a NaN only if it is none before
(`isNaN_ofParts`), so a sum is a NaN only for opposite infinities (`isNaN_add`), and a product of
finite values never is (`isNaN_mul`).  Rounding what is below a number of powers of two does not
raise the power (`exponentLe_round`), so a difference of positive values does not overflow
(`isFinite_sub`).
-/

namespace Flipbook.Single

open Float.Model (Format UnpackedFloat)
open Float.Model.UnpackedFloat

variable {a b x : Single}

/-! ## Fields of bits -/

/-- The value of a sign, an exponent and a fraction. -/
def ofFields (s : Sign) (e : BitVec 8) (m : BitVec 23) : Single :=
  ⟨⟨packComponents .binary32 s e m⟩⟩

/-- The sign of a value whose sign bit is set, or is not. -/
def sign (negative : Bool) : Sign := if negative then .negative else .positive

section Fields

variable {s : Sign} {e : BitVec 8} {m : BitVec 23}

theorem exists_ofFields (x : Single) : ∃ s e m, x = ofFields s e m := by
  have hbits := packComponents_unpackSign_unpackExponent_unpackMantissa
    (show BitVec Format.binary32.numBits from x.bits.toBitVec)
  exact ⟨_, _, _, congrArg (Single.mk ∘ UInt32.ofBitVec) hbits.symm⟩

theorem toNat_bits_ofFields : (ofFields s e m).bits.toNat
    = s.toBitVec.toNat * signBit + (e.toNat * 2 ^ 23 + m.toNat) := by
  show (s.toBitVec ++ e ++ m).toNat = _
  rw [BitVec.toNat_append, BitVec.toNat_append, ← Nat.shiftLeft_add_eq_or_of_lt m.isLt,
    ← Nat.shiftLeft_add_eq_or_of_lt e.isLt]
  simp only [Nat.shiftLeft_eq, signBit]
  omega

theorem pattern_ofFields : (ofFields s e m).pattern = e.toNat * 2 ^ 23 + m.toNat := by
  have he := e.isLt
  have hm := m.isLt
  rw [pattern, toNat_bits_ofFields, signBit]
  omega

theorem sign_ofFields : sign (ofFields s e m).negative = s := by
  have he := e.isLt
  have hm := m.isLt
  rw [negative, toNat_bits_ofFields]
  cases s with
  | negative => simp [sign, signBit, Sign.toBitVec]
  | positive =>
    simp [sign, signBit, Sign.toBitVec]
    omega

theorem exponent_eq_iff : e = -1#8 ↔ e.toNat = 255 := BitVec.toNat_inj.symm

theorem single_infinity : BinaryFormat.single.infinity = 255 * 2 ^ 23 := by decide

theorem isNaN_ofFields : (ofFields s e m).isNaN = decide (e = -1#8 ∧ m ≠ 0#23) := by
  have hfraction : m = 0#23 ↔ m.toNat = 0 := BitVec.toNat_inj.symm
  have he := e.isLt
  have hm := m.isLt
  rw [isNaN, pattern_ofFields, single_infinity, decide_eq_decide, ne_eq, exponent_eq_iff, hfraction]
  omega

theorem isFinite_ofFields : (ofFields s e m).isFinite = decide (e ≠ -1#8) := by
  have he := e.isLt
  have hm := m.isLt
  rw [isFinite, pattern_ofFields, single_infinity, decide_eq_decide, ne_eq, exponent_eq_iff]
  omega

end Fields

theorem infinity_eq_ofFields (negative : Bool) :
    infinity negative = ofFields (sign negative) (-1) 0 := by
  cases negative <;> decide

theorem isNaN_infinity (negative : Bool) : (infinity negative).isNaN = false := by
  cases negative <;> decide

theorem isFinite_infinity (negative : Bool) : (infinity negative).isFinite = false := by
  cases negative <;> decide

/-! ## Taking apart -/

/-- A value taken apart, as the core type of floats computes with it. -/
def parts (x : Single) : UnpackedFloat := unpack .binary32 x.bits.toBitVec

theorem toNat_one_append (m : BitVec 23) : (1#1 ++ m).toNat = 2 ^ 23 + m.toNat := by
  rw [BitVec.toNat_append, ← Nat.shiftLeft_add_eq_or_of_lt m.isLt]
  rfl

/-- **A value is a NaN, an infinity, a zero, or some powers of two**, and both how many and which
power is bounded. -/
theorem parts_cases (x : Single) :
    (x.isNaN ∧ x.parts = .notANumber) ∨
      (x = infinity x.negative ∧ x.parts = .infinity (sign x.negative)) ∨
      (x.isFinite ∧ x.pattern = 0 ∧ x.parts = .zero (sign x.negative)) ∨
      (x.isFinite ∧ ∃ m e hm, x.parts = .finite (sign x.negative) m e hm ∧
        m < 2 ^ 24 ∧ -149 ≤ e ∧ e ≤ 104) := by
  obtain ⟨s, e, m, rfl⟩ := x.exists_ofFields
  have hbits : (ofFields s e m).bits.toBitVec = packComponents .binary32 s e m := rfl
  have hm := m.isLt
  rw [infinity_eq_ofFields, sign_ofFields, isNaN_ofFields, isFinite_ofFields, pattern_ofFields]
  simp only [parts, hbits, unpack, unpackExponent_packComponents, unpackMantissa_packComponents,
    unpackSign_packComponents, Sign.ofBitVec_toBitVec]
  by_cases htop : e = -1#8
  · by_cases hzero : m = 0#23
    · exact .inr (.inl (by simp [htop, hzero]))
    · exact .inl (by simp [htop, hzero])
  by_cases hlow : e = 0#8
  · by_cases hzero : m = 0#23
    · exact .inr (.inr (.inl (by simp [hlow, hzero])))
    · have hpos : 0 < m.toNat := (BitVec.toNat_pos m).2 ((BitVec.pos_iff_ne_zero m).2 hzero)
      refine .inr (.inr (.inr ⟨by simp [hlow], m.toNat, -149, hpos, ?_, by omega, by decide⟩))
      simp [hlow, hzero, Format.exponentBias]
  · have hexponent : e.toNat ≠ 0 := fun h => hlow (BitVec.toNat_inj.1 h)
    have htop' : e.toNat ≠ 255 := fun h => htop (BitVec.toNat_inj.1 h)
    have hsignificand := toNat_one_append m
    have he := e.isLt
    refine .inr (.inr (.inr ⟨by simpa using htop, (1#1 ++ m).toNat, e.toNat - 150, by omega, ?_,
      by omega, by omega⟩))
    rw [if_neg htop, if_neg hlow]
    simp [Format.exponentBias]

theorem parts_infinity (negative : Bool) :
    (infinity negative).parts = .infinity (sign negative) := by
  cases negative <;> rfl

theorem parts_eq_infinity {negative : Bool} :
    x.parts = .infinity (sign negative) ↔ x = infinity negative := by
  constructor
  · intro h
    rcases x.parts_cases with ⟨-, hx⟩ | ⟨hx, hparts⟩ | ⟨-, -, hx⟩ | ⟨-, m, e, hm, hx, -⟩
    · rw [hx] at h
      cases h
    · rw [hparts] at h
      rw [hx]
      congr 1
      revert h
      cases x.negative <;> cases negative <;> simp [sign]
    · rw [hx] at h
      cases h
    · rw [hx] at h
      cases h
  · rintro rfl
    exact parts_infinity negative

theorem parts_eq_notANumber : x.parts = .notANumber ↔ x.isNaN := by
  rcases x.parts_cases with ⟨hx, h⟩ | ⟨hx, h⟩ | ⟨hx, -, h⟩ | ⟨hx, m, e, hm, h, -⟩ <;> rw [h]
  · exact iff_of_true rfl hx
  · exact iff_of_false (by simp) (by rw [hx, isNaN_infinity]; simp)
  · exact iff_of_false (by simp) (by simp [isNaN_eq_false hx])
  · exact iff_of_false (by simp) (by simp [isNaN_eq_false hx])

theorem isFinite_parts (hx : x.isFinite) : x.parts.isFinite := by
  rcases x.parts_cases with ⟨hnan, -⟩ | ⟨hinfinity, -⟩ | ⟨-, -, h⟩ | ⟨-, m, e, hm, h, -⟩
  · rw [isNaN_eq_false hx] at hnan
    cases hnan
  · rw [hinfinity, isFinite_infinity] at hx
    cases hx
  · rw [h]
    rfl
  · rw [h]
    rfl

/-- A number that is not finite is an infinity. -/
theorem exists_eq_infinity (hnan : x.isNaN = false) (hx : x.isFinite = false) :
    ∃ n, x = infinity n := by
  rcases x.parts_cases with ⟨h, -⟩ | ⟨h, -⟩ | ⟨h, -⟩ | ⟨h, -⟩
  · rw [hnan] at h
    cases h
  · exact ⟨_, h⟩
  · rw [hx] at h
    cases h
  · rw [hx] at h
    cases h

/-- A positive, finite value is some powers of two. -/
theorem exists_parts_of_pos (hx : x.isFinite) (hpos : zero.less x) : ∃ m e hm,
    x.parts = .finite .positive m e hm ∧ m < 2 ^ 24 ∧ -149 ≤ e ∧ e ≤ 104 := by
  have hsign : x.negative = false := by
    have hkey : 0 < x.key := (less_iff.1 hpos).2.2
    unfold key at hkey
    split at hkey
    · omega
    · simpa using ‹¬ x.negative = true›
  rcases x.parts_cases with ⟨h, -⟩ | ⟨h, -⟩ | ⟨-, h, -⟩ | ⟨-, h⟩
  · rw [isNaN_eq_false hx] at h
    cases h
  · rw [h, isFinite_infinity] at hx
    cases hx
  · exact absurd h (Nat.ne_of_gt (pattern_pos hpos))
  · rwa [hsign] at h

/-! ## Putting together -/

/-- The value put together from its parts. -/
def ofParts (f : UnpackedFloat) : Single := ⟨⟨pack .binary32 f⟩⟩

/-- A core float is taken apart as the value is. -/
theorem parts_toFloat32 (x : Single) : x.toFloat32.toModel.unpack = x.parts := by
  show unpack .binary32 (pack .binary32 (unpack .binary32 x.bits.toBitVec)) = x.parts
  rw [pack_unpack]
  split
  · rename_i hnan
    rw [unpack_packedNaN, parts, unpack]
    simp only [isNaNBits, decide_eq_true_eq] at hnan
    simp [hnan]
  · rfl

theorem add_eq (a b : Single) : a + b = ofParts (add .binary32 a.parts b.parts) := by
  rw [← parts_toFloat32 a, ← parts_toFloat32 b]
  rfl

theorem sub_eq (a b : Single) : a - b = ofParts (sub .binary32 a.parts b.parts) := by
  rw [← parts_toFloat32 a, ← parts_toFloat32 b]
  rfl

theorem mul_eq (a b : Single) : a * b = ofParts (mul .binary32 a.parts b.parts) := by
  rw [← parts_toFloat32 a, ← parts_toFloat32 b]
  rfl

/-- Powers of two are put together to a value that is no NaN, and that is finite if the power is not
too great. -/
theorem exists_ofFields_ofParts (s : Sign) (m : Nat) (e : Int) (hm : 0 < m) :
    ∃ e' m', ofParts (.finite s m e hm) = ofFields s e' m' ∧ (e' = -1#8 → m' = 0#23) ∧
      (e ≤ 104 → e' ≠ -1#8) := by
  unfold ofParts pack
  dsimp only
  split
  · rename_i hover
    change 2 ^ 8 ≤ (e + 127 + 23).toNat + 1 at hover
    exact ⟨-1#8, 0#23, rfl, fun _ => rfl, fun he => by omega⟩
  · rename_i hover
    change ¬ 2 ^ 8 ≤ (e + 127 + 23).toNat + 1 at hover
    split
    · have hexponent : BitVec.ofNat 8 (e + 127 + 23).toNat ≠ -1#8 := by
        intro h
        have hmod : (e + 127 + 23).toNat % 2 ^ 8 = 255 := congrArg BitVec.toNat h
        omega
      exact ⟨_, _, rfl, fun h => absurd h hexponent, fun _ => hexponent⟩
    · exact ⟨_, _, rfl, by simp, by simp⟩

/-- **Only what is no number is put together to a NaN.** -/
theorem isNaN_ofParts {f : UnpackedFloat} : (ofParts f).isNaN ↔ f = .notANumber := by
  cases f with
  | notANumber => exact iff_of_true (by decide) rfl
  | infinity s => exact iff_of_false (by cases s <;> decide) (by simp)
  | zero s => exact iff_of_false (by cases s <;> decide) (by simp)
  | finite s m e hm =>
    obtain ⟨e', m', heq, hnan, -⟩ := exists_ofFields_ofParts s m e hm
    refine iff_of_false ?_ (by simp)
    rw [heq, isNaN_ofFields]
    simpa using hnan

/-- Whether a value taken apart is zero or has at most some power of two. -/
def ExponentLe (bound : Int) : UnpackedFloat → Prop
  | .zero _ => True
  | .finite _ _ e _ => e ≤ bound
  | _ => False

theorem ExponentLe.mono {f : UnpackedFloat} {e e' : Int} (h : ExponentLe e f) (he : e ≤ e') :
    ExponentLe e' f := by
  cases f with
  | finite s m k hm => exact Int.le_trans h he
  | _ => exact h

theorem isFinite_ofParts {f : UnpackedFloat} (h : ExponentLe 104 f) : (ofParts f).isFinite := by
  cases f with
  | notANumber => cases h
  | infinity s => cases h
  | zero s => cases s <;> decide
  | finite s m e hm =>
    obtain ⟨e', m', heq, -, hfinite⟩ := exists_ofFields_ofParts s m e hm
    rw [heq, isFinite_ofFields]
    exact decide_eq_true (hfinite h)

/-! ## Rounding -/

theorem mantissa_shiftRight (em : ExtendedMantissa) (n : Nat) :
    (em >>> n).mantissa = em.mantissa / 2 ^ n := by
  induction n with
  | zero => exact (Nat.div_one _).symm
  | succ n ih =>
    have hstep : (em >>> (n + 1)).mantissa = (em >>> n).mantissa / 2 := rfl
    rw [hstep, ih, Nat.div_div_eq_div_mul, Nat.pow_succ]

theorem roundedMantissa_le (em : ExtendedMantissa) : em.roundedMantissa ≤ em.mantissa + 1 := by
  unfold ExtendedMantissa.roundedMantissa
  cases em.accuracy with
  | exact => exact Nat.le_succ _
  | inexact half =>
    cases half with
    | lt => exact Nat.le_succ _
    | eq => exact Nat.add_le_add_left (Nat.le_of_lt_succ (Nat.mod_lt _ Nat.two_pos)) _
    | gt => exact Nat.le_refl _

section Round

variable {s : Sign} {m n : Nat} {k e : Int}

/-- What is below `2 ^ 24` powers of two has no greater power to be rounded to. -/
theorem targetExponent_le (hk : k ≤ e) (he : -149 ≤ e) (hm : m < 2 ^ 24 * 2 ^ (e - k).toNat) :
    Format.binary32.targetExponent (Float.Model.totalExponent m k) ≤ e := by
  have hlog : m.log2 < 24 + (e - k).toNat := by
    rcases Nat.eq_zero_or_pos m with rfl | hpos
    · exact Nat.lt_of_lt_of_le (by decide) (Nat.le_add_right 24 _)
    · rwa [Nat.log2_lt (Nat.ne_of_gt hpos), Nat.pow_add]
  simp only [Format.targetExponent, Float.Model.totalExponent, Format.mantissaBits,
    Format.minExponent]
  omega

/-- Cutting off bits and rounding up gives no greater power than bounds the value. -/
theorem exponentLe_roundWithAccuracy (hk : k ≤ e) (he : -149 ≤ e) (hn : n < 2 ^ 24)
    (hm : m < n * 2 ^ (e - k).toNat) :
    ExponentLe e (roundWithAccuracy .binary32 s m k .exact) := by
  have hfirst : Format.binary32.targetExponent (Float.Model.totalExponent m k) ≤ e :=
    targetExponent_le hk he (Nat.lt_of_lt_of_le hm (Nat.mul_le_mul_right _ (Nat.le_of_lt hn)))
  unfold roundWithAccuracy shiftToTargetExponent shiftToExponent
  dsimp only
  generalize hshift : (Format.binary32.targetExponent (Float.Model.totalExponent m k) - k).toNat = i
  -- rounding up reaches the bound at most, which has no carry
  have hcut : m / 2 ^ i < n * 2 ^ (e - (k + i)).toNat := by
    rw [Nat.div_lt_iff_lt_mul (Nat.two_pow_pos i), Nat.mul_assoc, ← Nat.pow_add]
    have hsum : (e - (k + i)).toNat + i = (e - k).toNat := by omega
    rwa [hsum]
  have hround := roundedMantissa_le (ExtendedMantissa.ofMantissaAndAccuracy m .exact >>> i)
  rw [mantissa_shiftRight] at hround
  have hrounded : _ < 2 ^ 24 * 2 ^ (e - (k + i)).toNat :=
    Nat.lt_of_le_of_lt (Nat.le_trans hround hcut)
      (Nat.mul_lt_mul_of_pos_right hn (Nat.two_pow_pos _))
  have hsecond := targetExponent_le (by omega) he hrounded
  split
  · trivial
  · show k + i + _ ≤ e
    omega

/-- **Rounding gives no greater power than bounds the value.** -/
theorem exponentLe_round (hk : k ≤ e) (he : -149 ≤ e) (hn : n < 2 ^ 24)
    (hm : m < n * 2 ^ (e - k).toNat) : ExponentLe e (UnpackedFloat.round .binary32 s m k) := by
  unfold UnpackedFloat.round decreaseExponent
  dsimp only
  generalize (k - Format.binary32.targetExponent (Float.Model.totalExponent m k)).toNat = j
  refine exponentLe_roundWithAccuracy (by omega) he hn ?_
  have hsum : (e - (k - j)).toNat = (e - k).toNat + j := by omega
  rw [hsum, Nat.pow_add, ← Nat.mul_assoc, Nat.shiftLeft_eq]
  exact Nat.mul_lt_mul_of_pos_right hm (Nat.two_pow_pos j)

theorem roundWithAccuracy_ne (spec : Format) (s : Sign) (m : Nat) (e : Int) (accuracy : Accuracy) :
    roundWithAccuracy spec s m e accuracy ≠ .notANumber := by
  unfold roundWithAccuracy
  dsimp only
  split <;> simp

theorem normalize_ne (spec : Format) (m e : Int) (s : Sign) :
    UnpackedFloat.normalize spec m e s ≠ .notANumber := by
  unfold UnpackedFloat.normalize
  split
  · exact roundWithAccuracy_ne _ _ _ _ _
  · simp
  · exact roundWithAccuracy_ne _ _ _ _ _

end Round

/-! ## Sums -/

theorem add_eq_notANumber {spec : Format} {f g : UnpackedFloat} : add spec f g = .notANumber ↔
    f = .notANumber ∨ g = .notANumber ∨ ∃ s, f = .infinity s ∧ g = .infinity (-s) := by
  cases f with
  | notANumber => simp [add]
  | infinity s =>
    cases g with
    | infinity s' => cases s <;> cases s' <;> simp [add] <;> rfl
    | _ => simp [add]
  | zero s =>
    cases g with
    | zero s' => cases s <;> cases s' <;> simp [add]
    | _ => simp [add]
  | finite s m e hm =>
    cases g with
    | finite s' m' e' hm' => simp [add, normalize_ne]
    | _ => simp [add]

/-- **A sum of numbers is a number**, unless they are opposite infinities. -/
theorem isNaN_add (ha : a.isNaN = false) (hb : b.isNaN = false) :
    (a + b).isNaN ↔ ∃ n, a = infinity n ∧ b = infinity (!n) := by
  rw [add_eq, isNaN_ofParts, add_eq_notANumber, parts_eq_notANumber, parts_eq_notANumber, ha, hb]
  constructor
  · rintro (h | h | ⟨s, h, h'⟩)
    · cases h
    · cases h
    · cases s with
      | negative => exact ⟨true, parts_eq_infinity.1 h, parts_eq_infinity.1 h'⟩
      | positive => exact ⟨false, parts_eq_infinity.1 h, parts_eq_infinity.1 h'⟩
  · rintro ⟨n, rfl, rfl⟩
    refine .inr (.inr ⟨sign n, parts_infinity n, ?_⟩)
    rw [parts_infinity]
    cases n <;> rfl

/-- What is added to a NaN is lost. -/
theorem isNaN_add_of_isNaN (ha : a.isNaN) (b : Single) : (a + b).isNaN := by
  rw [add_eq, isNaN_ofParts, add_eq_notANumber]
  exact .inl (parts_eq_notANumber.2 ha)

/-! ## Products -/

/-- **A product of finite values is a number.** -/
theorem isNaN_mul (ha : a.isFinite) (hb : b.isFinite) : (a * b).isNaN = false := by
  have hmul : ∀ f g : UnpackedFloat, f.isFinite → g.isFinite →
      mul .binary32 f g ≠ .notANumber := by
    intro f g hf hg
    cases f <;> cases g <;> simp_all [mul, UnpackedFloat.isFinite, roundWithAccuracy_ne]
  rw [mul_eq, ← Bool.not_eq_true, isNaN_ofParts]
  exact hmul _ _ (isFinite_parts ha) (isFinite_parts hb)

/-! ## Differences -/

/-- An infinity stays as it is when a finite value is taken off. -/
theorem infinity_sub (hb : b.isFinite) (negative : Bool) :
    infinity negative - b = infinity negative := by
  have hparts := isFinite_parts hb
  rw [sub_eq, parts_infinity, infinity_eq_ofFields]
  cases hb' : b.parts with
  | zero s => rfl
  | finite s m e hm => rfl
  | _ =>
    rw [hb'] at hparts
    cases hparts

theorem exponentLe_sub {m m' : Nat} {e e' bound : Int} (hm : 0 < m) (hm' : 0 < m')
    (hlt : m < 2 ^ 24) (hlt' : m' < 2 ^ 24) (he : -149 ≤ e) (he' : -149 ≤ e') (hb : e ≤ bound)
    (hb' : e' ≤ bound) :
    ExponentLe bound (sub .binary32 (.finite .positive m e hm) (.finite .positive m' e' hm')) := by
  have hpos : 0 < m * 2 ^ (e - min e e').toNat := Nat.mul_pos hm (Nat.two_pow_pos _)
  have hpos' : 0 < m' * 2 ^ (e' - min e e').toNat := Nat.mul_pos hm' (Nat.two_pow_pos _)
  simp only [sub, decreaseExponent, UnpackedFloat.normalize, Nat.shiftLeft_eq, Sign.apply]
  split
  · rename_i hless
    rw [Int.compare_eq_lt] at hless
    refine (exponentLe_round (by omega) he' hlt' ?_).mono hb'
    omega
  · trivial
  · rename_i hgreater
    rw [Int.compare_eq_gt] at hgreater
    refine (exponentLe_round (by omega) he hlt ?_).mono hb
    omega

/-- **A difference of positive, finite values is finite.** -/
theorem isFinite_sub (ha : a.isFinite) (hb : b.isFinite) (hapos : zero.less a)
    (hbpos : zero.less b) : (a - b).isFinite := by
  obtain ⟨m, e, hm, hparts, hlt, he, hbound⟩ := exists_parts_of_pos ha hapos
  obtain ⟨m', e', hm', hparts', hlt', he', hbound'⟩ := exists_parts_of_pos hb hbpos
  rw [sub_eq, hparts, hparts']
  exact isFinite_ofParts (exponentLe_sub hm hm' hlt hlt' he he' hbound hbound')

end Flipbook.Single
