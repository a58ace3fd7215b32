import Flipbook.Proofs.Number.Nearest
import Flipbook.Number.Numeral

/-!
# Proofs/Number/Numerals — what is written denotes the value

A numeral denotes a decimal (`Numeral.decimal`), wherever the point stands and whatever exponent is
marked.  However the shortest digits of a value are laid out, the numeral denotes their decimal, up
to zeros at the end; so the nearest value to the numeral of a value is the value
(`DecimalStyle.nearest_numeral`).  Numerals are written without leading zeros and with digits on
both sides of a point (`DecimalStyle.isWritten_numeral`).
-/

namespace Flipbook

/-! ## Digits -/

/-- Digits behind a number that was read. -/
theorem foldl_digits (n : Nat) (cs : List Char) :
    cs.foldl (fun n c => 10 * n + digitValue c) n = n * pow10 cs.length + digitsValue cs := by
  induction cs generalizing n with
  | nil => simp [digitsValue, pow10]
  | cons c cs ih =>
    have hpow : pow10 (c :: cs).length = 10 * pow10 cs.length := Nat.pow_succ'
    have hfirst : digitsValue (c :: cs) = digitValue c * pow10 cs.length + digitsValue cs := by
      rw [← ih, digitsValue, List.foldl_cons, Nat.mul_zero, Nat.zero_add]
    rw [List.foldl_cons, ih, hpow, hfirst]
    ring

theorem digitsValue_append (as bs : List Char) :
    digitsValue (as ++ bs) = digitsValue as * pow10 bs.length + digitsValue bs := by
  rw [digitsValue, List.foldl_append, foldl_digits]
  rfl

@[simp] theorem digitsValue_replicate_zero (k : Nat) : digitsValue (List.replicate k '0') = 0 := by
  induction k with
  | zero => rfl
  | succ k ih => simpa [digitsValue, List.replicate_succ, digitValue] using ih

@[simp] theorem digitsValue_toDigits (n : Nat) : digitsValue (Nat.toDigits 10 n) = n :=
  Nat.ofDigitChars_toDigits (by decide) (by decide)

/-- A positive number has no leading zero. -/
theorem head?_toDigits {n : Nat} (h : 0 < n) : (Nat.toDigits 10 n).head? ≠ some '0' := by
  induction n using Nat.strongRecOn with
  | ind n ih =>
    rcases Nat.lt_or_ge n 10 with hlt | hge
    · have hdigit : ∀ m < 10, 0 < m → m.digitChar ≠ '0' := by decide
      rw [Nat.toDigits_of_lt_base hlt, List.head?_cons, ne_eq, Option.some.injEq]
      exact hdigit n hlt h
    · have htens := ih (n / 10) (by omega) (by omega)
      rw [Nat.toDigits_of_base_le (by decide) hge]
      cases hdigits : Nat.toDigits 10 (n / 10) with
      | nil => exact absurd hdigits Nat.toDigits_ne_nil
      | cons c cs => rwa [hdigits] at htens

/-! ## Decimals -/

/-- The pattern nearest to a decimal. -/
def Decimal.pattern (d : Decimal) : Nat :=
  BinaryFormat.single.round (d.significand * pow10 d.exponent.toNat) (pow10 (-d.exponent).toNat)

namespace Numeral

/-- The value of an exponent. -/
def exponentValue (n : Numeral) : Int :=
  match n.exponent with
  | none => 0
  | some (down, digits) => if down then -(digitsValue digits : Int) else digitsValue digits

/-- The decimal that a numeral denotes, apart from its sign. -/
def decimal (n : Numeral) : Decimal :=
  ⟨digitsValue (n.whole ++ n.fraction), n.exponentValue - n.fraction.length⟩

/-- The value nearest to a numeral. -/
def nearest (n : Numeral) : Single := Single.ofPattern n.negative n.decimal.pattern

/-- Whether a numeral has the form of a number in a document: digits without leading zeros, and
digits behind an exponent mark. -/
structure IsWritten (n : Numeral) : Prop where
  whole : n.whole ≠ [] ∧ ∀ c ∈ n.whole, c.isDigit
  leading : n.whole.head? = some '0' → n.whole = ['0']
  fraction : ∀ c ∈ n.fraction, c.isDigit
  exponent : ∀ down digits, n.exponent = some (down, digits) →
    digits ≠ [] ∧ ∀ c ∈ digits, c.isDigit

end Numeral

/-- A common factor of a ratio does not matter. -/
theorem nearestQuotient_mul {c : Nat} (hc : 0 < c) (num den : Nat) :
    nearestQuotient (num * c) (den * c) = nearestQuotient num den := by
  have hless : 2 * (num % den * c) < den * c ↔ 2 * (num % den) < den := by
    rw [← Nat.mul_assoc]
    exact Nat.mul_lt_mul_right hc
  have heq : 2 * (num % den * c) = den * c ↔ 2 * (num % den) = den := by
    rw [← Nat.mul_assoc]
    exact Nat.mul_left_inj (Nat.ne_of_gt hc)
  simp only [nearestQuotient, Nat.mul_div_mul_right _ _ hc, Nat.mul_mod_mul_right, hless, heq]

theorem BinaryFormat.roundUnits_mul (f : BinaryFormat) {c : Nat} (hc : 0 < c) (num den : Nat) :
    f.roundUnits (num * c) (den * c) = f.roundUnits num den := by
  have hstep : ∀ s, den * c * pow2 s = den * pow2 s * c := fun s => Nat.mul_right_comm ..
  simp only [roundUnits, Nat.mul_div_mul_right _ _ hc, hstep, nearestQuotient_mul hc]

/-- Equal ratios round to the same pattern. -/
theorem BinaryFormat.roundUnits_congr (f : BinaryFormat) {num den num' den' : Nat} (hden : 0 < den)
    (hden' : 0 < den') (h : num * den' = num' * den) :
    f.roundUnits num den = f.roundUnits num' den' := by
  rw [← f.roundUnits_mul hden' num, ← f.roundUnits_mul hden num', h, Nat.mul_comm den den']

/-- Zeros at the end are a power of ten. -/
theorem Decimal.pattern_mul_pow10 (n k : Nat) (e : Int) :
    Decimal.pattern ⟨n * pow10 k, e⟩ = Decimal.pattern ⟨n, e + k⟩ := by
  refine BinaryFormat.single.roundUnits_congr (pow10_pos _) (pow10_pos _) ?_
  have hadd : ∀ a b, pow10 (a + b) = pow10 a * pow10 b := Nat.pow_add 10
  have hpow : pow10 k * pow10 e.toNat * pow10 (-(e + k)).toNat
      = pow10 (e + k).toNat * pow10 (-e).toNat := by
    rw [← hadd, ← hadd, ← hadd]
    congr 1
    omega
  calc n * pow10 k * pow10 e.toNat * pow2 BinaryFormat.single.unitExponent
        * pow10 (-(e + k)).toNat
      = n * pow2 BinaryFormat.single.unitExponent
        * (pow10 k * pow10 e.toNat * pow10 (-(e + k)).toNat) := by ring
    _ = n * pow2 BinaryFormat.single.unitExponent
        * (pow10 (e + k).toNat * pow10 (-e).toNat) := by rw [hpow]
    _ = n * pow10 (e + k).toNat * pow2 BinaryFormat.single.unitExponent
        * pow10 (-e).toNat := by ring

namespace DecimalStyle

/-! ## Layout -/

section Layout

variable {style : DecimalStyle} {negative : Bool} {digits : List Char} {e : Int} {count : Nat}

/-- The point stands in front of all digits. -/
theorem positionalNumeral_of_neg (h : digits ≠ []) (he : e < 0) :
    style.positionalNumeral negative digits e
      = ⟨negative, ['0'], List.replicate (-e - 1).toNat '0' ++ digits, none⟩ := by
  have hcount : (e + 1).toNat = 0 := by omega
  simp [positionalNumeral, hcount, h]

/-- The point stands behind all digits. -/
theorem positionalNumeral_of_le (h : digits ≠ []) (he : e + 1 = count)
    (hcount : digits.length ≤ count) :
    style.positionalNumeral negative digits e
      = ⟨negative, digits ++ List.replicate (count - digits.length) '0',
        if style.pointZero then ['0'] else [], none⟩ := by
  have hlen := List.length_pos_iff.2 h
  have hzeros : (-e - 1).toNat = 0 := by omega
  simp [positionalNumeral, he, hzeros, h, List.take_of_length_le hcount,
    List.drop_of_length_le hcount]

/-- The point stands between digits. -/
theorem positionalNumeral_of_lt (he : e + 1 = count) (hpos : 0 < count)
    (hcount : count < digits.length) :
    style.positionalNumeral negative digits e
      = ⟨negative, digits.take count, digits.drop count, none⟩ := by
  have hzeros : (-e - 1).toNat = 0 := by omega
  have hpad : count - digits.length = 0 := by omega
  have hwhole : digits.take count ≠ [] := by
    rw [← List.length_pos_iff, List.length_take]
    omega
  have hfraction : digits.drop count ≠ [] := by
    rw [← List.length_pos_iff, List.length_drop]
    omega
  simp [positionalNumeral, he, hzeros, hpad, hwhole, hfraction]

/-- The three places where the point can stand. -/
theorem point_cases (digits : List Char) (e : Int) : e < 0 ∨ ∃ count : Nat, e + 1 = count ∧
    0 < count ∧ (digits.length ≤ count ∨ count < digits.length) := by
  rcases Int.lt_or_le e 0 with hneg | hnonneg
  · exact .inl hneg
  · obtain ⟨n, rfl⟩ := Int.eq_ofNat_of_zero_le hnonneg
    exact .inr ⟨n + 1, rfl, Nat.succ_pos n, (Nat.lt_or_ge (n + 1) digits.length).symm⟩

/-- **Digits laid out without an exponent mark denote their decimal**, up to zeros at the end. -/
theorem pattern_positionalNumeral (h : digits ≠ []) :
    (style.positionalNumeral negative digits e).decimal.pattern
      = Decimal.pattern ⟨digitsValue digits, e + 1 - digits.length⟩ := by
  rcases point_cases digits e with he | ⟨count, he, hpos, hcount | hcount⟩
  · have hdigits : digitsValue ('0' :: (List.replicate (-e - 1).toNat '0' ++ digits))
        = digitsValue digits := by
      rw [← List.cons_append, ← List.replicate_succ, digitsValue_append,
        digitsValue_replicate_zero, Nat.zero_mul, Nat.zero_add]
    have hexponent : (0 : Int) - (List.replicate (-e - 1).toNat '0' ++ digits).length
        = e + 1 - digits.length := by
      rw [List.length_append, List.length_replicate]
      omega
    rw [positionalNumeral_of_neg h he, ← hdigits, ← hexponent]
    rfl
  · -- the zeros behind the digits, with the one behind the point
    have hzeros : ∀ fraction : List Char, fraction = List.replicate fraction.length '0' →
        (⟨negative, digits ++ List.replicate (count - digits.length) '0', fraction, none⟩ :
          Numeral).decimal.pattern
          = Decimal.pattern ⟨digitsValue digits, e + 1 - digits.length⟩ := by
      intro fraction hfraction
      have hdigits : digitsValue (digits ++ List.replicate (count - digits.length) '0' ++ fraction)
          = digitsValue digits * pow10 (count - digits.length + fraction.length) := by
        rw [hfraction, List.append_assoc, List.replicate_append_replicate, digitsValue_append,
          digitsValue_replicate_zero, List.length_replicate, List.length_replicate, Nat.add_zero]
      have hexponent : (0 : Int) - fraction.length + ↑(count - digits.length + fraction.length)
          = e + 1 - digits.length := by omega
      rw [← hexponent, ← Decimal.pattern_mul_pow10, ← hdigits]
      rfl
    rw [positionalNumeral_of_le h he hcount]
    refine hzeros _ ?_
    split <;> rfl
  · have hexponent : (0 : Int) - (digits.drop count).length = e + 1 - digits.length := by
      rw [List.length_drop]
      omega
    rw [positionalNumeral_of_lt he hpos hcount, ← hexponent]
    show Decimal.pattern ⟨digitsValue (digits.take count ++ digits.drop count), _⟩ = _
    rw [List.take_append_drop]
    rfl

theorem decimal_scientificNumeral (h : digits ≠ []) :
    (scientificNumeral negative digits e).decimal
      = ⟨digitsValue digits, e + 1 - digits.length⟩ := by
  have hlen := List.length_pos_iff.2 h
  have hexponent : (scientificNumeral negative digits e).exponentValue = e := by
    simp only [scientificNumeral, Numeral.exponentValue, digitsValue_toDigits, decide_eq_true_eq]
    split <;> omega
  have hfraction : e - ((digits.drop 1).length : Int) = e + 1 - digits.length := by
    rw [List.length_drop]
    omega
  rw [Numeral.decimal, hexponent, ← hfraction]
  show Decimal.mk (digitsValue (digits.take 1 ++ digits.drop 1)) _ = _
  rw [List.take_append_drop]
  rfl

end Layout

/-- The nearest pattern to a numeral is that of the value. -/
theorem pattern_numeral (style : DecimalStyle) {x : Single} (hx : x.isFinite) :
    (style.numeral x).decimal.pattern = x.pattern := by
  unfold numeral
  split
  · rename_i hzero
    rw [pattern_positionalNumeral (by decide), hzero]
    decide +kernel
  · rename_i hpos
    have hdigits : digitsValue (Nat.toDigits 10 (x.shortest style.tie).significand)
        = (x.shortest style.tie).significand := digitsValue_toDigits _
    have hround : Decimal.pattern (x.shortest style.tie) = x.pattern :=
      Single.round_shortest style.tie hx (Nat.pos_of_ne_zero hpos)
    have hexponent : ∀ len : Int, len - 1 + (x.shortest style.tie).exponent + 1 - len
        = (x.shortest style.tie).exponent := fun len => by omega
    dsimp only
    split
    · rw [pattern_positionalNumeral Nat.toDigits_ne_nil, hdigits, hexponent]
      exact hround
    · rw [decimal_scientificNumeral Nat.toDigits_ne_nil, hdigits, hexponent]
      exact hround

/-- **The nearest value to the numeral of a value is the value.** -/
theorem nearest_numeral (style : DecimalStyle) {x : Single} (hx : x.isFinite) :
    (style.numeral x).nearest = x := by
  have hnegative : (style.numeral x).negative = x.negative := by
    unfold numeral
    split
    · rfl
    · dsimp only
      split <;> rfl
  rw [Numeral.nearest, pattern_numeral style hx, hnegative, Single.ofPattern_pattern]

/-! ## Form -/

section Form

variable {style : DecimalStyle} {negative : Bool} {digits : List Char} {e : Int}

theorem isDigit_of_mem_replicate {k : Nat} {c : Char} (h : c ∈ List.replicate k '0') :
    c.isDigit := by
  rw [(List.mem_replicate.1 h).2]
  rfl

/-- Digits without leading zeros are written as a number has to be. -/
theorem isWritten_positionalNumeral (h : digits ≠ []) (hdigits : ∀ c ∈ digits, c.isDigit)
    (hzero : digits.head? = some '0' → digits = ['0'] ∧ e = 0) :
    (style.positionalNumeral negative digits e).IsWritten := by
  rcases point_cases digits e with he | ⟨count, he, hpos, hcount | hcount⟩
  · rw [positionalNumeral_of_neg h he]
    refine ⟨⟨by simp, by simp⟩, fun _ => rfl, fun c hc => ?_, nofun⟩
    exact (List.mem_append.1 hc).elim isDigit_of_mem_replicate (hdigits c)
  · rw [positionalNumeral_of_le h he hcount]
    refine ⟨⟨by simp [h], fun c hc => ?_⟩, fun hhead => ?_, fun c hc => ?_, nofun⟩
    · exact (List.mem_append.1 hc).elim (hdigits c) isDigit_of_mem_replicate
    · obtain ⟨d, ds, rfl⟩ := List.exists_cons_of_ne_nil h
      obtain ⟨hdigits, rfl⟩ := hzero hhead
      obtain rfl : count = 1 := by omega
      rw [hdigits]
      rfl
    · revert hc
      split <;> simp +contextual
  · rw [positionalNumeral_of_lt he hpos hcount]
    refine ⟨⟨?_, fun c hc => hdigits c (List.mem_of_mem_take hc)⟩, fun hhead => ?_,
      fun c hc => hdigits c (List.mem_of_mem_drop hc), nofun⟩
    · rw [← List.length_pos_iff, List.length_take]
      omega
    · -- a single zero has no place for the point inside
      obtain ⟨d, ds, rfl⟩ := List.exists_cons_of_ne_nil h
      obtain ⟨n, rfl⟩ := Nat.exists_eq_succ_of_ne_zero (Nat.ne_of_gt hpos)
      obtain ⟨hdigits, -⟩ := hzero hhead
      rw [hdigits] at hcount
      cases hcount with
      | step h => cases h

theorem isWritten_scientificNumeral (h : digits ≠ []) (hdigits : ∀ c ∈ digits, c.isDigit)
    (hzero : digits.head? ≠ some '0') : (scientificNumeral negative digits e).IsWritten := by
  obtain ⟨d, ds, rfl⟩ := List.exists_cons_of_ne_nil h
  obtain ⟨hd, hds⟩ := List.forall_mem_cons.1 hdigits
  refine ⟨⟨by simp [scientificNumeral], by simpa [scientificNumeral] using hd⟩,
    fun hhead => absurd hhead hzero, hds, ?_⟩
  rintro _ _ ⟨⟩
  exact ⟨Nat.toDigits_ne_nil, fun c hc => Nat.isDigit_of_mem_toDigits (by decide) (by decide) hc⟩

/-- **Values are written as numbers have to be.** -/
theorem isWritten_numeral (style : DecimalStyle) (x : Single) : (style.numeral x).IsWritten := by
  unfold numeral
  split
  · exact isWritten_positionalNumeral (List.cons_ne_nil _ _)
      (List.forall_mem_singleton.2 rfl) fun _ => ⟨rfl, rfl⟩
  · rename_i hpos
    have hhead := head?_toDigits
      (Single.significand_shortest_pos style.tie (Nat.pos_of_ne_zero hpos))
    have hdigits : ∀ c ∈ Nat.toDigits 10 (x.shortest style.tie).significand, c.isDigit :=
      fun c hc => Nat.isDigit_of_mem_toDigits (by decide) (by decide) hc
    dsimp only
    split
    · exact isWritten_positionalNumeral Nat.toDigits_ne_nil hdigits fun h => absurd h hhead
    · exact isWritten_scientificNumeral Nat.toDigits_ne_nil hdigits hhead

end Form

end DecimalStyle

end Flipbook
