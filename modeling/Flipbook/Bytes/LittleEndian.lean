import Flipbook.Number.Power

/-!
# Bytes/LittleEndian — numbers as bytes, the least significant first

`littleEndian` writes the lowest bytes of a number and `ofLittleEndian` reads bytes back.  What is
read is the number that was written, cut to its width (`ofLittleEndian_littleEndian`).
-/

namespace Flipbook

/-- The `width` lowest bytes of a number, the least significant first. -/
def littleEndian : (width : Nat) → Nat → List UInt8
  | 0, _ => []
  | width + 1, n => UInt8.ofNat n :: littleEndian width (n / 256)

/-- The number that some bytes stand for, the least significant first. -/
def ofLittleEndian : List UInt8 → Nat
  | [] => 0
  | b :: bs => b.toNat + 256 * ofLittleEndian bs

@[simp] theorem length_littleEndian (width n : Nat) : (littleEndian width n).length = width := by
  induction width generalizing n with
  | zero => rfl
  | succ width ih => simp [littleEndian, ih]

/-- **Reading gives the number that was written**, cut to the bits that the bytes hold. -/
theorem ofLittleEndian_littleEndian (width n : Nat) :
    ofLittleEndian (littleEndian width n) = n % pow2 (8 * width) := by
  induction width generalizing n with
  | zero => simp [littleEndian, ofLittleEndian, pow2, Nat.mod_one]
  | succ width ih =>
    have hpow : pow2 (8 * (width + 1)) = 256 * pow2 (8 * width) := by
      rw [Nat.mul_succ, pow2_add, Nat.mul_comm]; rfl
    have hbyte : (UInt8.ofNat n).toNat = n % 256 := by simp
    rw [littleEndian, ofLittleEndian, ih, hpow, hbyte, Nat.mod_mul]

end Flipbook
