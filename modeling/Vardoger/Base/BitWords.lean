import Mathlib.Algebra.Group.Int.Defs
import Mathlib.Algebra.Group.Nat.Defs

/-!
# Truncated words and displacements

Facts about bit vectors that are split into bytes or narrowed to a field: the parts give the word
back, and a narrowed difference of two counters is their integer difference, reduced to the signed
range of the field.
-/

namespace BitWords

/-- The two bytes of a unit give the unit back. -/
theorem low_or_high (v : BitVec 16) :
    (v.setWidth 8).setWidth 16 ||| (((v >>> 8).setWidth 8).setWidth 16 <<< 8) = v := by
  apply BitVec.eq_of_getLsbD_eq
  intro i hi
  simp only [BitVec.getLsbD_or, BitVec.getLsbD_setWidth, BitVec.getLsbD_shiftLeft,
    BitVec.getLsbD_ushiftRight]
  by_cases hlow : i < 8
  · simp [hi, hlow]
  · simp [hi, hlow, show 8 + (i - 8) = i by omega, show i - 8 < 8 by omega,
      show i - 8 < 16 by omega]

/-- The two halves of a 32-bit word give the word back. -/
theorem high_append_low (v : BitVec 32) :
    ((v >>> 16).setWidth 16 ++ v.setWidth 16 : BitVec 32) = v := by
  apply BitVec.eq_of_getLsbD_eq
  intro i hi
  simp only [BitVec.getLsbD_append, BitVec.getLsbD_setWidth, BitVec.getLsbD_ushiftRight]
  by_cases hlow : i < 16
  · simp [hlow]
  · simp [hlow, show 16 + (i - 16) = i by omega, show i - 16 < 16 by omega]

/-- A word below a power of two has no bits from there on. -/
theorem getLsbD_of_lt {w n i : ℕ} {v : BitVec w} (hv : v.toNat < 2 ^ n) (hi : n ≤ i) :
    v.getLsbD i = false := by
  rw [← BitVec.testBit_toNat]
  exact Nat.testBit_lt_two_pow (Nat.lt_of_lt_of_le hv (Nat.pow_le_pow_right (by decide) hi))

/-- A byte stored above another one is read back whatever the lower one is. -/
theorem high_byte (x : BitVec 64) {low : BitVec 64} (hlow : low.toNat < 2 ^ 8) :
    ((x <<< 8 ||| low).setWidth 16 >>> 8).setWidth 8 = x.setWidth 8 := by
  apply BitVec.eq_of_getLsbD_eq
  intro i hi
  simp only [BitVec.getLsbD_or, BitVec.getLsbD_setWidth, BitVec.getLsbD_shiftLeft,
    BitVec.getLsbD_ushiftRight, getLsbD_of_lt hlow (Nat.le_add_right 8 i),
    Nat.add_sub_cancel_left]
  simp [hi, show 8 + i < 16 by omega, show 8 + i < 64 by omega]

/-- A byte stored below another one is read back whatever the higher one is. -/
theorem low_byte (x : BitVec 64) {low : BitVec 64} (hlow : low.toNat < 2 ^ 8) :
    (x <<< 8 ||| low).setWidth 16 &&& 0xff = low.setWidth 16 := by
  have hmask : ∀ i < 16, (0xff : BitVec 16).getLsbD i = decide (i < 8) := by decide
  apply BitVec.eq_of_getLsbD_eq
  intro i hi
  simp only [BitVec.getLsbD_and, BitVec.getLsbD_or, BitVec.getLsbD_setWidth,
    BitVec.getLsbD_shiftLeft, hmask i hi]
  by_cases hbyte : i < 8
  · simp [hi, hbyte]
  · simp [hbyte, getLsbD_of_lt hlow (Nat.le_of_not_lt hbyte)]

theorem setWidth_and_byte (x : BitVec 64) : (x &&& 0xff).setWidth 8 = x.setWidth 8 := by
  have hmask : ∀ i < 8, (0xff : BitVec 64).getLsbD i = true := by decide
  apply BitVec.eq_of_getLsbD_eq
  intro i hi
  simp only [BitVec.getLsbD_setWidth, BitVec.getLsbD_and, hmask i hi, Bool.and_true]

/-- The difference of two wrapped counters, narrowed to a field of `w` bits, is the difference of
the counters in the signed range of the field. -/
theorem toInt_setWidth_sub {w : ℕ} (hw : w ≤ 32) (t o : ℕ) :
    (((BitVec.ofNat 32 t).signExtend 64 - (BitVec.ofNat 32 o).signExtend 64).setWidth w).toInt =
      ((t : ℤ) - o).bmod (2 ^ w) := by
  have hfield : 2 ^ w ∣ 2 ^ 32 := Nat.pow_dvd_pow 2 hw
  have hword : 2 ^ w ∣ 2 ^ 64 := Nat.pow_dvd_pow 2 (by omega)
  rw [← BitVec.signExtend_eq_setWidth_of_le _ (by omega),
    BitVec.toInt_signExtend_eq_toInt_bmod_of_le _ (by omega), BitVec.toInt_sub,
    Int.bmod_bmod_of_dvd hword, BitVec.toInt_signExtend_of_le (by decide),
    BitVec.toInt_signExtend_of_le (by decide), BitVec.toInt_ofNat', BitVec.toInt_ofNat',
    ← Int.bmod_bmod_of_dvd hfield, Int.bmod_sub_bmod, Int.sub_bmod_bmod,
    Int.bmod_bmod_of_dvd hfield]

/-- Reduction to the signed range of a field changes exactly the values outside of it. -/
theorem bmod_eq_self_iff {w : ℕ} (hw : 0 < w) (d : ℤ) :
    d.bmod (2 ^ w) = d ↔ -(2 ^ (w - 1) : ℤ) ≤ d ∧ d < 2 ^ (w - 1) := by
  obtain ⟨k, rfl⟩ : ∃ k, w = k + 1 := ⟨w - 1, by omega⟩
  rw [Int.bmod_eq_iff (Nat.two_pow_pos _), Nat.add_sub_cancel, Nat.pow_succ]
  push_cast
  simp only [Int.sub_self, Int.dvd_zero, and_true]
  omega

/-- A number in the signed range of a field is read back from the field. -/
theorem signExtend_setWidth {n v w : ℕ} (hn : 0 < n) (hle : n ≤ v) (hv : v ≤ w) (x : BitVec w)
    (hlo : -(2 ^ (n - 1) : ℤ) ≤ x.toInt) (hhi : x.toInt < 2 ^ (n - 1)) :
    (x.setWidth n).signExtend v = x.setWidth v := by
  have hbmod : ∀ k, n ≤ k → x.toInt.bmod (2 ^ k) = x.toInt := by
    intro k hk
    have hpow : (2 : ℤ) ^ (n - 1) ≤ 2 ^ (k - 1) := by
      exact_mod_cast Nat.pow_le_pow_right (by decide) (Nat.sub_le_sub_right hk 1)
    exact (bmod_eq_self_iff (by omega) _).mpr ⟨by omega, by omega⟩
  apply BitVec.eq_of_toInt_eq
  rw [BitVec.toInt_signExtend_of_le hle, ← BitVec.signExtend_eq_setWidth_of_le x (by omega),
    ← BitVec.signExtend_eq_setWidth_of_le x hv,
    BitVec.toInt_signExtend_eq_toInt_bmod_of_le x (by omega),
    BitVec.toInt_signExtend_eq_toInt_bmod_of_le x hv, hbmod n (Nat.le_refl n), hbmod v hle]

/-- Narrowing undoes a sign extension. -/
theorem setWidth_signExtend_of_le {n w v : ℕ} (hn : n ≤ w) (hw : w ≤ v) (x : BitVec w) :
    (x.signExtend v).setWidth n = x.setWidth n := by
  apply BitVec.eq_of_getLsbD_eq
  intro i hi
  have hiw : i < w := Nat.lt_of_lt_of_le hi hn
  have hiv : i < v := Nat.lt_of_lt_of_le hiw hw
  simp only [BitVec.getLsbD_setWidth, BitVec.getLsbD_signExtend, hi, hiw, hiv, decide_true,
    Bool.true_and, if_true]

theorem setWidth_signExtend {w v : ℕ} (hwv : w ≤ v) (x : BitVec w) :
    (x.signExtend v).setWidth w = x := by
  rw [setWidth_signExtend_of_le (Nat.le_refl w) hwv, BitVec.setWidth_eq]

theorem signExtend_signExtend {n w v : ℕ} (hn : n ≤ w) (hw : w ≤ v) (x : BitVec n) :
    (x.signExtend w).signExtend v = x.signExtend v := by
  apply BitVec.eq_of_toInt_eq
  rw [BitVec.toInt_signExtend_of_le hw, BitVec.toInt_signExtend_of_le hn,
    BitVec.toInt_signExtend_of_le (Nat.le_trans hn hw)]

/-- A widened word has no sign. -/
theorem signExtend_setWidth_of_lt {n w v : ℕ} (hn : n < w) (hw : w ≤ v) (x : BitVec n) :
    (x.setWidth w).signExtend v = x.setWidth v := by
  have hmsb : (x.setWidth w).msb = false := by
    rw [BitVec.msb_setWidth, getLsbD_of_lt x.isLt (by omega), Bool.and_false]
  rw [BitVec.signExtend_eq_setWidth_of_msb_false hmsb]
  apply BitVec.eq_of_toNat_eq
  rw [BitVec.toNat_setWidth_of_le hw, BitVec.toNat_setWidth_of_le (Nat.le_of_lt hn),
    BitVec.toNat_setWidth_of_le (by omega)]

/-- A word in the lower half of its range keeps its value. -/
theorem toInt_signExtend {w v : ℕ} (hwv : w ≤ v) {x : BitVec w} (hx : x.toNat < 2 ^ (w - 1)) :
    (x.signExtend v).toInt = x.toNat := by
  rw [BitVec.toInt_signExtend_of_le hwv, BitVec.toInt_eq_toNat_of_lt]
  cases w with
  | zero => simp [BitVec.of_length_zero]
  | succ w =>
    rw [Nat.pow_succ]
    simp only [Nat.add_sub_cancel] at hx
    omega

theorem toNat_signExtend {w v : ℕ} (hwv : w ≤ v) {x : BitVec w} (hx : x.toNat < 2 ^ (w - 1)) :
    (x.signExtend v).toNat = x.toNat := by
  have hvalue := toInt_signExtend hwv hx
  rw [BitVec.toInt_eq_toNat_cond] at hvalue
  have hlt := (x.signExtend v).isLt
  split at hvalue <;> omega

/-- A left shift multiplies the signed value. -/
theorem toInt_shiftLeft {w : ℕ} (x : BitVec w) (n : ℕ) :
    (x <<< n).toInt = (x.toInt * 2 ^ n).bmod (2 ^ w) := by
  rw [BitVec.toInt_shiftLeft, BitVec.toInt_eq_toNat_bmod, Int.bmod_mul_bmod, Nat.shiftLeft_eq]
  push_cast
  rfl

end BitWords
