import Mathlib.Data.Nat.Bitwise
import Mathlib.Tactic.Ring

/-!
# Unsigned 64-bit arithmetic on natural numbers

Machine words are natural numbers below `2 ^ 64`, and each operation reduces its result explicitly.
Rounding to a power of two is the bit-mask idiom `a & ~(align - 1)`; the lemmas below turn
it into division, the form in which `omega` can use it.
-/

namespace Words

/-- The wrapping sum of two 64-bit words. -/
def add64 (a b : ℕ) : ℕ := (a + b) % 2 ^ 64

/-- The wrapping difference of two 64-bit words. -/
def sub64 (a b : ℕ) : ℕ := (a + (2 ^ 64 - b % 2 ^ 64)) % 2 ^ 64

/-- The mask `a & ~(align - 1)`. -/
def maskDown (a align : ℕ) : ℕ := a &&& (2 ^ 64 - align)

/-- The mask `(a + (align - 1)) & ~(align - 1)`, in which the sum may wrap. -/
def maskUp (a align : ℕ) : ℕ := maskDown (add64 a (align - 1)) align

/-- The least multiple of `align` that is not below `a`. -/
def roundUp (a align : ℕ) : ℕ := (a + (align - 1)) / align * align

theorem add64_lt (a b : ℕ) : add64 a b < 2 ^ 64 := Nat.mod_lt _ (by decide)

/-- A sum that fits its word is the ordinary sum. -/
theorem add64_of_lt {a b : ℕ} (h : a + b < 2 ^ 64) : add64 a b = a + b := Nat.mod_eq_of_lt h

/-- A sum that overflows its word loses exactly one modulus. -/
theorem add64_of_le {a b : ℕ} (ha : a < 2 ^ 64) (hb : b < 2 ^ 64) (h : 2 ^ 64 ≤ a + b) :
    add64 a b = a + b - 2 ^ 64 := by
  unfold add64
  omega

/-- A difference of ordered words is the ordinary difference. -/
theorem sub64_of_le {a b : ℕ} (ha : a < 2 ^ 64) (h : b ≤ a) : sub64 a b = a - b := by
  unfold sub64
  omega

/-- Masking with a power of two rounds down to a multiple of it. -/
theorem maskDown_two_pow {a k : ℕ} (hk : k ≤ 64) (ha : a < 2 ^ 64) :
    maskDown a (2 ^ k) = a / 2 ^ k * 2 ^ k := by
  have hmask : 2 ^ 64 - 2 ^ k = (2 ^ (64 - k) - 1) <<< k := by
    rw [Nat.shiftLeft_eq, Nat.sub_mul, ← pow_add, Nat.sub_add_cancel hk, one_mul]
  have hsplit : a &&& (2 ^ (64 - k) - 1) <<< k = ((a >>> k) &&& (2 ^ (64 - k) - 1)) <<< k := by
    apply Nat.eq_of_testBit_eq
    intro i
    simp only [Nat.testBit_and, Nat.testBit_shiftLeft, Nat.testBit_shiftRight]
    by_cases hi : k ≤ i
    · simp [hi]
    · simp [hi]
  have hsmall : a >>> k < 2 ^ (64 - k) := by
    rw [Nat.shiftRight_eq_div_pow, Nat.div_lt_iff_lt_mul (Nat.two_pow_pos k), ← pow_add,
      Nat.sub_add_cancel hk]
    exact ha
  rw [maskDown, hmask, hsplit, Nat.and_two_pow_sub_one_eq_mod, Nat.mod_eq_of_lt hsmall,
    Nat.shiftLeft_eq, Nat.shiftRight_eq_div_pow]

/-- A masked word is no larger than the word. -/
theorem maskDown_le (a align : ℕ) : maskDown a align ≤ a := Nat.and_le_left

/-- Masking gives a multiple of the power of two, whatever the word. -/
theorem maskDown_dvd (a : ℕ) {k : ℕ} (hk : k ≤ 64) : 2 ^ k ∣ maskDown a (2 ^ k) := by
  have hmask : (2 ^ 64 - 2 ^ k) % 2 ^ k = 0 :=
    Nat.mod_eq_zero_of_dvd (Nat.dvd_sub (pow_dvd_pow 2 hk) (dvd_refl _))
  rw [Nat.dvd_iff_mod_eq_zero, maskDown, Nat.and_mod_two_pow, hmask, Nat.and_zero]

/-- Rounding up stays exact as long as the intermediate sum does not wrap. -/
theorem maskUp_two_pow {a k : ℕ} (hk : k ≤ 64) (ha : a + (2 ^ k - 1) < 2 ^ 64) :
    maskUp a (2 ^ k) = (a + (2 ^ k - 1)) / 2 ^ k * 2 ^ k := by
  rw [maskUp, add64_of_lt ha, maskDown_two_pow hk ha]

/-- The result of rounding is a multiple of the power of two, even when the sum wraps. -/
theorem maskUp_dvd {a k : ℕ} (hk : k ≤ 64) : 2 ^ k ∣ maskUp a (2 ^ k) := maskDown_dvd _ hk

theorem le_roundUp (a : ℕ) {align : ℕ} (hpos : 0 < align) : a ≤ roundUp a align := by
  have hdiv := Nat.div_add_mod' (a + (align - 1)) align
  have hmod := Nat.mod_lt (a + (align - 1)) hpos
  unfold roundUp
  omega

theorem dvd_roundUp (a align : ℕ) : align ∣ roundUp a align := Nat.dvd_mul_left _ _

/-- A multiple is its own rounding. -/
theorem roundUp_of_dvd {a align : ℕ} (hpos : 0 < align) (h : align ∣ a) : roundUp a align = a := by
  obtain ⟨q, rfl⟩ := h
  rw [roundUp, Nat.mul_add_div hpos, Nat.div_eq_of_lt (by omega), Nat.add_zero, Nat.mul_comm]

/-- The mask rounds up exactly if the rounded word still fits. -/
theorem maskUp_eq_roundUp {a k : ℕ} (hk : k ≤ 64) (h : roundUp a (2 ^ k) < 2 ^ 64) :
    maskUp a (2 ^ k) = roundUp a (2 ^ k) := by
  refine maskUp_two_pow hk ?_
  have hle := le_roundUp a (Nat.two_pow_pos k)
  have hgap : 2 ^ k ≤ 2 ^ 64 - roundUp a (2 ^ k) :=
    Nat.le_of_dvd (by omega) (Nat.dvd_sub (pow_dvd_pow 2 hk) (dvd_roundUp a (2 ^ k)))
  omega

end Words
