import Vardoger.Dex.Dalvik

/-!
# The check of a code item

`DexFile::code_at` checks that the header of a code item and its instructions lie inside the file,
and the interpreter relies on that. The end of the header is computed in 32 bits, so an offset
close to `2 ^ 32` passes the check. The header is then read from behind the file, where any bytes
may be.
-/

namespace Vardoger.Dex

open LittleEndian Dalvik

/-- `code_at` with the bytes that follow the file in memory. The copies are not bounded by the size
of the file. -/
def codeAtBefore (beyond d : List UInt8) (codeOff : ℕ) : Code :=
  if codeOff = 0 ∨ (codeOff + 16) % 2 ^ 32 > d.length then {}
  else
    { registersSize := wordAt 2 (d ++ beyond) codeOff
      insSize := wordAt 2 (d ++ beyond) (codeOff + 2)
      outsSize := wordAt 2 (d ++ beyond) (codeOff + 4)
      insnsSize := wordAt 4 (d ++ beyond) (codeOff + 12)
      insnsOff := (codeOff + 16) % 2 ^ 32
      valid := (codeOff + 16) % 2 ^ 32 + wordAt 4 (d ++ beyond) (codeOff + 12) * 2 ≤ d.length }

/-- The header and the instructions that it declares lie inside the file. -/
def CodeInside (d : List UInt8) (codeOff : ℕ) : Prop :=
  codeOff ≠ 0 ∧ codeOff + 16 ≤ d.length ∧
    codeOff + 16 + 2 * wordAt 4 d (codeOff + 12) ≤ d.length

/-- The code item is accepted exactly if it lies inside the file, and then every unit that the
interpreter fetches does too. -/
structure Validates (d : List UInt8) (codeOff : ℕ) (code : Code) : Prop where
  valid_iff : code.valid = true ↔ CodeInside d codeOff
  insnsOff : code.valid = true → code.insnsOff = codeOff + 16
  fetches : code.valid = true → ∀ pc : BitVec 32, pc.toNat < code.insnsSize →
    (insnAddr code pc).toNat + 2 ≤ d.length

variable {beyond d : List UInt8} {codeOff : ℕ}

/-- A word inside the file is not affected by what follows. -/
theorem wordAt_append {n o : ℕ} (h : o + n ≤ d.length) :
    wordAt n (d ++ beyond) o = wordAt n d o :=
  wordAt_congr fun i _ hi => List.getElem?_append_left (by omega)

/-- A unit of a code item that ends inside the file. -/
theorem insnAddr_lt {code : Code} (hend : code.insnsOff + 2 * code.insnsSize ≤ d.length)
    (hd : d.length < 2 ^ 32) (pc : BitVec 32) (hpc : pc.toNat < code.insnsSize) :
    (insnAddr code pc).toNat + 2 ≤ d.length := by
  have haddr : (insnAddr code pc).toNat = code.insnsOff + pc.toNat * 2 := by
    rw [insnAddr, BitVec.toNat_add, BitVec.toNat_mul, BitVec.toNat_ofNat]
    change (_ + _ * 2 % _) % _ = _
    omega
  omega

/-- An offset whose header ends below `2 ^ 32` is checked rightly. -/
theorem validates_of_lt (hd : d.length < 2 ^ 32) (hoff : codeOff + 16 < 2 ^ 32) :
    Validates d codeOff (codeAtBefore beyond d codeOff) := by
  have hsum : (codeOff + 16) % 2 ^ 32 = codeOff + 16 := Nat.mod_eq_of_lt hoff
  rw [codeAtBefore, hsum]
  by_cases hrefused : codeOff = 0 ∨ codeOff + 16 > d.length
  · rw [if_pos hrefused]
    have hnot : ¬CodeInside d codeOff := by
      rintro ⟨hne, hinside, -⟩
      omega
    exact ⟨iff_of_false Bool.false_ne_true hnot, fun h => absurd h Bool.false_ne_true,
      fun h => absurd h Bool.false_ne_true⟩
  · rw [if_neg hrefused, wordAt_append (show codeOff + 12 + 4 ≤ d.length by omega)]
    constructor
    · rw [decide_eq_true_iff, CodeInside]
      omega
    · intro _
      rfl
    · intro hvalid
      have hend := of_decide_eq_true hvalid
      apply insnAddr_lt _ hd
      dsimp only
      omega

/-- A word that starts in the last four bytes of the address range does not fill up: at most three
of its bytes are inside the file. -/
theorem wordAt_straddling {o : ℕ} (hd : d.length < 2 ^ 32) (ho : 2 ^ 32 ≤ o + 4) :
    wordAt 4 d o = 0 ∨ wordAt 4 d o < 2 ^ 24 ∧ 2 ^ 32 ≤ d.length + 3 := by
  by_cases hout : d.length ≤ o
  · left
    rw [wordAt, List.drop_eq_nil_of_le hout]
    rfl
  · right
    have hlength : ((d.drop o).take 4).length ≤ 3 := by
      rw [List.length_take, List.length_drop]
      omega
    have hlt := ofBytes_lt ((d.drop o).take 4)
    have hpow : 256 ^ ((d.drop o).take 4).length ≤ 256 ^ 3 :=
      Nat.pow_le_pow_right (by decide) hlength
    exact ⟨lt_of_lt_of_le hlt hpow, by omega⟩

/-- An offset whose header ends behind `2 ^ 32`, but not behind the end of the file modulo
`2 ^ 32`, is accepted if zeros follow the file. -/
theorem not_validates_of_le (hd : d.length < 2 ^ 32) (hword : codeOff < 2 ^ 32)
    (hoff : 2 ^ 32 ≤ codeOff + 16) (hlow : codeOff + 16 - 2 ^ 32 ≤ d.length) :
    ¬Validates d codeOff (codeAtBefore [] d codeOff) := by
  intro h
  have hsum : (codeOff + 16) % 2 ^ 32 = codeOff + 16 - 2 ^ 32 := by omega
  have hend : codeOff + 16 - 2 ^ 32 + wordAt 4 d (codeOff + 12) * 2 ≤ d.length := by
    rcases wordAt_straddling hd (o := codeOff + 12) (by omega) with hzero | ⟨hsmall, hlength⟩
    · omega
    · omega
  have haccepted : ¬(codeOff = 0 ∨ codeOff + 16 - 2 ^ 32 > d.length) := by omega
  have hvalid : (codeAtBefore [] d codeOff).valid = true := by
    rw [codeAtBefore, hsum, if_neg haccepted, List.append_nil]
    exact decide_eq_true hend
  have hinside := (h.valid_iff.mp hvalid).2.1
  omega

/-- For every file below 4 GiB and every offset of 32 bits: whatever follows the file in memory, the
code item is checked rightly, if and only if the end of its header does not wrap around to a
position inside the file. -/
theorem codeAt_validates_iff (d : List UInt8) (codeOff : ℕ) (hd : d.length < 2 ^ 32)
    (hoff : codeOff < 2 ^ 32) :
    (∀ beyond, Validates d codeOff (codeAtBefore beyond d codeOff)) ↔
      codeOff + 16 < 2 ^ 32 ∨ d.length < codeOff + 16 - 2 ^ 32 := by
  constructor
  · intro h
    by_contra hwraps
    exact not_validates_of_le hd hoff (by omega) (by omega) (h [])
  · rintro (hlow | hshort) beyond
    · exact validates_of_lt hd hlow
    · have hrefused : codeOff = 0 ∨ (codeOff + 16) % 2 ^ 32 > d.length := by omega
      have hnot : ¬CodeInside d codeOff := by
        rintro ⟨-, hinside, -⟩
        omega
      rw [codeAtBefore, if_pos hrefused]
      exact ⟨iff_of_false Bool.false_ne_true hnot, fun h => absurd h Bool.false_ne_true,
        fun h => absurd h Bool.false_ne_true⟩

/-- A code item with one instruction. -/
theorem codeAt_validates_one :
    Validates ([0, 1] ++ List.replicate 11 0 ++ [1, 0, 0, 0, 14, 0]) 1
      (codeAtBefore [] ([0, 1] ++ List.replicate 11 0 ++ [1, 0, 0, 0, 14, 0]) 1) :=
  (codeAt_validates_iff _ 1 (by decide) (by decide)).mpr (.inl (by decide)) []

/-- In a file of 112 bytes, the code item at `0xfffffff0` is accepted. -/
theorem codeAt_accepts_wrapped :
    (codeAtBefore [] (List.replicate 112 0) 0xfffffff0).valid = true ∧
      ¬CodeInside (List.replicate 112 0) 0xfffffff0 := by
  constructor
  · decide
  · rintro ⟨-, hinside, -⟩
    rw [List.length_replicate] at hinside
    omega

end Vardoger.Dex
