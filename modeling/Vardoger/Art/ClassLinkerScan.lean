import Mathlib.Data.Nat.Notation

/-!
# The scan for `Runtime::class_linker_`

The bring-up looks through the machine code of `DefineClass` for the `adrp` and `ldr` that load
`Runtime::instance_`, and takes the first larger offset from the loaded pointer for that of
`class_linker_`. The immediate of `adrp` is a signed number of pages; the scan takes it for an
unsigned one.
-/

namespace Vardoger.Art

/-- The registers that hold the page of `instance_` and the runtime. -/
structure Scan where
  adrpReg : Option (BitVec 5) := none
  runtimeReg : Option (BitVec 5) := none
  deriving DecidableEq, Repr

def isAdrp (insn : BitVec 32) : Bool := insn &&& 0x9F000000 == 0x90000000

def isLdr (insn : BitVec 32) : Bool := insn &&& 0xFFC00000 == 0xF9400000

/-- The page target of an `adrp`. -/
def adrpTarget (pc : BitVec 64) (insn : BitVec 32) : BitVec 64 :=
  let immhi := (insn >>> 5 &&& 0x7FFFF).setWidth 64
  let immlo := (insn >>> 29 &&& 0x3).setWidth 64
  let imm := (immhi <<< 2 ||| immlo) <<< 12
  (pc &&& ~~~0xFFF) + imm

/-- One instruction: the state behind it, or the offset at which the scan ends. -/
def scanInsn (page : BitVec 64) (low : BitVec 32) (pc : BitVec 64) (insn : BitVec 32) (s : Scan) :
    Scan ⊕ BitVec 32 :=
  if isAdrp insn then
    if adrpTarget pc insn = page then .inl { s with adrpReg := some (insn.setWidth 5) } else .inl s
  else if isLdr insn then
    let rt := insn.setWidth 5
    let rn := (insn >>> 5).setWidth 5
    let off := (insn >>> 10 &&& 0xFFF) * 8
    if some rn = s.adrpReg ∧ off = low then .inl { s with runtimeReg := some rt }
    else if some rn = s.runtimeReg ∧ 0x100 ≤ off then .inr off
    else .inl s
  else .inl s

/-- The offset for API 31, which is kept if the scan finds none. -/
def kClassLinkerOff : BitVec 32 := 0x610

def scanCode (page : BitVec 64) (low : BitVec 32) : BitVec 64 → List (BitVec 32) → Scan → BitVec 32
  | _, [], _ => kClassLinkerOff
  | pc, insn :: code, s =>
    match scanInsn page low pc insn s with
    | .inl s' => scanCode page low (pc + 4) code s'
    | .inr off => off

/-- The scan of the first 127 instructions of `DefineClass`. -/
def classLinkerOff (defineClass instanceVa : BitVec 64) (code : List (BitVec 32)) : BitVec 32 :=
  if defineClass = 0 ∨ instanceVa = 0 then kClassLinkerOff
  else
    scanCode (instanceVa &&& ~~~0xFFF) ((instanceVa &&& 0xFFF).setWidth 32) defineClass
      (code.take 127) {}

/-! ## The architecture -/

/-- The immediate of an `adrp`, in pages. -/
def adrpImm (insn : BitVec 32) : BitVec 21 := insn.extractLsb' 5 19 ++ insn.extractLsb' 29 2

/-- The page that an `adrp` yields. -/
def adrpPage (pc : BitVec 64) (insn : BitVec 32) : BitVec 64 :=
  (pc &&& ~~~0xFFF) + (adrpImm insn).signExtend 64 * 4096

/-- The scan finds the page of the instruction, and remembers the register that holds it. -/
structure Decodes (pc : BitVec 64) (insn : BitVec 32) : Prop where
  target : adrpTarget pc insn = adrpPage pc insn
  recognised : ∀ low s, ∃ s', scanInsn (adrpPage pc insn) low pc insn s = .inl s' ∧
    s'.adrpReg = some (insn.setWidth 5)

/-- The scan extends the immediate with zeros. -/
theorem adrpTarget_eq (pc : BitVec 64) (insn : BitVec 32) :
    adrpTarget pc insn = (pc &&& ~~~0xFFF) + (adrpImm insn).setWidth 64 * 4096 := by
  have hmask : ∀ n ≤ 32, ∀ i, (BitVec.ofNat 32 (2 ^ n - 1)).getLsbD i = decide (i < n) := by
    intro n hn i
    rw [BitVec.getLsbD_ofNat, Nat.testBit_two_pow_sub_one]
    by_cases hi : i < n
    · simp [hi, show i < 32 by omega]
    · simp [hi]
  have hhigh : ∀ i, (0x7FFFF : BitVec 32).getLsbD i = decide (i < 19) := hmask 19 (by decide)
  have hlow : ∀ i, (0x3 : BitVec 32).getLsbD i = decide (i < 2) := hmask 2 (by decide)
  have himm : (insn >>> 5 &&& 0x7FFFF).setWidth 64 <<< 2 ||| (insn >>> 29 &&& 0x3).setWidth 64 =
      (adrpImm insn).setWidth 64 := by
    apply BitVec.eq_of_getLsbD_eq
    intro i hi
    simp only [adrpImm, BitVec.getLsbD_or, BitVec.getLsbD_shiftLeft, BitVec.getLsbD_setWidth,
      BitVec.getLsbD_and, BitVec.getLsbD_ushiftRight, BitVec.getLsbD_append,
      BitVec.getLsbD_extractLsb', hhigh, hlow]
    by_cases htwo : i < 2
    · simp [htwo, hi]
    · by_cases hfield : i < 21
      · simp [htwo, hi, show i - 2 < 19 by omega, show i - 2 < 64 by omega]
      · simp [htwo, show ¬i - 2 < 19 by omega]
  rw [adrpTarget]
  simp only [himm]
  rw [BitVec.shiftLeft_eq_mul_twoPow]
  rfl

theorem msb_adrpImm (insn : BitVec 32) : (adrpImm insn).msb = insn.getLsbD 23 := by
  rw [BitVec.msb_eq_getLsbD_last, adrpImm, BitVec.getLsbD_append]
  simp

/-- The two extensions of an immediate are the same page if and only if it is not negative. -/
theorem adrpTarget_eq_iff (pc : BitVec 64) (insn : BitVec 32) :
    adrpTarget pc insn = adrpPage pc insn ↔ insn.getLsbD 23 = false := by
  have hpages : (4096 : BitVec 64) = BitVec.twoPow 64 12 := rfl
  rw [adrpTarget_eq, adrpPage, BitVec.add_right_inj, hpages, ← BitVec.shiftLeft_eq_mul_twoPow,
    ← BitVec.shiftLeft_eq_mul_twoPow, ← msb_adrpImm]
  constructor
  · intro h
    have hbit : ((adrpImm insn).setWidth 64 <<< 12).getLsbD 33 =
        ((adrpImm insn).signExtend 64 <<< 12).getLsbD 33 := by rw [h]
    rw [BitVec.getLsbD_shiftLeft, BitVec.getLsbD_shiftLeft, BitVec.getLsbD_setWidth,
      BitVec.getLsbD_signExtend] at hbit
    simpa using hbit.symm
  · intro h
    rw [BitVec.signExtend_eq_setWidth_of_msb_false h]

/-- An `adrp` is decoded as the architecture does if and only if it refers to its own page or one
behind it. -/
theorem adrp_decoding (pc : BitVec 64) (insn : BitVec 32) (h : isAdrp insn) :
    Decodes pc insn ↔ insn.getLsbD 23 = false := by
  rw [← adrpTarget_eq_iff pc]
  constructor
  · exact fun hdecodes => hdecodes.target
  · intro htarget
    refine ⟨htarget, fun low s => ⟨{ s with adrpReg := some (insn.setWidth 5) }, ?_, rfl⟩⟩
    rw [scanInsn, if_pos h, if_pos htarget]

theorem adrp_decoding_next_page :
    isAdrp 0xB0000001 ∧ Decodes 0x2004 0xB0000001 ∧ adrpPage 0x2004 0xB0000001 = 0x3000 :=
  ⟨rfl, (adrp_decoding 0x2004 0xB0000001 rfl).mpr rfl, rfl⟩

/-- An `adrp` of the page before its own. -/
theorem adrp_of_lower_page :
    isAdrp 0xF0FFFFE1 ∧ adrpPage 0x2004 0xF0FFFFE1 = 0x1000 ∧
      adrpTarget 0x2004 0xF0FFFFE1 = 0x200001000 ∧
      scanInsn 0x1000 0 0x2004 0xF0FFFFE1 {} = .inl {} :=
  ⟨rfl, rfl, rfl, rfl⟩

end Vardoger.Art
