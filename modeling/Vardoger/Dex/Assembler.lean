import Vardoger.Base.BitWords
import Vardoger.Dex.Opcodes
import Mathlib.Data.List.Basic

/-!
# The Dalvik assembler of the devirtualizer

`md_encode` lays out one instruction and `md_assemble` a list of them. A branch operand is an index
into the list; the assembler replaces it by the unit offset of that instruction, and the encoder
stores the difference to its own offset in the width of the format. Bytes and units are bit
vectors, operands 64-bit words.
-/

namespace Vardoger.Dex

/-- A Dalvik instruction: its mnemonic, its scalar operands and the registers of an invoke. -/
structure DalvikInstr where
  mnem : String
  ops : List (BitVec 64) := []
  regs : List (BitVec 32) := []
  deriving DecidableEq, Repr

def putU16 (v : BitVec 16) : List (BitVec 8) := [v.setWidth 8, (v >>> 8).setWidth 8]

def putS16 (v : BitVec 16) : List (BitVec 8) := [v.setWidth 8, (v >>> 8).setWidth 8]

def putI32 (v : BitVec 32) : List (BitVec 8) :=
  [v.setWidth 8, (v >>> 8).setWidth 8, (v >>> 16).setWidth 8, (v >>> 24).setWidth 8]

/-- A word cast to `uint16_t` and stored. -/
def putWord (v : BitVec 64) : List (BitVec 8) := putU16 (v.setWidth 16)

/-- The two nibble registers of a format, above the opcode. -/
def nibbles (a b op : BitVec 64) : BitVec 64 := ((b &&& 0xf) <<< 12) ||| ((a &&& 0xf) <<< 8) ||| op

/-- The bytes of an instruction at the unit offset `cur`; an unknown mnemonic becomes a `nop`. -/
def mdEncode (ins : DalvikInstr) (cur : BitVec 32) : List (BitVec 8) :=
  match mdOps.lookup ins.mnem with
  | none => putU16 0
  | some entry =>
      let op : BitVec 64 := entry.op.setWidth 64
      let r := fun i => ins.ops.getD i 0
      let here : BitVec 64 := cur.signExtend 64
      match entry.fmt with
      | .f10x => putU16 entry.op
      | .f11x => putWord ((r 0 <<< 8) ||| op)
      | .f11n | .f12x => putWord (nibbles (r 0) (r 1) op)
      | .f22x => putWord ((r 0 <<< 8) ||| op) ++ putWord (r 1)
      | .f21s | .f21h => putWord ((r 0 <<< 8) ||| op) ++ putS16 ((r 1).setWidth 16)
      | .f21c => putWord ((r 0 <<< 8) ||| op) ++ putWord (r 1)
      | .f31i => putWord ((r 0 <<< 8) ||| op) ++ putI32 ((r 1).setWidth 32)
      | .f23x => putWord ((r 0 <<< 8) ||| op) ++ putWord ((r 2 <<< 8) ||| r 1)
      | .f22b => putWord ((r 0 <<< 8) ||| op) ++ putWord (((r 2 &&& 0xff) <<< 8) ||| r 1)
      | .f22s => putWord (nibbles (r 0) (r 1) op) ++ putS16 ((r 2).setWidth 16)
      | .f22c => putWord (nibbles (r 0) (r 1) op) ++ putWord (r 2)
      | .f22t => putWord (nibbles (r 0) (r 1) op) ++ putS16 ((r 2 - here).setWidth 16)
      | .f21t => putWord ((r 0 <<< 8) ||| op) ++ putS16 ((r 1 - here).setWidth 16)
      | .f10t => putWord ((((r 0 - here) &&& 0xff) <<< 8) ||| op)
      | .f20t => putU16 entry.op ++ putS16 ((r 0 - here).setWidth 16)
      | .f30t => putU16 entry.op ++ putI32 ((r 0 - here).setWidth 32)
      | .f35c =>
          let a := BitVec.ofNat 32 ins.regs.length
          let rr := fun i => ins.regs.getD i 0
          putU16 (((a <<< 12) ||| ((rr 4 &&& 0xf) <<< 8) ||| entry.op.setWidth 32).setWidth 16) ++
            putWord (r 1) ++
            putU16 ((((rr 3 &&& 0xf) <<< 12) ||| ((rr 2 &&& 0xf) <<< 8) |||
              ((rr 1 &&& 0xf) <<< 4) ||| (rr 0 &&& 0xf)).setWidth 16)
      | .f3rc => putWord ((r 1 <<< 8) ||| op) ++ putWord (r 2) ++ putWord (r 0)
      | .f31c => putU16 0

/-- The format of an instruction as the assembler sees it. -/
def fmtOf (ins : DalvikInstr) : Fmt := ((mdOps.lookup ins.mnem).map MdOp.fmt).getD .f10x

/-- The number of units the assembler plans for an instruction. -/
def instrUnits (ins : DalvikInstr) : ℕ :=
  match mdOps.lookup ins.mnem with
  | none => 1
  | some entry => mdUnits entry.fmt

/-- The unit offset of each instruction, counted in an `int`. -/
def offsets : List DalvikInstr → BitVec 32 → List (BitVec 32)
  | [], _ => []
  | ins :: instrs, u => u :: offsets instrs (u + BitVec.ofNat 32 (instrUnits ins))

/-- The operand of a branch format that holds its target. -/
def branchOperand : Fmt → Option ℕ
  | .f10t | .f20t | .f30t => some 0
  | .f21t => some 1
  | .f22t => some 2
  | _ => none

/-- Replace an index by the offset of that instruction; an index outside the list is kept. -/
def resolveOp (offs : List (BitVec 32)) (k : ℕ) (ops : List (BitVec 64)) : List (BitVec 64) :=
  match ops[k]? with
  | none => ops
  | some idx =>
      if 0 ≤ idx.toInt ∧ idx.toInt < offs.length then
        ops.set k ((offs.getD idx.toInt.toNat 0).signExtend 64)
      else ops

/-- Resolve the target of a branch. -/
def resolve (offs : List (BitVec 32)) (ins : DalvikInstr) : DalvikInstr :=
  match branchOperand (fmtOf ins) with
  | none => ins
  | some k => { ins with ops := resolveOp offs k ins.ops }

/-- Pair the bytes into little-endian units. -/
def unitsOf : List (BitVec 8) → List (BitVec 16)
  | lo :: hi :: rest => (lo.setWidth 16 ||| (hi.setWidth 16 <<< 8)) :: unitsOf rest
  | [lo] => [lo.setWidth 16]
  | [] => []

def mdAssemble (instrs : List DalvikInstr) : List (BitVec 16) :=
  let offs := offsets instrs 0
  unitsOf ((instrs.zip offs).flatMap fun (ins, cur) => mdEncode (resolve offs ins) cur)

/-! ## Encodings are units -/

theorem unitsOf_putU16 (v : BitVec 16) (rest : List (BitVec 8)) :
    unitsOf (putU16 v ++ rest) = v :: unitsOf rest := by
  simp only [putU16, List.cons_append, List.nil_append, unitsOf, BitWords.low_or_high]

theorem unitsOf_putS16 (v : BitVec 16) (rest : List (BitVec 8)) :
    unitsOf (putS16 v ++ rest) = v :: unitsOf rest := unitsOf_putU16 v rest

/-- A double word is two units. -/
theorem putI32_eq (v : BitVec 32) :
    putI32 v = putU16 (v.setWidth 16) ++ putU16 ((v >>> 16).setWidth 16) := by
  have hlow : ((v.setWidth 16 : BitVec 16) >>> 8).setWidth 8 = (v >>> 8).setWidth 8 := by
    apply BitVec.eq_of_getLsbD_eq
    intro i hi
    simp [hi, show 8 + i < 16 by omega]
  have hhigh : (((v >>> 16).setWidth 16 : BitVec 16) >>> 8).setWidth 8 = (v >>> 24).setWidth 8 := by
    apply BitVec.eq_of_getLsbD_eq
    intro i hi
    simp [hi, show 8 + i < 16 by omega, show 16 + (8 + i) = 24 + i by omega]
  have hword (x : BitVec 32) : (x.setWidth 16).setWidth 8 = x.setWidth 8 := by
    apply BitVec.eq_of_getLsbD_eq
    intro i hi
    simp [hi]
  simp only [putI32, putU16, hlow, hhigh, hword, List.cons_append, List.nil_append]

theorem unitsOf_putI32 (v : BitVec 32) (rest : List (BitVec 8)) :
    unitsOf (putI32 v ++ rest) = v.setWidth 16 :: (v >>> 16).setWidth 16 :: unitsOf rest := by
  rw [putI32_eq, List.append_assoc, unitsOf_putU16, unitsOf_putU16]

/-- An even number of bytes is paired on its own. -/
theorem unitsOf_append {xs : List (BitVec 8)} (hxs : xs.length % 2 = 0) (ys : List (BitVec 8)) :
    unitsOf (xs ++ ys) = unitsOf xs ++ unitsOf ys := by
  fun_induction unitsOf xs with
  | case1 lo hi rest ih =>
    simp only [List.cons_append, unitsOf]
    rw [ih (by simp only [List.length_cons] at hxs; omega)]
  | case2 lo => simp at hxs
  | case3 => rfl

theorem length_unitsOf {xs : List (BitVec 8)} (hxs : xs.length % 2 = 0) :
    (unitsOf xs).length = xs.length / 2 := by
  fun_induction unitsOf xs with
  | case1 lo hi rest ih =>
    simp only [List.length_cons] at hxs ⊢
    rw [ih (by omega)]
    omega
  | case2 lo => simp at hxs
  | case3 => rfl

/-- What the table says about a mnemonic it knows. -/
theorem lookup_spec {mnem : String} {entry : MdOp} (h : mdOps.lookup mnem = some entry) :
    entry.op < 0x100#16 ∧ entry.fmt ≠ .f31c := by
  obtain ⟨before, after, heq, -⟩ := List.lookup_eq_some_iff.mp h
  exact mdOps_spec (mnem, entry) (by rw [heq]; simp)

theorem toNat_op_lt {mnem : String} {entry : MdOp} (h : mdOps.lookup mnem = some entry) :
    (entry.op.setWidth 64).toNat < 2 ^ 8 := by
  rw [BitVec.toNat_setWidth_of_le (by decide)]
  exact (lookup_spec h).1

/-- An encoding takes the units that the assembler plans for it. -/
theorem length_mdEncode (ins : DalvikInstr) (cur : BitVec 32) :
    (mdEncode ins cur).length = 2 * instrUnits ins := by
  unfold mdEncode instrUnits
  cases hlookup : mdOps.lookup ins.mnem with
  | none => rfl
  | some entry =>
    obtain ⟨-, hfmt⟩ := lookup_spec hlookup
    dsimp only
    cases hcase : entry.fmt with
    | f31c => exact absurd hcase hfmt
    | _ => rfl

end Vardoger.Dex
