import Vardoger.Base.BitWords
import Vardoger.Base.Simulation
import Vardoger.Dex.Dalvik
import Mathlib.Logic.Function.Basic

/-!
# Integer arithmetic of the interpreter

The Dalvik specification gives registers of 32 bits: an `int` takes one and wraps around there, a
`long` takes a pair. The interpreter computes both in slots of 64 bits and keeps an `int` as the
extension of its value. It agrees with the specification as long as the result of every operation
on an `int`, computed in 64 bits, stays in the range of an `int`, and no shift of an `int` is by
more than it is wide.
-/

namespace Vardoger.Dalvik

open Dex Bytes Simulation

/-! ## The specification -/

/-- A value of the fragment. -/
inductive Value
  | int (v : BitVec 32)
  | long (v : BitVec 64)
  deriving DecidableEq, Repr

/-- The contents of a register: nothing that may be read, an `int`, or a half of a `long`. -/
inductive Cell
  | none
  | int (v : BitVec 32)
  | long (v : BitVec 64)
  | high
  deriving DecidableEq, Repr

/-- A frame with typed registers. -/
structure Typed where
  size : ℕ
  cells : ℕ → Cell
  pc : BitVec 32

namespace Typed

/-- The `int` in a register. -/
def int? (f : Typed) (r : ℕ) : Option (BitVec 32) :=
  match f.cells r with
  | .int v => some v
  | _ => none

/-- The `long` in a pair of registers. -/
def long? (f : Typed) (r : ℕ) : Option (BitVec 64) :=
  match f.cells r, f.cells (r + 1) with
  | .long v, .high => some v
  | _, _ => none

/-- Break the pair that a register belongs to. -/
def detach (cells : ℕ → Cell) (r : ℕ) : ℕ → Cell :=
  match cells r with
  | .long _ => Function.update cells (r + 1) .none
  | .high => Function.update cells (r - 1) .none
  | _ => cells

/-- Write a value and go on behind the instruction. -/
def put (f : Typed) (r : ℕ) (v : Value) (units : ℕ) : Option Typed :=
  match v with
  | .int v =>
      if r < f.size then
        some { f with cells := Function.update (detach f.cells r) r (.int v)
                      pc := f.pc + BitVec.ofNat 32 units }
      else none
  | .long v =>
      if r + 1 < f.size then
        let free := detach (detach f.cells r) (r + 1)
        some { f with cells := Function.update (Function.update free r (.long v)) (r + 1) .high
                      pc := f.pc + BitVec.ofNat 32 units }
      else none

/-- A branch; an offset of zero is not valid. -/
def branch (f : Typed) (taken : Bool) (off : BitVec 32) (units : ℕ) : Option Typed :=
  if off = 0 then none
  else some { f with pc := f.pc + if taken then off else BitVec.ofNat 32 units }

end Typed

/-- The operations on an `int`: they wrap around, shifts take the count modulo 32, and a division
by zero has no value. -/
def intOp (k : Alu) (a b : BitVec 32) : Option (BitVec 32) :=
  match k with
  | .add => some (a + b)
  | .sub => some (a - b)
  | .mul => some (a * b)
  | .div => if b = 0 then none else some (a.sdiv b)
  | .rem => if b = 0 then none else some (a.srem b)
  | .and => some (a &&& b)
  | .or => some (a ||| b)
  | .xor => some (a ^^^ b)
  | .shl => some (a <<< (b &&& 31).toNat)
  | .shr => some (a.sshiftRight (b &&& 31).toNat)
  | .ushr => some (a >>> (b &&& 31).toNat)

/-- The operations on a `long`, with the count of a shift modulo 64. -/
def longOp (k : Alu) (a b : BitVec 64) : Option (BitVec 64) :=
  match k with
  | .add => some (a + b)
  | .sub => some (a - b)
  | .mul => some (a * b)
  | .div => if b = 0 then none else some (a.sdiv b)
  | .rem => if b = 0 then none else some (a.srem b)
  | .and => some (a &&& b)
  | .or => some (a ||| b)
  | .xor => some (a ^^^ b)
  | .shl => some (a <<< (b &&& 63).toNat)
  | .shr => some (a.sshiftRight (b &&& 63).toNat)
  | .ushr => some (a >>> (b &&& 63).toNat)

example : intOp .div (-2147483648) (-1) = some (-2147483648) ∧
    intOp .rem (-2147483648) (-1) = some 0 := by decide

def Alu.isShift : Alu → Bool
  | .shl | .shr | .ushr => true
  | _ => false

/-- The second operand of an operation on a `long`: the count of a shift is an `int`. -/
def Typed.longOperand (f : Typed) (k : Alu) (r : ℕ) : Option (BitVec 64) :=
  if k.isShift then (f.int? r).map (BitVec.signExtend 64) else f.long? r

def LitOp.spec (k : LitOp) (v lit : BitVec 32) : Option (BitVec 32) :=
  match k with
  | .rsub => some (lit - v)
  | .alu k => intOp k v lit

/-- The unary operations and conversions between integers. -/
def Unop.spec (u : Unop) (f : Typed) (src : ℕ) : Option Value :=
  match u with
  | .negInt => (f.int? src).map fun v => .int (-v)
  | .notInt => (f.int? src).map fun v => .int (~~~v)
  | .negLong => (f.long? src).map fun v => .long (-v)
  | .notLong => (f.long? src).map fun v => .long (~~~v)
  | .intToLong => (f.int? src).map fun v => .long (v.signExtend 64)
  | .longToInt => (f.long? src).map fun v => .int (v.setWidth 32)
  | .intToByte => (f.int? src).map fun v => .int ((v.setWidth 8).signExtend 32)
  | .intToChar => (f.int? src).map fun v => .int ((v.setWidth 16).setWidth 32)
  | .intToShort => (f.int? src).map fun v => .int ((v.setWidth 16).signExtend 32)
  | .passthrough => none

/-- The value that a move reads. -/
def Typed.read (f : Typed) (t : Ty) (r : ℕ) : Option Value :=
  match t with
  | .int => (f.int? r).map .int
  | .long => (f.long? r).map .long
  | _ => none

/-- The instruction at the program counter. -/
def fetch (d : List UInt8) (code : Code) (pc : BitVec 32) : Option Insn :=
  if code.insnsSize ≤ pc.toNat then none
  else do
    let op ← d[(insnAddr code pc).toNat]?
    let shape ← shapeOf op.toNat
    return shape.decode (fieldsAt d (insnAddr code pc))

/-- The meaning of the instructions of the fragment; there is none for a register of the wrong type,
a division by zero or a branch to itself. -/
def Insn.spec (ins : Insn) (f : Typed) : Option (Next Typed Value) :=
  match ins with
  | .const .int dst v n => (f.put dst (.int (v.setWidth 32)) n).map .next
  | .const .long dst v n => (f.put dst (.long v) n).map .next
  | .move t dst src n => do
      let v ← f.read t src
      (f.put dst v n).map .next
  | .returnReg t src => (f.read t src).map .done
  | .goto off => (f.branch true off 1).map .next
  | .gotoWide off n => (f.branch true off n).map .next
  | .ifTest c a b off => do
      let x ← f.int? a
      let y ← f.int? b
      (f.branch (c.holds x y) off 2).map .next
  | .ifTestz c a off => do
      let x ← f.int? a
      (f.branch (c.holds x 0) off 2).map .next
  | .unop u dst src => do
      let v ← u.spec f src
      (f.put dst v 1).map .next
  | .binop .int k dst a b n => do
      let x ← f.int? a
      let y ← f.int? b
      let v ← intOp k x y
      (f.put dst (.int v) n).map .next
  | .binop .long k dst a b n => do
      let x ← f.long? a
      let y ← f.longOperand k b
      let v ← longOp k x y
      (f.put dst (.long v) n).map .next
  | .lit k dst src imm => do
      let x ← f.int? src
      let v ← k.spec x (imm.setWidth 32)
      (f.put dst (.int v) 2).map .next
  | _ => none

def specStep (d : List UInt8) (code : Code) (f : Typed) : Option (Next Typed Value) := do
  let ins ← fetch d code f.pc
  ins.spec f

/-! ## Where the slots are exact -/

/-- The range of an `int`. -/
def FitsInt (x : ℤ) : Prop := -2 ^ 31 ≤ x ∧ x < 2 ^ 31

/-- An operation on an `int` that is exact in 64 bits: a sum, difference or product does not leave
the range, the least number is not divided by minus one, a shift is by less than 32 modulo 64, a
left shift loses no bits and an unsigned one does not move a negative number. -/
def Alu.Exact (k : Alu) (a b : BitVec 32) : Prop :=
  match k with
  | .add => FitsInt (a.toInt + b.toInt)
  | .sub => FitsInt (a.toInt - b.toInt)
  | .mul => FitsInt (a.toInt * b.toInt)
  | .div => ¬(a.toInt = -2 ^ 31 ∧ b.toInt = -1)
  | .rem | .and | .or | .xor => True
  | .shl => b.toNat % 64 < 32 ∧ FitsInt (a.toInt * 2 ^ (b.toNat % 64))
  | .shr => b.toNat % 64 < 32
  | .ushr => b.toNat % 64 = 0 ∨ b.toNat % 64 < 32 ∧ 0 ≤ a.toInt

/-- An operation on a `long` that does not trap: the least number is not divided by minus one. -/
def Alu.Safe (k : Alu) (a b : BitVec 64) : Prop :=
  match k with
  | .div | .rem => ¬(a.toInt = -2 ^ 63 ∧ b = -1)
  | _ => True

/-- The condition on an instruction and the registers before it. -/
def Insn.Exact (ins : Insn) (f : Typed) : Prop :=
  match ins with
  | .binop .int k _ a b _ => ∀ x ∈ f.int? a, ∀ y ∈ f.int? b, k.Exact x y
  | .binop .long k _ a b _ => ∀ x ∈ f.long? a, ∀ y ∈ f.longOperand k b, k.Safe x y
  | .lit (.alu k) _ src imm => ∀ x ∈ f.int? src, k.Exact x (imm.setWidth 32)
  | .lit .rsub _ src imm => ∀ x ∈ f.int? src, FitsInt ((imm.setWidth 32).toInt - x.toInt)
  | .unop .negInt _ src => ∀ x ∈ f.int? src, x.toInt ≠ -2 ^ 31
  | _ => True

/-- The condition in a state. -/
def ExactAt (d : List UInt8) (code : Code) (f : Typed) : Prop :=
  ∀ ins ∈ fetch d code f.pc, ins.Exact f

/-! ## Arithmetic on slots -/

/-- The slot of an `int`. -/
abbrev slot (v : BitVec 32) : BitVec 64 := v.signExtend 64

theorem toInt_slot (v : BitVec 32) : (slot v).toInt = v.toInt :=
  BitVec.toInt_signExtend_of_le (by decide)

theorem setWidth_slot (v : BitVec 32) : (slot v).setWidth 32 = v :=
  BitWords.setWidth_signExtend (by decide) v

theorem slot_inj {a b : BitVec 32} (h : slot a = slot b) : a = b := by
  rw [← setWidth_slot a, h, setWidth_slot]

theorem fitsInt_toInt (v : BitVec 32) : FitsInt v.toInt := by
  have hlo := v.le_toInt
  have hhi := v.toInt_lt
  exact ⟨hlo, hhi⟩

theorem FitsInt.bmod {x : ℤ} (hx : FitsInt x) : x.bmod (2 ^ 32) = x :=
  (BitWords.bmod_eq_self_iff (by decide) x).mpr hx

theorem FitsInt.bmod_slot {x : ℤ} (hx : FitsInt x) : x.bmod (2 ^ 64) = x := by
  obtain ⟨hlo, hhi⟩ := hx
  apply Int.bmod_eq_of_le <;> omega

/-- A slot with the value of an `int` is its slot. -/
theorem eq_slot {w : BitVec 64} {v : BitVec 32} (h : w.toInt = v.toInt) : w = slot v := by
  apply BitVec.eq_of_toInt_eq
  rw [h, toInt_slot]

theorem slot_add {a b : BitVec 32} (h : FitsInt (a.toInt + b.toInt)) :
    slot a + slot b = slot (a + b) := by
  apply eq_slot
  rw [BitVec.toInt_add, BitVec.toInt_add, toInt_slot, toInt_slot, h.bmod, h.bmod_slot]

theorem slot_sub {a b : BitVec 32} (h : FitsInt (a.toInt - b.toInt)) :
    slot a - slot b = slot (a - b) := by
  apply eq_slot
  rw [BitVec.toInt_sub, BitVec.toInt_sub, toInt_slot, toInt_slot, h.bmod, h.bmod_slot]

theorem slot_mul {a b : BitVec 32} (h : FitsInt (a.toInt * b.toInt)) :
    slot a * slot b = slot (a * b) := by
  apply eq_slot
  rw [BitVec.toInt_mul, BitVec.toInt_mul, toInt_slot, toInt_slot, h.bmod, h.bmod_slot]

theorem slot_neg {a : BitVec 32} (h : a.toInt ≠ -2 ^ 31) : -slot a = slot (-a) := by
  obtain ⟨hlo, hhi⟩ := fitsInt_toInt a
  have hfits : FitsInt (-a.toInt) := ⟨by omega, by omega⟩
  apply eq_slot
  rw [BitVec.toInt_neg, BitVec.toInt_neg, toInt_slot, hfits.bmod, hfits.bmod_slot]

/-- A quotient stays in the range, except that of the least number by minus one. -/
theorem fitsInt_tdiv {a b : BitVec 32} (h : ¬(a.toInt = -2 ^ 31 ∧ b.toInt = -1)) :
    FitsInt (a.toInt.tdiv b.toInt) := by
  obtain ⟨hlo, hhi⟩ := fitsInt_toInt a
  have habs : (a.toInt.tdiv b.toInt).natAbs = a.toInt.natAbs / b.toInt.natAbs := Int.natAbs_tdiv ..
  have hle := Nat.div_le_self a.toInt.natAbs b.toInt.natAbs
  by_cases hsmall : a.toInt = -2 ^ 31
  · have hb : b.toInt ≠ -1 := fun hb => h ⟨hsmall, hb⟩
    by_cases hone : b.toInt = 1
    · rw [hone, Int.tdiv_one]
      exact fitsInt_toInt a
    · have hhalf : a.toInt.natAbs / b.toInt.natAbs ≤ 2 ^ 30 := by
        rcases Nat.lt_or_ge b.toInt.natAbs 2 with hlt | hge
        · have hzero : b.toInt.natAbs = 0 := by omega
          rw [hzero, Nat.div_zero]
          omega
        · calc a.toInt.natAbs / b.toInt.natAbs ≤ a.toInt.natAbs / 2 :=
                Nat.div_le_div_left hge (by decide)
            _ ≤ 2 ^ 30 := by omega
      exact ⟨by omega, by omega⟩
  · exact ⟨by omega, by omega⟩

theorem slot_sdiv {a b : BitVec 32} (h : ¬(a.toInt = -2 ^ 31 ∧ b.toInt = -1)) :
    (slot a).sdiv (slot b) = slot (a.sdiv b) := by
  have hfits := fitsInt_tdiv h
  apply eq_slot
  rw [BitVec.toInt_sdiv, BitVec.toInt_sdiv, toInt_slot, toInt_slot, hfits.bmod, hfits.bmod_slot]

theorem slot_srem (a b : BitVec 32) : (slot a).srem (slot b) = slot (a.srem b) := by
  apply eq_slot
  rw [BitVec.toInt_srem, BitVec.toInt_srem, toInt_slot, toInt_slot]

/-- The count of a shift of slots is that of the `int` modulo 64. -/
theorem toNat_count (b : BitVec 32) : (slot b &&& 63).toNat = b.toNat % 64 := by
  have hlow : (slot b).toNat % 2 ^ 32 = b.toNat := by
    rw [← BitVec.toNat_setWidth, setWidth_slot]
  rw [BitVec.toNat_and, show (63 : BitVec 64).toNat = 2 ^ 6 - 1 by decide,
    Nat.and_two_pow_sub_one_eq_mod]
  omega

theorem toNat_count_int {b : BitVec 32} (h : b.toNat % 64 < 32) :
    (b &&& 31).toNat = b.toNat % 64 := by
  rw [BitVec.toNat_and, show (31 : BitVec 32).toNat = 2 ^ 5 - 1 by decide,
    Nat.and_two_pow_sub_one_eq_mod]
  omega

theorem slot_shiftLeft {a : BitVec 32} {n : ℕ} (h : FitsInt (a.toInt * 2 ^ n)) :
    slot a <<< n = slot (a <<< n) := by
  apply eq_slot
  rw [BitWords.toInt_shiftLeft, BitWords.toInt_shiftLeft, toInt_slot, h.bmod, h.bmod_slot]

theorem slot_sshiftRight (a : BitVec 32) (n : ℕ) :
    (slot a).sshiftRight n = slot (a.sshiftRight n) := by
  apply eq_slot
  rw [BitVec.toInt_sshiftRight, BitVec.toInt_sshiftRight, toInt_slot]

theorem slot_ushiftRight {a : BitVec 32} (ha : 0 ≤ a.toInt) (n : ℕ) :
    slot a >>> n = slot (a >>> n) := by
  have hlt : a.toNat < 2 ^ 31 := by
    rw [BitVec.toInt_eq_toNat_cond] at ha
    split at ha <;> omega
  have hshift : (a >>> n).toNat < 2 ^ 31 := by
    rw [BitVec.toNat_ushiftRight]
    exact Nat.lt_of_le_of_lt (Nat.shiftRight_le ..) hlt
  apply BitVec.eq_of_toNat_eq
  rw [BitVec.toNat_ushiftRight, BitWords.toNat_signExtend (by decide) hlt,
    BitWords.toNat_signExtend (by decide) hshift, BitVec.toNat_ushiftRight]

/-- An exact operation on slots gives the slot of the result. -/
theorem ibin_slot {k : Alu} {a b v : BitVec 32} (hv : intOp k a b = some v) (h : k.Exact a b) :
    ibin k (slot a) (slot b) = some (slot v) := by
  have hzero : slot b = 0 → b = 0 := fun hb => slot_inj (hb.trans (by decide : 0 = slot 0))
  have htrap : ¬((slot a).toInt = -2 ^ 63 ∧ slot b = -1) := by
    rw [toInt_slot]
    have hlo := (fitsInt_toInt a).1
    omega
  cases k with
  | add =>
    obtain rfl := Option.some.inj hv
    exact congrArg some (slot_add h)
  | sub =>
    obtain rfl := Option.some.inj hv
    exact congrArg some (slot_sub h)
  | mul =>
    obtain rfl := Option.some.inj hv
    exact congrArg some (slot_mul h)
  | div =>
    by_cases hb : b = 0
    · simp [intOp, hb] at hv
    · rw [intOp, if_neg hb] at hv
      obtain rfl := Option.some.inj hv
      rw [ibin, if_neg fun h0 => hb (hzero h0), if_neg htrap, slot_sdiv h]
  | rem =>
    by_cases hb : b = 0
    · simp [intOp, hb] at hv
    · rw [intOp, if_neg hb] at hv
      obtain rfl := Option.some.inj hv
      rw [ibin, if_neg fun h0 => hb (hzero h0), if_neg htrap, slot_srem]
  | and =>
    obtain rfl := Option.some.inj hv
    exact congrArg some BitVec.signExtend_and.symm
  | or =>
    obtain rfl := Option.some.inj hv
    exact congrArg some BitVec.signExtend_or.symm
  | xor =>
    obtain rfl := Option.some.inj hv
    exact congrArg some BitVec.signExtend_xor.symm
  | shl =>
    obtain rfl := Option.some.inj hv
    rw [ibin, toNat_count, toNat_count_int h.1, slot_shiftLeft h.2]
  | shr =>
    obtain rfl := Option.some.inj hv
    rw [ibin, toNat_count, toNat_count_int h, slot_sshiftRight]
  | ushr =>
    obtain rfl := Option.some.inj hv
    rcases h with hcount | ⟨hcount, ha⟩
    · rw [ibin, toNat_count, toNat_count_int (by omega), hcount, BitVec.ushiftRight_zero,
        BitVec.ushiftRight_zero]
    · rw [ibin, toNat_count, toNat_count_int hcount, slot_ushiftRight ha]

/-- An operation on a `long` that does not trap is that of the specification. -/
theorem ibin_long {k : Alu} {a b v : BitVec 64} (hv : longOp k a b = some v) (h : k.Safe a b) :
    ibin k a b = some v := by
  cases k with
  | div =>
    by_cases hb : b = 0
    · simp [longOp, hb] at hv
    · rw [longOp, if_neg hb] at hv
      rw [ibin, if_neg hb, if_neg h, hv]
  | rem =>
    by_cases hb : b = 0
    · simp [longOp, hb] at hv
    · rw [longOp, if_neg hb] at hv
      rw [ibin, if_neg hb, if_neg h, hv]
  | _ => exact hv

theorem low32_slot (v : BitVec 32) : low32 (slot v) = slot v := by
  rw [low32, setWidth_slot]

theorem holds_slot (c : Cond) (a b : BitVec 32) : c.holds (slot a) (slot b) = c.holds a b := by
  have heq : slot a = slot b ↔ a = b := ⟨slot_inj, fun h => by rw [h]⟩
  cases c <;> simp only [Cond.holds, toInt_slot, heq, ne_eq]

/-! ## Simulation -/

/-- The slot of a value. -/
def Value.slot : Value → BitVec 64
  | .int v => Dalvik.slot v
  | .long v => v

/-- The slots of a frame hold the values of the typed registers: an `int` is in its own slot, a
`long` in the slot of its first register. -/
structure Rel (c : Typed) (f : Frame) : Prop where
  size_le : c.size ≤ f.regs.length
  pc_eq : f.pc = c.pc
  ints : ∀ r v, c.cells r = .int v → f.regs[r]? = some (slot v)
  longs : ∀ r v, c.cells r = .long v → f.regs[r]? = some v

theorem detach_eq (cells : ℕ → Cell) (r i : ℕ) :
    Typed.detach cells r i = cells i ∨ Typed.detach cells r i = .none := by
  unfold Typed.detach
  cases cells r with
  | long v =>
    by_cases hi : i = r + 1
    · exact .inr (by rw [hi]; exact Function.update_self ..)
    · exact .inl (Function.update_of_ne hi ..)
  | high =>
    by_cases hi : i = r - 1
    · exact .inr (by rw [hi]; exact Function.update_self ..)
    · exact .inl (Function.update_of_ne hi ..)
  | none => exact .inl rfl
  | int v => exact .inl rfl

theorem of_detach {cells : ℕ → Cell} {r i : ℕ} {x : Cell} (hx : x ≠ .none)
    (h : Typed.detach cells r i = x) : cells i = x := by
  rcases detach_eq cells r i with heq | hnone
  · rw [← heq, h]
  · exact absurd (h.symm.trans hnone) hx

variable {c c' : Typed} {f : Frame} {σ : Type*} {s : σ}

theorem Rel.int (hrel : Rel c f) {r : ℕ} {v : BitVec 32} (h : c.int? r = some v) :
    f.regs[r]? = some (slot v) := by
  unfold Typed.int? at h
  split at h
  · next w hcell =>
    obtain rfl := Option.some.inj h
    exact hrel.ints r w hcell
  · exact nomatch h

theorem Rel.long (hrel : Rel c f) {r : ℕ} {v : BitVec 64} (h : c.long? r = some v) :
    f.regs[r]? = some v := by
  unfold Typed.long? at h
  split at h
  · next w hcell _ =>
    obtain rfl := Option.some.inj h
    exact hrel.longs r w hcell
  · exact nomatch h

theorem Rel.read (hrel : Rel c f) {t : Ty} {r : ℕ} {v : Value} (h : c.read t r = some v) :
    f.regs[r]? = some v.slot := by
  cases t with
  | int =>
    obtain ⟨w, hw, rfl⟩ := Option.map_eq_some_iff.mp h
    exact hrel.int hw
  | long =>
    obtain ⟨w, hw, rfl⟩ := Option.map_eq_some_iff.mp h
    exact hrel.long hw
  | _ => exact nomatch h

theorem Rel.longOperand (hrel : Rel c f) {k : Alu} {r : ℕ} {v : BitVec 64}
    (h : c.longOperand k r = some v) : f.regs[r]? = some v := by
  unfold Typed.longOperand at h
  split at h
  · obtain ⟨w, hw, rfl⟩ := Option.map_eq_some_iff.mp h
    exact hrel.int hw
  · exact hrel.long h

/-- The first register of a value. -/
def Value.cell : Value → Cell
  | .int v => .int v
  | .long v => .long v

/-- The relation holds again if the written register has the value and no other one gains any. -/
theorem Rel.set (hrel : Rel c f) {r n : ℕ} {v : Value} {cells : ℕ → Cell} (hr : r < c.size)
    (hself : cells r = v.cell)
    (hother : ∀ i x, i ≠ r → x ≠ .none → x ≠ .high → cells i = x → c.cells i = x) :
    Rel { c with cells := cells, pc := c.pc + BitVec.ofNat 32 n }
      { f.advance n with regs := f.regs.set r v.slot } := by
  have hlt : r < f.regs.length := Nat.lt_of_lt_of_le hr hrel.size_le
  refine ⟨?_, ?_, ?_, ?_⟩
  · rw [List.length_set]
    exact hrel.size_le
  · rw [← hrel.pc_eq]
    rfl
  · intro i w hw
    by_cases hi : i = r
    · subst hi
      cases v with
      | int v =>
        obtain rfl : v = w := Cell.int.inj (hself.symm.trans hw)
        exact List.getElem?_set_self hlt
      | long v => exact nomatch hself.symm.trans hw
    · rw [List.getElem?_set_ne (Ne.symm hi)]
      exact hrel.ints i w (hother i _ hi nofun nofun hw)
  · intro i w hw
    by_cases hi : i = r
    · subst hi
      cases v with
      | int v => exact nomatch hself.symm.trans hw
      | long v =>
        obtain rfl : v = w := Cell.long.inj (hself.symm.trans hw)
        exact List.getElem?_set_self hlt
    · rw [List.getElem?_set_ne (Ne.symm hi)]
      exact hrel.longs i w (hother i _ hi nofun nofun hw)

/-- Writing a value keeps the relation. -/
theorem Rel.put (hrel : Rel c f) {r n : ℕ} {v : Value} (h : c.put r v n = some c') :
    ∃ f', Rel c' f' ∧ f.write r v.slot n s = .next f' s := by
  have hsize := hrel.size_le
  cases v with
  | int v =>
    rw [Typed.put] at h
    split at h
    · next hr =>
      obtain rfl := Option.some.inj h
      refine ⟨_, hrel.set (v := .int v) hr (Function.update_self ..) ?_, if_pos (by omega)⟩
      intro i x hi hnone hhigh hx
      rw [Function.update_of_ne hi] at hx
      exact of_detach hnone hx
    · exact nomatch h
  | long v =>
    rw [Typed.put] at h
    split at h
    · next hr =>
      obtain rfl := Option.some.inj h
      refine ⟨_, hrel.set (v := .long v) (by omega) ?_ ?_, if_pos (by omega)⟩
      · rw [Function.update_of_ne (by omega), Function.update_self]
        rfl
      · intro i x hi hnone hhigh hx
        by_cases hnext : i = r + 1
        · rw [hnext, Function.update_self] at hx
          exact absurd hx.symm hhigh
        · rw [Function.update_of_ne hnext, Function.update_of_ne hi] at hx
          exact of_detach hnone (of_detach hnone hx)
    · exact nomatch h

theorem Rel.branch (hrel : Rel c f) {taken : Bool} {off : BitVec 32} {n : ℕ}
    (h : c.branch taken off n = some c') : Rel c' (f.branch taken off n) := by
  unfold Typed.branch at h
  split at h
  · exact nomatch h
  · next hoff =>
    obtain rfl := Option.some.inj h
    cases taken with
    | true =>
      have hjump : f.branch true off n = f.jump off := if_pos ⟨rfl, hoff⟩
      rw [hjump]
      exact ⟨hrel.size_le, by rw [← hrel.pc_eq]; rfl, hrel.ints, hrel.longs⟩
    | false =>
      have hadvance : f.branch false off n = f.advance n := if_neg fun h => Bool.false_ne_true h.1
      rw [hadvance]
      exact ⟨hrel.size_le, by rw [← hrel.pc_eq]; rfl, hrel.ints, hrel.longs⟩

/-- A unary operation on the slot of its operand gives the slot of the result. -/
theorem Rel.unop (hrel : Rel c f) {u : Unop} {dst src : ℕ} (h : (Insn.unop u dst src).Exact c)
    {v : Value} (hv : u.spec c src = some v) :
    ∃ w, f.regs[src]? = some w ∧ u.eval w = v.slot := by
  cases u with
  | passthrough => exact nomatch hv
  | negInt =>
    obtain ⟨x, hx, rfl⟩ := Option.map_eq_some_iff.mp hv
    refine ⟨_, hrel.int hx, ?_⟩
    rw [Unop.eval, low32_slot, slot_neg (h x hx)]
    rfl
  | notInt =>
    obtain ⟨x, hx, rfl⟩ := Option.map_eq_some_iff.mp hv
    refine ⟨_, hrel.int hx, ?_⟩
    rw [Unop.eval, low32_slot]
    exact (BitVec.signExtend_not (by decide)).symm
  | negLong =>
    obtain ⟨x, hx, rfl⟩ := Option.map_eq_some_iff.mp hv
    exact ⟨_, hrel.long hx, rfl⟩
  | notLong =>
    obtain ⟨x, hx, rfl⟩ := Option.map_eq_some_iff.mp hv
    exact ⟨_, hrel.long hx, rfl⟩
  | intToLong =>
    obtain ⟨x, hx, rfl⟩ := Option.map_eq_some_iff.mp hv
    exact ⟨_, hrel.int hx, low32_slot x⟩
  | longToInt =>
    obtain ⟨x, hx, rfl⟩ := Option.map_eq_some_iff.mp hv
    exact ⟨_, hrel.long hx, rfl⟩
  | intToByte =>
    obtain ⟨x, hx, rfl⟩ := Option.map_eq_some_iff.mp hv
    refine ⟨_, hrel.int hx, ?_⟩
    rw [Unop.eval, BitWords.setWidth_signExtend_of_le (by decide) (by decide)]
    exact (BitWords.signExtend_signExtend (by decide) (by decide) _).symm
  | intToChar =>
    obtain ⟨x, hx, rfl⟩ := Option.map_eq_some_iff.mp hv
    refine ⟨_, hrel.int hx, ?_⟩
    rw [Unop.eval, BitWords.setWidth_signExtend_of_le (by decide) (by decide)]
    exact (BitWords.signExtend_setWidth_of_lt (by decide) (by decide) _).symm
  | intToShort =>
    obtain ⟨x, hx, rfl⟩ := Option.map_eq_some_iff.mp hv
    refine ⟨_, hrel.int hx, ?_⟩
    rw [Unop.eval, BitWords.setWidth_signExtend_of_le (by decide) (by decide)]
    exact (BitWords.signExtend_signExtend (by decide) (by decide) _).symm

/-- The literals of an instruction on an `int` are slots of an `int`. -/
def Insn.Canonical : Insn → Prop
  | .const .int _ v _ => slot (v.setWidth 32) = v
  | .lit _ _ _ imm => slot (imm.setWidth 32) = imm
  | _ => True

theorem ne_zero_of_branch {taken : Bool} {off : BitVec 32} {n : ℕ}
    (h : c.branch taken off n = some c') : off ≠ 0 := by
  intro hoff
  rw [Typed.branch, if_pos hoff] at h
  exact nomatch h

/-- An operation with a literal on the slot of its operand gives the slot of the result. -/
theorem eval_lit {k : LitOp} {dst src : ℕ} {imm : BitVec 64} {x v : BitVec 32}
    (hcanon : (Insn.lit k dst src imm).Canonical) (hexact : (Insn.lit k dst src imm).Exact c)
    (hx : c.int? src = some x) (hv : k.spec x (imm.setWidth 32) = some v) :
    k.eval (slot x) imm = some (slot v) := by
  have himm : slot (imm.setWidth 32) = imm := hcanon
  cases k with
  | rsub =>
    obtain rfl := Option.some.inj hv
    rw [LitOp.eval, low32_slot, ← slot_sub (hexact x hx), himm]
  | alu k =>
    have hresult := ibin_slot hv (hexact x hx)
    rw [himm] at hresult
    rw [LitOp.eval, low32_slot, hresult]

/-- A step of the specification that ends with writing a value. -/
theorem Rel.put_next (hrel : Rel c f) {r n : ℕ} {v : Value}
    (h : (c.put r v n).map (Next.next (V := Value)) = some (.next c')) :
    ∃ f', Rel c' f' ∧ f.write r v.slot n s = .next f' s := by
  obtain ⟨c₁, hput, heq⟩ := Option.map_eq_some_iff.mp h
  obtain rfl := Next.next.inj heq
  exact hrel.put hput

/-- The interpreter follows a step of the specification to the next state. -/
theorem Rel.exec_next (hrel : Rel c f) {ins : Insn} (hcanon : ins.Canonical) (hexact : ins.Exact c)
    (h : ins.spec c = some (.next c')) (host : Host σ) (s : σ) :
    ∃ f', Rel c' f' ∧ exec host ins f s = .next f' s := by
  cases ins with
  | const t dst v n =>
    cases t with
    | int =>
      have hwrite := hrel.put_next (s := s) h
      rwa [Value.slot, hcanon] at hwrite
    | long =>
      exact hrel.put_next h
    | _ => exact nomatch h
  | move t dst src n =>
    obtain ⟨v, hread, h⟩ := Option.bind_eq_some_iff.mp h
    obtain ⟨f', hrel', hwrite⟩ := hrel.put_next (s := s) h
    refine ⟨f', hrel', ?_⟩
    simp only [exec, Frame.read, hrel.read hread, hwrite]
  | returnReg t src =>
    obtain ⟨v, -, heq⟩ := Option.map_eq_some_iff.mp h
    exact nomatch heq
  | goto off =>
    obtain ⟨c₁, hbranch, heq⟩ := Option.map_eq_some_iff.mp h
    obtain rfl := Next.next.inj heq
    have hoff := ne_zero_of_branch hbranch
    have hjump : f.branch true off 1 = f.jump off := if_pos ⟨rfl, hoff⟩
    exact ⟨f.jump off, hjump ▸ hrel.branch hbranch, if_neg hoff⟩
  | gotoWide off n =>
    obtain ⟨c₁, hbranch, heq⟩ := Option.map_eq_some_iff.mp h
    obtain rfl := Next.next.inj heq
    exact ⟨_, hrel.branch hbranch, rfl⟩
  | ifTest cond a b off =>
    obtain ⟨x, hx, h⟩ := Option.bind_eq_some_iff.mp h
    obtain ⟨y, hy, h⟩ := Option.bind_eq_some_iff.mp h
    obtain ⟨c₁, hbranch, heq⟩ := Option.map_eq_some_iff.mp h
    obtain rfl := Next.next.inj heq
    refine ⟨_, hrel.branch hbranch, ?_⟩
    simp only [exec, Frame.read, hrel.int hx, hrel.int hy, holds_slot]
  | ifTestz cond a off =>
    obtain ⟨x, hx, h⟩ := Option.bind_eq_some_iff.mp h
    obtain ⟨c₁, hbranch, heq⟩ := Option.map_eq_some_iff.mp h
    obtain rfl := Next.next.inj heq
    refine ⟨_, hrel.branch hbranch, ?_⟩
    have hzero : cond.holds (slot x) 0 = cond.holds x 0 := holds_slot cond x 0
    simp only [exec, Frame.read, hrel.int hx, hzero]
  | unop u dst src =>
    obtain ⟨v, hv, h⟩ := Option.bind_eq_some_iff.mp h
    obtain ⟨w, hw, heval⟩ := hrel.unop hexact hv
    obtain ⟨f', hrel', hwrite⟩ := hrel.put_next (s := s) h
    refine ⟨f', hrel', ?_⟩
    simp only [exec, Frame.read, hw, heval, hwrite]
  | binop t k dst a b n =>
    cases t with
    | int =>
      obtain ⟨x, hx, h⟩ := Option.bind_eq_some_iff.mp h
      obtain ⟨y, hy, h⟩ := Option.bind_eq_some_iff.mp h
      obtain ⟨v, hv, h⟩ := Option.bind_eq_some_iff.mp h
      obtain ⟨f', hrel', hwrite⟩ := hrel.put_next (s := s) h
      refine ⟨f', hrel', ?_⟩
      have hresult := ibin_slot hv (hexact x hx y hy)
      simp only [exec, Frame.read, hrel.int hx, hrel.int hy, hresult, Frame.writeResult]
      exact hwrite
    | long =>
      obtain ⟨x, hx, h⟩ := Option.bind_eq_some_iff.mp h
      obtain ⟨y, hy, h⟩ := Option.bind_eq_some_iff.mp h
      obtain ⟨v, hv, h⟩ := Option.bind_eq_some_iff.mp h
      obtain ⟨f', hrel', hwrite⟩ := hrel.put_next (s := s) h
      refine ⟨f', hrel', ?_⟩
      have hresult := ibin_long hv (hexact x hx y hy)
      simp only [exec, Frame.read, hrel.long hx, hrel.longOperand hy, hresult, Frame.writeResult]
      exact hwrite
    | _ => exact nomatch h
  | lit k dst src imm =>
    obtain ⟨x, hx, h⟩ := Option.bind_eq_some_iff.mp h
    obtain ⟨v, hv, h⟩ := Option.bind_eq_some_iff.mp h
    obtain ⟨f', hrel', hwrite⟩ := hrel.put_next (s := s) h
    refine ⟨f', hrel', ?_⟩
    have hresult := eval_lit hcanon hexact hx hv
    simp only [exec, Frame.read, hrel.int hx, hresult, Frame.writeResult]
    exact hwrite
  | _ => exact nomatch h

/-- The interpreter follows the specification to the end of the method. -/
theorem Rel.exec_done (hrel : Rel c f) {ins : Insn} {v : Value} (h : ins.spec c = some (.done v))
    (host : Host σ) (s : σ) : exec host ins f s = .done v.slot s := by
  cases ins with
  | returnReg t src =>
    obtain ⟨w, hread, heq⟩ := Option.map_eq_some_iff.mp h
    obtain rfl := Next.done.inj heq
    simp only [exec, Frame.read, hrel.read hread]
  | const t dst v n => cases t <;> simp [Insn.spec] at h
  | binop t k dst a b n => cases t <;> simp [Insn.spec, Option.bind_eq_some_iff] at h
  | _ => simp [Insn.spec, Option.bind_eq_some_iff] at h

/-! ## Literals of the instruction stream -/

/-- The shift of a literal fits its type. -/
def Shape.shiftFits : Shape → Bool
  | .high16 .int shift => shift = 16
  | _ => true

theorem shiftFits_of_shapeOf : ∀ op < 256, ∀ shape ∈ shapeOf op, shape.shiftFits = true := by
  decide +kernel

theorem slot_setWidth {w : BitVec 64} (h : FitsInt w.toInt) : slot (w.setWidth 32) = w := by
  have hfield := BitWords.signExtend_setWidth (n := 32) (by decide) (by decide) le_rfl w h.1 h.2
  rwa [BitVec.setWidth_eq] at hfield

theorem slot_signExtend {n : ℕ} (hn : n ≤ 32) (x : BitVec n) :
    slot ((x.signExtend 64).setWidth 32) = x.signExtend 64 := by
  have hpow : (2 : ℤ) ^ (n - 1) ≤ 2 ^ 31 := by
    exact_mod_cast Nat.pow_le_pow_right (by decide) (by omega)
  have hlo := x.le_toInt
  have hhi := x.toInt_lt
  apply slot_setWidth
  rw [BitVec.toInt_signExtend_of_le (by omega)]
  exact ⟨by omega, by omega⟩

theorem slot_high16 (x : BitVec 16) :
    slot ((x.signExtend 64 <<< 16).setWidth 32) = x.signExtend 64 <<< 16 := by
  have hlo : -2 ^ 15 ≤ x.toInt := x.le_toInt
  have hhi : x.toInt < 2 ^ 15 := x.toInt_lt
  have hfits : FitsInt (x.toInt * 2 ^ 16) := ⟨by omega, by omega⟩
  apply slot_setWidth
  rwa [BitWords.toInt_shiftLeft, BitVec.toInt_signExtend_of_le (by decide), hfits.bmod_slot]

theorem canonical_decode {shape : Shape} (h : shape.shiftFits = true) (fields : Fields) :
    (shape.decode fields).Canonical := by
  cases shape with
  | const4 => exact slot_signExtend (by decide) _
  | const16 t =>
    cases t with
    | int => exact slot_signExtend (by decide) _
    | _ => trivial
  | const32 t =>
    cases t with
    | int => exact slot_signExtend (by decide) _
    | _ => trivial
  | high16 t shift =>
    cases t with
    | int =>
      obtain rfl : shift = 16 := of_decide_eq_true h
      exact slot_high16 fields.u2
    | _ => trivial
  | lit16 k => exact slot_signExtend (by decide) _
  | lit8 k => exact slot_signExtend (by decide) _
  | _ => trivial

theorem canonical_of_fetch {d : List UInt8} {code : Code} {pc : BitVec 32} {ins : Insn}
    (h : fetch d code pc = some ins) : ins.Canonical := by
  unfold fetch at h
  split at h
  · exact nomatch h
  · obtain ⟨op, -, h⟩ := Option.bind_eq_some_iff.mp h
    obtain ⟨shape, hshape, h⟩ := Option.bind_eq_some_iff.mp h
    obtain rfl := Option.some.inj h
    exact canonical_decode (shiftFits_of_shapeOf _ op.toNat_lt shape hshape) _

/-! ## Runs -/

/-- A pass of the loop executes the fetched instruction. -/
theorem step_of_fetch {d : List UInt8} {code : Code} {ins : Insn}
    (h : fetch d code f.pc = some ins) (host : Host σ) (s : σ) :
    ¬code.insnsSize ≤ f.pc.toNat ∧ step d host code f s = exec host ins f s := by
  unfold fetch at h
  split at h
  · exact nomatch h
  · next hpc =>
    obtain ⟨op, hop, h⟩ := Option.bind_eq_some_iff.mp h
    obtain ⟨shape, hshape, h⟩ := Option.bind_eq_some_iff.mp h
    obtain rfl := Option.some.inj h
    exact ⟨hpc, by simp only [step, hop, hshape]⟩

/-- The loop gives the value of every run of the specification that is exact throughout. -/
theorem Rel.loop (hrel : Rel c f) {d : List UInt8} {code : Code} {n bound : ℕ} {v : Value}
    (hrun : runFor (specStep d code) n c = some v)
    (hexact : Throughout (specStep d code) (ExactAt d code) n c) (hn : n ≤ bound) (host : Host σ)
    (s : σ) : loop d host code bound f s = some (v.slot, s) := by
  refine eq_of_runFor (fun n f => Dalvik.loop d host code n f s) (fun v => some (v.slot, s))
    (R := Rel) ?_ ?_ hrun hexact hrel hn
  · intro c f v n hrel hexact hstep
    obtain ⟨ins, hfetch, hspec⟩ := Option.bind_eq_some_iff.mp hstep
    rw [← hrel.pc_eq] at hfetch
    obtain ⟨hpc, hexec⟩ := step_of_fetch hfetch host s
    simp only [Dalvik.loop, if_neg hpc, hexec, hrel.exec_done hspec]
  · intro c f c' hrel hexact hstep
    obtain ⟨ins, hfetch, hspec⟩ := Option.bind_eq_some_iff.mp hstep
    have hins := hexact ins hfetch
    rw [← hrel.pc_eq] at hfetch
    obtain ⟨hpc, hexec⟩ := step_of_fetch hfetch host s
    obtain ⟨f', hrel', hnext⟩ := hrel.exec_next (canonical_of_fetch hfetch) hins hspec host s
    refine ⟨f', hrel', fun n => ?_⟩
    simp only [Dalvik.loop, if_neg hpc, hexec, hnext]

/-- The registers that arguments take. -/
def argCells : List Value → List Cell
  | [] => []
  | .int v :: args => .int v :: argCells args
  | .long v :: args => .long v :: .high :: argCells args

/-- The entries that an invoke passes for arguments, one for each register: an `int` is extended, a
`long` is in the first entry of its pair. -/
def Passes : List Value → List (BitVec 64) → Prop
  | [], slots => slots = []
  | .int v :: args, slots => ∃ rest, slots = slot v :: rest ∧ Passes args rest
  | .long v :: args, slots => ∃ second rest, slots = v :: second :: rest ∧ Passes args rest

/-- The frame of the specification at the start. -/
def entry (code : Code) (args : List Value) : Typed where
  size := code.registersSize
  cells := fun r => if r < code.registersSize - code.insSize then .none
    else (argCells args).getD (r - (code.registersSize - code.insSize)) .none
  pc := 0

/-- A call of a valid method with arguments that fill its argument registers. -/
structure Called (code : Code) (args : List Value) (slots : List (BitVec 64)) : Prop where
  valid : code.valid = true
  insSize_eq : (argCells args).length = code.insSize
  insSize_le : code.insSize ≤ code.registersSize
  passes : Passes args slots

theorem Passes.length {args : List Value} {slots : List (BitVec 64)} (h : Passes args slots) :
    slots.length = (argCells args).length := by
  induction args generalizing slots with
  | nil => rw [show slots = [] from h, argCells, List.length_nil, List.length_nil]
  | cons v args ih =>
    cases v with
    | int v =>
      obtain ⟨rest, rfl, hrest⟩ := h
      simp only [argCells, List.length_cons, ih hrest]
    | long v =>
      obtain ⟨second, rest, rfl, hrest⟩ := h
      simp only [argCells, List.length_cons, ih hrest]

/-- The entries hold the values of the argument registers. -/
theorem Passes.slot {args : List Value} {slots : List (BitVec 64)} (h : Passes args slots) {i : ℕ}
    {v : Value} (hv : (argCells args)[i]? = some v.cell) : slots[i]? = some v.slot := by
  induction args generalizing slots i with
  | nil => exact nomatch hv
  | cons w args ih =>
    cases w with
    | int w =>
      obtain ⟨rest, rfl, hrest⟩ := h
      cases i with
      | zero =>
        cases v with
        | int v =>
          obtain rfl := Cell.int.inj (Option.some.inj hv)
          rfl
        | long v => exact nomatch hv
      | succ i => exact ih hrest hv
    | long w =>
      obtain ⟨second, rest, rfl, hrest⟩ := h
      match i with
      | 0 =>
        cases v with
        | int v => exact nomatch hv
        | long v =>
          obtain rfl := Cell.long.inj (Option.some.inj hv)
          rfl
      | 1 => cases v <;> exact nomatch hv
      | i + 2 => exact ih hrest hv

/-- The entries are in the last registers. -/
theorem entryRegs_spec {code : Code} {slots : List (BitVec 64)}
    (hlength : slots.length = code.insSize) (hle : code.insSize ≤ code.registersSize) :
    ∃ regs, entryRegs code slots = some regs ∧ code.registersSize ≤ regs.length ∧
      ∀ i a, slots[i]? = some a → regs[code.registersSize - code.insSize + i]? = some a := by
  have htake : slots.take code.insSize = slots := List.take_of_length_le (by omega)
  have hzeros : code.registersSize ≤ (List.replicate
      (if code.registersSize = 0 then 1 else code.registersSize) (0 : BitVec 64)).length := by
    rw [List.length_replicate]
    split <;> omega
  simp only [entryRegs, htake]
  by_cases hnil : slots = []
  · rw [if_pos hnil]
    exact ⟨_, rfl, hzeros, fun i a ha => by simp [hnil] at ha⟩
  · rw [if_neg hnil, if_pos hle]
    refine ⟨_, rfl, ?_, fun i a ha => ?_⟩
    · rw [length_overwrite (by omega)]
      exact hzeros
    · exact (standsAt_overwrite (by omega)).getElem? ha

/-- The registers at the start hold the values of the arguments. -/
theorem Called.rel {code : Code} {args : List Value} {slots : List (BitVec 64)}
    (h : Called code args slots) :
    ∃ regs, entryRegs code slots = some regs ∧ Rel (entry code args) ⟨regs, 0, 0⟩ := by
  obtain ⟨regs, hregs, hsize, hget⟩ :=
    entryRegs_spec (h.passes.length.trans h.insSize_eq) h.insSize_le
  have hcell : ∀ r (v : Value), (entry code args).cells r = v.cell → regs[r]? = some v.slot := by
    intro r v hr
    dsimp only [entry] at hr
    split at hr
    · cases v <;> exact nomatch hr
    · next hbase =>
      have hsome : (argCells args)[r - (code.registersSize - code.insSize)]? = some v.cell := by
        rw [List.getD_eq_getElem?_getD] at hr
        cases hcase : (argCells args)[r - (code.registersSize - code.insSize)]? with
        | none =>
          rw [hcase] at hr
          cases v <;> exact nomatch hr
        | some x =>
          rw [hcase] at hr
          exact congrArg some hr
      have hslot := hget _ _ (h.passes.slot hsome)
      rwa [Nat.add_sub_cancel' (by omega)] at hslot
  exact ⟨regs, hregs, hsize, rfl, fun r v => hcell r (.int v), fun r v => hcell r (.long v)⟩

/-- In every run of the specification that is exact throughout and has at most 200000 steps, the
interpreter returns the value of the specification. -/
theorem run_exact (d : List UInt8) (code : Code) (args : List Value) (slots : List (BitVec 64))
    (hcalled : Called code args slots) (n : ℕ) (hn : n ≤ kMaxSteps) (v : Value)
    (hrun : runFor (specStep d code) n (entry code args) = some v)
    (hexact : Throughout (specStep d code) (ExactAt d code) n (entry code args))
    {σ : Type} (host : Host σ) (depth : ℕ) (hdepth : depth < kMaxDepth) (s : σ) :
    run d host depth code slots s = some (v.slot, s) := by
  obtain ⟨regs, hregs, hrel⟩ := hcalled.rel
  have henter : ¬((!code.valid) = true ∨ kMaxDepth ≤ depth) := by
    rw [hcalled.valid]
    simp only [Bool.not_true, Bool.false_eq_true, false_or]
    omega
  simp only [run, if_neg henter, hregs]
  exact hrel.loop hrun hexact hn host s

/-- A method that adds one to its argument and returns the sum. -/
def successor : List UInt8 := [0xd8, 0x00, 0x00, 0x01, 0x0f, 0x00]

def successorCode : Code := { registersSize := 1, insSize := 1, insnsSize := 3, valid := true }

theorem fetch_successor : fetch successor successorCode 0 = some (.lit (.alu .add) 0 0 1) ∧
    fetch successor successorCode 2 = some (.returnReg .int 0) := by
  decide +kernel

/-- The method is called with 41. -/
theorem run_exact_successor :
    runFor (specStep successor successorCode) 2 (entry successorCode [.int 41]) = some (.int 42) ∧
      run successor ({} : Host Unit) 0 successorCode [41] () = some (42, ()) := by
  have hcalled : Called successorCode [.int 41] [41] := ⟨rfl, rfl, by decide, [], by decide, rfl⟩
  have hrun : runFor (specStep successor successorCode) 2 (entry successorCode [.int 41]) =
      some (.int 42) := by decide +kernel
  refine ⟨hrun, run_exact successor successorCode [.int 41] [41] hcalled 2 (by decide) (.int 42)
    hrun ⟨?_, fun c hc => ⟨?_, fun _ _ => trivial⟩⟩ {} 0 (by decide) ()⟩
  · intro ins hins
    obtain rfl := Option.some.inj (fetch_successor.1.symm.trans hins)
    intro x hx
    obtain rfl : 41 = x := Option.some.inj hx
    exact ⟨by decide, by decide⟩
  · intro ins hins
    have hpc : (specStep successor successorCode (entry successorCode [.int 41])).map
        (fun | .next c => c.pc | .done _ => 0) = some 2 := by decide +kernel
    rw [hc] at hpc
    rw [show c.pc = 2 from Option.some.inj hpc] at hins
    obtain rfl := Option.some.inj (fetch_successor.2.symm.trans hins)
    trivial

/-- A file with a code item at offset 4: the method adds one to the largest `int` and returns one if
the sum is negative, zero otherwise. -/
def overflow : List UInt8 :=
  [0, 0, 0, 0, 2, 0, 0, 0, 0, 0, 0, 0, 0, 0, 0, 0, 10, 0, 0, 0,
    0x14, 0x00, 0xff, 0xff, 0xff, 0x7f, -- const v0, 0x7fffffff
    0x12, 0x11, -- const/4 v1, 1
    0xb0, 0x10, -- add-int/2addr v0, v1
    0x3b, 0x00, 0x03, 0x00, -- if-gez v0, +3
    0x0f, 0x01, -- return v1
    0x12, 0x01, -- const/4 v1, 0
    0x0f, 0x01] -- return v1

def overflowCode : Code := { registersSize := 2, insnsOff := 20, insnsSize := 10, valid := true }

/-- The sum wraps around to the least `int`, so the specification returns one. The slot holds a
positive number, and the interpreter returns zero. -/
theorem add_int_overflow :
    Tables.codeAt ⟨overflow, ⟨0, 0⟩, ⟨0, 0⟩, ⟨0, 0⟩, ⟨0, 0⟩, ⟨0, 0⟩, ⟨0, 0⟩⟩ 4 = overflowCode ∧
      Called overflowCode [] [] ∧
      runFor (specStep overflow overflowCode) 5 (entry overflowCode []) = some (.int 1) ∧
      run overflow ({} : Host Unit) 0 overflowCode [] () = some (0, ()) :=
  ⟨by decide +kernel, ⟨rfl, rfl, by decide, rfl⟩, by decide +kernel, by decide +kernel⟩

end Vardoger.Dalvik
