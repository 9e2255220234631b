import Vardoger.Dex.Dalvik
import Vardoger.Dex.Devirt
import Mathlib.Tactic.IntervalCases

/-!
# The encoder and the interpreter speak the same bytecode

The devirtualizer encodes an instruction by its format, the interpreter takes it apart by the case
of its opcode. For every opcode of the table that the interpreter executes, the case fits the
format: it reads the operands that were stored, and goes on behind the units that the format takes.
-/

namespace Vardoger.Dalvik

open Dex Bytes LittleEndian

/-! ## Operands by format -/

/-- The operands of an instruction under their names in the Dalvik formats: the registers A, B and
C, the literal, the pool index, the branch target and the argument registers. -/
structure Operands where
  a : ℕ := 0
  b : ℕ := 0
  c : ℕ := 0
  lit : BitVec 64 := 0
  pool : ℕ := 0
  target : BitVec 32 := 0
  args : List ℕ := []
  first : ℕ := 0
  count : ℕ := 0

/-- The operands of an instruction of the assembler. -/
def operandsOf (fmt : Fmt) (ins : DalvikInstr) : Operands :=
  let r := fun i => ins.ops.getD i 0
  match fmt with
  | .f10x | .f31c => {}
  | .f11x => { a := (r 0).toNat }
  | .f12x | .f22x => { a := (r 0).toNat, b := (r 1).toNat }
  | .f11n | .f21s | .f21h | .f31i => { a := (r 0).toNat, lit := r 1 }
  | .f21c => { a := (r 0).toNat, pool := (r 1).toNat }
  | .f23x => { a := (r 0).toNat, b := (r 1).toNat, c := (r 2).toNat }
  | .f22b | .f22s => { a := (r 0).toNat, b := (r 1).toNat, lit := r 2 }
  | .f22c => { a := (r 0).toNat, b := (r 1).toNat, pool := (r 2).toNat }
  | .f22t => { a := (r 0).toNat, b := (r 1).toNat, target := (r 2).setWidth 32 }
  | .f21t => { a := (r 0).toNat, target := (r 1).setWidth 32 }
  | .f10t | .f20t | .f30t => { target := (r 0).setWidth 32 }
  | .f35c => { args := ins.regs.map BitVec.toNat, pool := (r 1).toNat }
  | .f3rc => { first := (r 0).toNat, count := (r 1).toNat, pool := (r 2).toNat }

/-- A number in the signed range of a field of `n` bits. -/
def FitsSigned (n : ℕ) (x : ℤ) : Prop := -(2 ^ (n - 1) : ℤ) ≤ x ∧ x < 2 ^ (n - 1)

/-- The displacement from `cur` to a target is not zero and fits a field of `n` bits. -/
def Reaches (n : ℕ) (cur : BitVec 32) (target : BitVec 64) : Prop :=
  target.toInt ≠ cur.toInt ∧ FitsSigned n (target.toInt - cur.toInt)

/-- Every operand fits the field that the format has for it. -/
def InRange (fmt : Fmt) (ins : DalvikInstr) (cur : BitVec 32) : Prop :=
  let r := fun i => ins.ops.getD i 0
  match fmt with
  | .f10x | .f31c => True
  | .f11x => (r 0).toNat < 2 ^ 8
  | .f12x => (r 0).toNat < 2 ^ 4 ∧ (r 1).toNat < 2 ^ 4
  | .f11n => (r 0).toNat < 2 ^ 4 ∧ FitsSigned 4 (r 1).toInt
  | .f22x | .f21c => (r 0).toNat < 2 ^ 8 ∧ (r 1).toNat < 2 ^ 16
  | .f21s | .f21h => (r 0).toNat < 2 ^ 8 ∧ FitsSigned 16 (r 1).toInt
  | .f31i => (r 0).toNat < 2 ^ 8 ∧ FitsSigned 32 (r 1).toInt
  | .f23x => (r 0).toNat < 2 ^ 8 ∧ (r 1).toNat < 2 ^ 8 ∧ (r 2).toNat < 2 ^ 8
  | .f22b => (r 0).toNat < 2 ^ 8 ∧ (r 1).toNat < 2 ^ 8 ∧ FitsSigned 8 (r 2).toInt
  | .f22s => (r 0).toNat < 2 ^ 4 ∧ (r 1).toNat < 2 ^ 4 ∧ FitsSigned 16 (r 2).toInt
  | .f22c => (r 0).toNat < 2 ^ 4 ∧ (r 1).toNat < 2 ^ 4 ∧ (r 2).toNat < 2 ^ 16
  | .f22t => (r 0).toNat < 2 ^ 4 ∧ (r 1).toNat < 2 ^ 4 ∧ Reaches 16 cur (r 2)
  | .f21t => (r 0).toNat < 2 ^ 8 ∧ Reaches 16 cur (r 1)
  | .f10t => Reaches 8 cur (r 0)
  | .f20t => Reaches 16 cur (r 0)
  | .f30t => Reaches 32 cur (r 0)
  | .f35c => ins.regs.length ≤ 5 ∧ (∀ reg ∈ ins.regs, reg.toNat < 2 ^ 4) ∧ (r 1).toNat < 2 ^ 16
  | .f3rc => (r 0).toNat < 2 ^ 16 ∧ (r 1).toNat < 2 ^ 8 ∧ (r 2).toNat < 2 ^ 16

/-- What a case means for operands under their names, at the unit `cur`. -/
def Shape.insn (shape : Shape) (o : Operands) (cur : BitVec 32) : Insn :=
  match shape with
  | .skip n => .skip n
  | .move12 t => .move t o.a o.b 1
  | .move22 t => .move t o.a o.b 2
  | .move32 t => .move t o.a o.b 3
  | .moveResult => .moveResult o.a
  | .returnVoid => .returnVoid
  | .returnReg t => .returnReg t o.a
  | .const4 => .const .int o.a o.lit 1
  | .const16 t => .const t o.a o.lit 2
  | .const32 t => .const t o.a o.lit 3
  | .high16 t shift => .const t o.a (o.lit <<< shift) 2
  | .wide64 => .const .long o.a o.lit 5
  | .constString => .constString o.a o.pool 2
  | .constStringJumbo => .constString o.a o.pool 3
  | .constClass | .cmp => .placeholder o.a 0
  | .instanceOf => .placeholder o.a 1
  | .newInstance => .newInstance o.a o.pool
  | .newArray => .newArray o.a o.b o.pool
  | .arrayLength => .arrayLength o.a o.b
  | .throw => .throw
  | .goto8 => .goto (o.target - cur)
  | .goto16 => .gotoWide (o.target - cur) 2
  | .goto32 => .gotoWide (o.target - cur) 3
  | .ifTest c => .ifTest c o.a o.b (o.target - cur)
  | .ifTestz c => .ifTestz c o.a (o.target - cur)
  | .aget => .aget o.a o.b o.c
  | .aput => .aput o.a o.b o.c
  | .iget => .iget o.a o.b o.pool
  | .iput => .iput o.a o.b o.pool
  | .sget => .sget o.a o.pool
  | .sput => .sput o.a o.pool
  | .invoke k => .invoke k o.pool (o.args.map some)
  | .invokeRange k => .invokeRange k o.pool o.first o.count
  | .unop u => .unop u o.a o.b
  | .binop t k => .binop t k o.a o.b o.c 2
  | .binop2addr t k => .binop t k o.a o.a o.b 1
  | .lit16 k | .lit8 k => .lit k o.a o.b o.lit

/-- The formats whose fields a case reads. -/
def Shape.fits (shape : Shape) (fmt : Fmt) : Bool :=
  match shape with
  | .skip n => n = mdUnits fmt && branchOperand fmt = none
  | .move12 _ | .arrayLength | .unop _ | .binop2addr .. => fmt = .f12x
  | .move22 _ => fmt = .f22x
  | .moveResult | .returnReg _ | .throw => fmt = .f11x
  | .returnVoid => fmt = .f10x
  | .const4 => fmt = .f11n
  | .const16 _ => fmt = .f21s
  | .const32 _ => fmt = .f31i
  | .high16 .. => fmt = .f21h
  | .constString | .constClass | .newInstance | .sget | .sput => fmt = .f21c
  | .instanceOf | .newArray | .iget | .iput => fmt = .f22c
  | .cmp | .aget | .aput | .binop .. => fmt = .f23x
  | .goto8 => fmt = .f10t
  | .goto16 => fmt = .f20t
  | .goto32 => fmt = .f30t
  | .ifTest _ => fmt = .f22t
  | .ifTestz _ => fmt = .f21t
  | .invoke _ => fmt = .f35c
  | .invokeRange _ => fmt = .f3rc
  | .lit16 _ => fmt = .f22s
  | .lit8 _ => fmt = .f22b
  | .move32 _ | .wide64 | .constStringJumbo => false

/-- The table of the encoder and the switch of the interpreter agree on the format of every opcode
that is in both. -/
theorem fits_of_mem : ∀ entry ∈ mdOps, ∀ shape ∈ shapeOf entry.2.op.toNat,
    shape.fits entry.2.fmt = true := by
  decide +kernel

theorem fits_of_lookup {mnem : String} {entry : MdOp} {shape : Shape}
    (hentry : mdOps.lookup mnem = some entry) (hshape : shapeOf entry.op.toNat = some shape) :
    shape.fits entry.fmt = true := by
  obtain ⟨before, after, heq, -⟩ := List.lookup_eq_some_iff.mp hentry
  exact fits_of_mem (mnem, entry) (by rw [heq]; simp) shape hshape

/-- The fields of an encoding hold the operands. -/
def Stores (fmt : Fmt) (f : Fields) (o : Operands) (cur : BitVec 32) : Prop :=
  match fmt with
  | .f10x | .f31c => True
  | .f11x => f.b1.toNat = o.a
  | .f12x => f.lo = o.a ∧ f.hi = o.b
  | .f11n => f.lo = o.a ∧ (((f.b1 >>> 4) <<< 4).sshiftRight 4).signExtend 64 = o.lit
  | .f22x => f.b1.toNat = o.a ∧ f.u2.toNat = o.b
  | .f21s | .f21h => f.b1.toNat = o.a ∧ f.u2.signExtend 64 = o.lit
  | .f21c => f.b1.toNat = o.a ∧ f.u2.toNat = o.pool
  | .f31i => f.b1.toNat = o.a ∧ f.w2.signExtend 64 = o.lit
  | .f23x => f.b1.toNat = o.a ∧ f.bb = o.b ∧ f.cc = o.c
  | .f22b => f.b1.toNat = o.a ∧ f.bb = o.b ∧ ((f.u2 >>> 8).setWidth 8).signExtend 64 = o.lit
  | .f22s => f.lo = o.a ∧ f.hi = o.b ∧ f.u2.signExtend 64 = o.lit
  | .f22c => f.lo = o.a ∧ f.hi = o.b ∧ f.u2.toNat = o.pool
  | .f22t => f.lo = o.a ∧ f.hi = o.b ∧ f.u2.signExtend 32 = o.target - cur
  | .f21t => f.b1.toNat = o.a ∧ f.u2.signExtend 32 = o.target - cur
  | .f10t => f.b1.signExtend 32 = o.target - cur
  | .f20t => f.u2.signExtend 32 = o.target - cur
  | .f30t => f.w2 = o.target - cur
  | .f35c => f.u2.toNat = o.pool ∧ (List.range f.hi).map (f.rv[·]?) = o.args.map some
  | .f3rc => f.b1.toNat = o.count ∧ f.u2.toNat = o.pool ∧ f.u4.toNat = o.first

/-- A case that fits the format decodes the operands that its fields hold. -/
theorem decode_of_stores {shape : Shape} {fmt : Fmt} (hfits : shape.fits fmt = true) {f : Fields}
    {o : Operands} {cur : BitVec 32} (hstores : Stores fmt f o cur) :
    shape.decode f = shape.insn o cur := by
  cases shape with
  | skip n => rfl
  | move32 t => exact absurd hfits Bool.false_ne_true
  | wide64 => exact absurd hfits Bool.false_ne_true
  | constStringJumbo => exact absurd hfits Bool.false_ne_true
  | _ =>
    simp only [Shape.fits, decide_eq_true_eq] at hfits
    subst hfits
    simp only [Stores] at hstores
    simp only [Shape.decode, Shape.insn, hstores]

/-! ## Units in a file -/

/-- A unit stands in the file, low byte first. -/
def UnitAt (d : List UInt8) (p : ℕ) (v : BitVec 16) : Prop :=
  StandsAt d p ((putU16 v).map UInt8.ofBitVec)

theorem unitAt_iff {d : List UInt8} {p : ℕ} {v : BitVec 16} :
    UnitAt d p v ↔ d[p]? = some (.ofBitVec (v.setWidth 8)) ∧
      d[p + 1]? = some (.ofBitVec ((v >>> 8).setWidth 8)) := by
  simp only [UnitAt, putU16, List.map_cons, List.map_nil, standsAt_cons, standsAt_nil, and_true]

theorem UnitAt.lt {d : List UInt8} {p : ℕ} {v : BitVec 16} (h : UnitAt d p v) :
    p + 2 ≤ d.length := StandsAt.lt h (by simp [putU16])

variable {d : List UInt8} {iaddr : BitVec 32}

theorem u16_of_unitAt (hsize : d.length < 2 ^ 32) {off : BitVec 32} {v : BitVec 16}
    (h : UnitAt d off.toNat v) : u16 d off = v := by
  have hlt := h.lt
  have hbound : (off + 2).toNat ≤ d.length := by bv_omega
  have hword : wordAt 2 d off.toNat = (v.setWidth 8).toNat + 256 * ((v >>> 8).setWidth 8).toNat :=
    wordAt_of_standsAt h
  rw [u16, if_pos hbound, hword]
  apply BitVec.eq_of_toNat_eq
  simp only [BitVec.toNat_ofNat, BitVec.toNat_setWidth, BitVec.toNat_ushiftRight,
    Nat.shiftRight_eq_div_pow]
  have hv := v.isLt
  omega

theorem u32_of_unitAt (hsize : d.length < 2 ^ 32) {off : BitVec 32} {lo hi : BitVec 16}
    (hlo : UnitAt d off.toNat lo) (hhi : UnitAt d (off.toNat + 2) hi) : u32 d off = hi ++ lo := by
  have hlt := hhi.lt
  have hbound : (off + 4).toNat ≤ d.length := by bv_omega
  have hstands : StandsAt d off.toNat ((putU16 lo ++ putU16 hi).map UInt8.ofBitVec) := by
    rw [List.map_append]
    exact standsAt_append.mpr ⟨hlo, hhi⟩
  have hword : wordAt 4 d off.toNat = (lo.setWidth 8).toNat +
      256 * (((lo >>> 8).setWidth 8).toNat +
        256 * ((hi.setWidth 8).toNat + 256 * ((hi >>> 8).setWidth 8).toNat)) :=
    wordAt_of_standsAt hstands
  rw [u32, if_pos hbound, hword]
  apply BitVec.eq_of_toNat_eq
  simp only [BitVec.toNat_ofNat, BitVec.toNat_setWidth, BitVec.toNat_ushiftRight,
    Nat.shiftRight_eq_div_pow, BitVec.toNat_append, Nat.shiftLeft_eq]
  rw [← Nat.shiftLeft_eq, ← Nat.shiftLeft_add_eq_or_of_lt lo.isLt, Nat.shiftLeft_eq]
  have hl := lo.isLt
  have hh := hi.isLt
  omega

theorem b1_of_unitAt (hsize : d.length < 2 ^ 32) {v : BitVec 16} (h : UnitAt d iaddr.toNat v) :
    (fieldsAt d iaddr).b1 = (v >>> 8).setWidth 8 := by
  have hlt := h.lt
  have haddr : (iaddr + 1).toNat = iaddr.toNat + 1 := by bv_omega
  simp only [fieldsAt, haddr, List.getD_eq_getElem?_getD, (unitAt_iff.mp h).2, Option.getD_some]

theorem u2_of_unitAt (hsize : d.length < 2 ^ 32) {v : BitVec 16}
    (h : UnitAt d (iaddr.toNat + 2) v) : (fieldsAt d iaddr).u2 = v := by
  have hlt := h.lt
  have haddr : (iaddr + 2).toNat = iaddr.toNat + 2 := by bv_omega
  exact u16_of_unitAt hsize (by rwa [haddr])

theorem u4_of_unitAt (hsize : d.length < 2 ^ 32) {v : BitVec 16}
    (h : UnitAt d (iaddr.toNat + 4) v) : (fieldsAt d iaddr).u4 = v := by
  have hlt := h.lt
  have haddr : (iaddr + 4).toNat = iaddr.toNat + 4 := by bv_omega
  exact u16_of_unitAt hsize (by rwa [haddr])

theorem w2_of_unitAt (hsize : d.length < 2 ^ 32) {lo hi : BitVec 16}
    (hlo : UnitAt d (iaddr.toNat + 2) lo) (hhi : UnitAt d (iaddr.toNat + 4) hi) :
    (fieldsAt d iaddr).w2 = hi ++ lo := by
  have hlt := hhi.lt
  have haddr : (iaddr + 2).toNat = iaddr.toNat + 2 := by bv_omega
  exact u32_of_unitAt hsize (by rwa [haddr]) (by rwa [haddr])

/-! ## Stored fields -/

/-- The first unit of a format with a byte above the opcode. -/
theorem b1_putByte (hsize : d.length < 2 ^ 32) {x op : BitVec 64} (hop : op.toNat < 2 ^ 8)
    (h : UnitAt d iaddr.toNat ((x <<< 8 ||| op).setWidth 16)) :
    (fieldsAt d iaddr).b1 = x.setWidth 8 := by
  rw [b1_of_unitAt hsize h, BitWords.high_byte x hop]

theorem nibbles_eq (a b op : BitVec 64) :
    nibbles a b op = (((b &&& 0xf) <<< 4 ||| (a &&& 0xf)) <<< 8) ||| op := by
  rw [nibbles, BitVec.shiftLeft_or_distrib, ← BitVec.shiftLeft_add]

/-- Two nibbles are joined to a byte. -/
theorem setWidth_nibbles (a b : BitVec 64) :
    ((b &&& 0xf) <<< 4 ||| (a &&& 0xf)).setWidth 8 = b.setWidth 4 ++ a.setWidth 4 := by
  have hmask : ∀ i < 64, (0xf : BitVec 64).getLsbD i = decide (i < 4) := by decide
  apply BitVec.eq_of_getLsbD_eq
  intro i hi
  simp only [BitVec.getLsbD_setWidth, BitVec.getLsbD_or, BitVec.getLsbD_shiftLeft,
    BitVec.getLsbD_and, BitVec.getLsbD_append, hmask i (by omega), hmask (i - 4) (by omega)]
  by_cases hlow : i < 4
  · simp [hi, hlow]
  · simp [hi, hlow, show i - 4 < 4 by omega, show i < 64 by omega]

theorem append_nibbles : ∀ x y : BitVec 4,
    (x ++ y : BitVec 8) &&& 0xf = y.setWidth 8 ∧ (x ++ y : BitVec 8) >>> 4 = x.setWidth 8 := by
  decide

/-- The first unit of a format with two nibbles above the opcode. -/
theorem nibbles_of_unitAt (hsize : d.length < 2 ^ 32) {a b op : BitVec 64} (hop : op.toNat < 2 ^ 8)
    (h : UnitAt d iaddr.toNat ((nibbles a b op).setWidth 16)) :
    (fieldsAt d iaddr).b1 &&& 0xf = (a.setWidth 4).setWidth 8 ∧
      (fieldsAt d iaddr).b1 >>> 4 = (b.setWidth 4).setWidth 8 := by
  rw [nibbles_eq] at h
  rw [b1_putByte hsize hop h, setWidth_nibbles]
  exact append_nibbles _ _

theorem lo_of_unitAt (hsize : d.length < 2 ^ 32) {a b op : BitVec 64} (hop : op.toNat < 2 ^ 8)
    (h : UnitAt d iaddr.toNat ((nibbles a b op).setWidth 16)) (ha : a.toNat < 2 ^ 4) :
    (fieldsAt d iaddr).lo = a.toNat := by
  rw [Fields.lo, (nibbles_of_unitAt hsize hop h).1]
  simp only [BitVec.toNat_setWidth]
  omega

theorem hi_of_unitAt (hsize : d.length < 2 ^ 32) {a b op : BitVec 64} (hop : op.toNat < 2 ^ 8)
    (h : UnitAt d iaddr.toNat ((nibbles a b op).setWidth 16)) (hb : b.toNat < 2 ^ 4) :
    (fieldsAt d iaddr).hi = b.toNat := by
  rw [Fields.hi, (nibbles_of_unitAt hsize hop h).2]
  simp only [BitVec.toNat_setWidth]
  omega

theorem sshiftRight_nibble : ∀ x : BitVec 4,
    ((x.setWidth 8 <<< 4).sshiftRight 4).signExtend 64 = x.signExtend 64 := by
  decide

/-- The second unit of a format with two bytes. -/
theorem bytes_of_unit (x : BitVec 64) {low : BitVec 64} (hlow : low.toNat < 2 ^ 8) :
    ((x <<< 8 ||| low).setWidth 16 &&& 0xff : BitVec 16).toNat = low.toNat ∧
      ((x <<< 8 ||| low).setWidth 16 >>> 8 : BitVec 16).toNat = (x.setWidth 8).toNat := by
  constructor
  · rw [BitWords.low_byte x hlow, BitVec.toNat_setWidth]
    omega
  · rw [← BitWords.high_byte x hlow, BitVec.toNat_setWidth, BitVec.toNat_ushiftRight,
      Nat.shiftRight_eq_div_pow]
    have hlt := ((x <<< 8 ||| low).setWidth 16).isLt
    omega

/-- The count and the last register of an invoke are two nibbles above the opcode. -/
theorem invoke_unit (x : BitVec 32) {n : ℕ} (hn : n < 2 ^ 4) (op : BitVec 16) :
    (BitVec.ofNat 32 n <<< 12 ||| (x &&& 0xf) <<< 8 ||| op.setWidth 32).setWidth 16 =
      (nibbles (x.setWidth 64) (BitVec.ofNat 64 n) (op.setWidth 64)).setWidth 16 := by
  have hmask : ∀ i < 16, (0xf : BitVec 64).getLsbD i = (0xf : BitVec 32).getLsbD i := by decide
  have hcount : BitVec.ofNat 64 n &&& 0xf = BitVec.ofNat 64 n := by
    apply BitVec.eq_of_toNat_eq
    rw [BitVec.toNat_and, BitVec.toNat_ofNat, Nat.mod_eq_of_lt (by omega)]
    exact Nat.and_two_pow_sub_one_of_lt_two_pow hn
  rw [nibbles, hcount]
  apply BitVec.eq_of_getLsbD_eq
  intro i hi
  simp only [BitVec.getLsbD_setWidth, BitVec.getLsbD_or, BitVec.getLsbD_shiftLeft,
    BitVec.getLsbD_and, BitVec.getLsbD_ofNat, hmask (i - 8) (by omega)]
  simp [hi, show i < 32 by omega, show i < 64 by omega, show i - 12 < 32 by omega,
    show i - 12 < 64 by omega, show i - 8 < 32 by omega, show i - 8 < 64 by omega]

/-- The first four registers of an invoke are the nibbles of its last unit. -/
theorem nibbles_of_unit (x₀ x₁ x₂ x₃ : BitVec 32) {u : BitVec 16}
    (hu : u = ((x₃ &&& 0xf) <<< 12 ||| (x₂ &&& 0xf) <<< 8 ||| (x₁ &&& 0xf) <<< 4 |||
      (x₀ &&& 0xf)).setWidth 16) :
    u &&& 0xf = (x₀.setWidth 4).setWidth 16 ∧ (u >>> 4) &&& 0xf = (x₁.setWidth 4).setWidth 16 ∧
      (u >>> 8) &&& 0xf = (x₂.setWidth 4).setWidth 16 ∧
      (u >>> 12) &&& 0xf = (x₃.setWidth 4).setWidth 16 := by
  have hmask : ∀ i < 16, (0xf : BitVec 16).getLsbD i = decide (i < 4) := by decide
  refine ⟨?_, ?_, ?_, ?_⟩
  all_goals
    apply BitVec.eq_of_getLsbD_eq
    intro i hi
    simp only [hu, BitVec.getLsbD_setWidth, BitVec.getLsbD_and, BitVec.getLsbD_ushiftRight,
      BitVec.getLsbD_or, BitVec.getLsbD_shiftLeft, hmask i hi]
    by_cases hlow : i < 4
    · interval_cases i <;> simp
    · simp [hlow]

theorem toNat_getD_lt {regs : List (BitVec 32)} (hregs : ∀ reg ∈ regs, reg.toNat < 2 ^ 4) (i : ℕ) :
    (regs.getD i 0).toNat < 2 ^ 4 := by
  rw [List.getD_eq_getElem?_getD]
  cases hget : regs[i]? with
  | none => simp
  | some reg => exact hregs reg (List.mem_of_getElem? hget)

/-- The registers of an invoke in their order, those after the last one zero. -/
theorem rv_of_units {f : Fields} {regs : List (BitVec 32)} (hregs : ∀ reg ∈ regs, reg.toNat < 2 ^ 4)
    (hlo : f.lo = (regs.getD 4 0).toNat)
    (hu4 : f.u4 = ((regs.getD 3 0 &&& 0xf) <<< 12 ||| (regs.getD 2 0 &&& 0xf) <<< 8 |||
      (regs.getD 1 0 &&& 0xf) <<< 4 ||| (regs.getD 0 0 &&& 0xf)).setWidth 16) :
    f.rv = (List.range 5).map fun i => (regs.getD i 0).toNat := by
  have hnib : ∀ i, (((regs.getD i 0).setWidth 4).setWidth 16).toNat = (regs.getD i 0).toNat := by
    intro i
    have hlt := toNat_getD_lt hregs i
    simp only [BitVec.toNat_setWidth]
    omega
  obtain ⟨h0, h1, h2, h3⟩ := nibbles_of_unit _ _ _ _ hu4
  simp only [Fields.rv, h0, h1, h2, h3, hnib, hlo]
  rfl

theorem args_of_rv {f : Fields} {regs : List (BitVec 32)} (hlength : regs.length ≤ 5)
    (hhi : f.hi = regs.length)
    (hrv : f.rv = (List.range 5).map fun i => (regs.getD i 0).toNat) :
    (List.range f.hi).map (f.rv[·]?) = (regs.map BitVec.toNat).map some := by
  rw [hhi, hrv]
  refine List.ext_getElem? fun i => ?_
  by_cases hi : i < regs.length
  · simp [hi, show i < 5 by omega]
  · simp [hi]

theorem toNat_setWidth_of_lt {n : ℕ} {x : BitVec 64} (hx : x.toNat < 2 ^ n) :
    (x.setWidth n).toNat = x.toNat := by
  rw [BitVec.toNat_setWidth, Nat.mod_eq_of_lt hx]

/-- A literal that fits its field is read back. -/
theorem FitsSigned.signExtend {n : ℕ} (hn : 0 < n) (hle : n ≤ 64) {x : BitVec 64}
    (hx : FitsSigned n x.toInt) : (x.setWidth n).signExtend 64 = x := by
  rw [BitWords.signExtend_setWidth hn hle le_rfl x hx.1 hx.2, BitVec.setWidth_eq]

/-- A displacement that fits its field has its value in 64 bits. -/
theorem Reaches.toInt_sub {n : ℕ} (hle : n ≤ 32) {cur : BitVec 32} {target : BitVec 64}
    (h : Reaches n cur target) :
    (target - cur.signExtend 64).toInt = target.toInt - cur.toInt := by
  obtain ⟨-, hlo, hhi⟩ := h
  have hpow : (2 : ℤ) ^ (n - 1) ≤ 2 ^ 31 := by
    exact_mod_cast Nat.pow_le_pow_right (by decide) (by omega)
  rw [BitVec.toInt_sub, BitVec.toInt_signExtend_of_le (by decide)]
  apply Int.bmod_eq_of_le <;> omega

/-- A displacement that fits its field is read back. -/
theorem Reaches.signExtend {n : ℕ} (hn : 0 < n) (hle : n ≤ 32) {cur : BitVec 32}
    {target : BitVec 64} (h : Reaches n cur target) :
    ((target - cur.signExtend 64).setWidth n).signExtend 32 = target.setWidth 32 - cur := by
  have hdiff := h.toInt_sub hle
  obtain ⟨-, hlo, hhi⟩ := h
  rw [BitWords.signExtend_setWidth hn hle (by decide) _ (by rw [hdiff]; exact hlo)
    (by rw [hdiff]; exact hhi), BitVec.sub_eq_add_neg, BitVec.setWidth_add _ _ (by decide),
    BitVec.setWidth_neg_of_le (by decide), BitWords.setWidth_signExtend (by decide),
    BitVec.sub_eq_add_neg]

/-! ## Encoded instructions -/

/-- An instruction stands encoded at a unit of a method, in a file of a size that its offsets can
express. -/
structure Placed (d : List UInt8) (code : Code) (ins : DalvikInstr) (cur : BitVec 32) : Prop where
  size : d.length < 2 ^ 32
  stands : StandsAt d (insnAddr code cur).toNat ((mdEncode ins cur).map UInt8.ofBitVec)

theorem length_putU16 (v : BitVec 16) : ((putU16 v).map UInt8.ofBitVec).length = 2 := rfl

theorem putS16_eq (v : BitVec 16) : putS16 v = putU16 v := rfl

variable {code : Code} {ins : DalvikInstr} {cur : BitVec 32} {entry : MdOp}

/-- The fields of an encoded instruction hold its operands. -/
theorem Placed.stores (hplaced : Placed d code ins cur)
    (hentry : mdOps.lookup ins.mnem = some entry) (hrange : InRange entry.fmt ins cur) :
    Stores entry.fmt (fieldsAt d (insnAddr code cur)) (operandsOf entry.fmt ins) cur := by
  have hop := toNat_op_lt hentry
  obtain ⟨hsize, hstands⟩ := hplaced
  simp only [mdEncode, hentry] at hstands
  cases hfmt : entry.fmt
  all_goals
    simp only [hfmt, InRange, putWord, putS16_eq, putI32_eq, List.map_append, standsAt_append,
      length_putU16, List.length_append] at hstands hrange
    simp only [Stores, operandsOf]
  case f11x => rw [b1_putByte hsize hop hstands, toNat_setWidth_of_lt hrange]
  case f12x =>
    exact ⟨lo_of_unitAt hsize hop hstands hrange.1, hi_of_unitAt hsize hop hstands hrange.2⟩
  case f11n =>
    refine ⟨lo_of_unitAt hsize hop hstands hrange.1, ?_⟩
    rw [(nibbles_of_unitAt hsize hop hstands).2, sshiftRight_nibble,
      hrange.2.signExtend (by decide) (by decide)]
  case f22x =>
    rw [b1_putByte hsize hop hstands.1, u2_of_unitAt hsize hstands.2]
    exact ⟨toNat_setWidth_of_lt hrange.1, toNat_setWidth_of_lt hrange.2⟩
  case f21c =>
    rw [b1_putByte hsize hop hstands.1, u2_of_unitAt hsize hstands.2]
    exact ⟨toNat_setWidth_of_lt hrange.1, toNat_setWidth_of_lt hrange.2⟩
  case f21s =>
    rw [b1_putByte hsize hop hstands.1, u2_of_unitAt hsize hstands.2]
    exact ⟨toNat_setWidth_of_lt hrange.1, hrange.2.signExtend (by decide) (by decide)⟩
  case f21h =>
    rw [b1_putByte hsize hop hstands.1, u2_of_unitAt hsize hstands.2]
    exact ⟨toNat_setWidth_of_lt hrange.1, hrange.2.signExtend (by decide) (by decide)⟩
  case f31i =>
    rw [b1_putByte hsize hop hstands.1, w2_of_unitAt hsize hstands.2.1 hstands.2.2,
      BitWords.high_append_low]
    exact ⟨toNat_setWidth_of_lt hrange.1, hrange.2.signExtend (by decide) (by decide)⟩
  case f23x =>
    obtain ⟨hlow, hhigh⟩ := bytes_of_unit (ins.ops.getD 2 0) hrange.2.1
    rw [Fields.bb, Fields.cc, b1_putByte hsize hop hstands.1, u2_of_unitAt hsize hstands.2, hlow,
      hhigh]
    exact ⟨toNat_setWidth_of_lt hrange.1, rfl, toNat_setWidth_of_lt hrange.2.2⟩
  case f22b =>
    obtain ⟨hlow, -⟩ := bytes_of_unit (ins.ops.getD 2 0 &&& 0xff) hrange.2.1
    rw [Fields.bb, b1_putByte hsize hop hstands.1, u2_of_unitAt hsize hstands.2, hlow,
      BitWords.high_byte _ hrange.2.1]
    have hbyte : (ins.ops.getD 2 0 &&& 0xff).setWidth 8 = (ins.ops.getD 2 0).setWidth 8 :=
      BitWords.setWidth_and_byte _
    rw [hbyte]
    exact ⟨toNat_setWidth_of_lt hrange.1, rfl, hrange.2.2.signExtend (by decide) (by decide)⟩
  case f22s =>
    rw [lo_of_unitAt hsize hop hstands.1 hrange.1, hi_of_unitAt hsize hop hstands.1 hrange.2.1,
      u2_of_unitAt hsize hstands.2]
    exact ⟨rfl, rfl, hrange.2.2.signExtend (by decide) (by decide)⟩
  case f22c =>
    rw [lo_of_unitAt hsize hop hstands.1 hrange.1, hi_of_unitAt hsize hop hstands.1 hrange.2.1,
      u2_of_unitAt hsize hstands.2]
    exact ⟨rfl, rfl, toNat_setWidth_of_lt hrange.2.2⟩
  case f22t =>
    rw [lo_of_unitAt hsize hop hstands.1 hrange.1, hi_of_unitAt hsize hop hstands.1 hrange.2.1,
      u2_of_unitAt hsize hstands.2]
    exact ⟨rfl, rfl, hrange.2.2.signExtend (by decide) (by decide)⟩
  case f21t =>
    rw [b1_putByte hsize hop hstands.1, u2_of_unitAt hsize hstands.2]
    exact ⟨toNat_setWidth_of_lt hrange.1, hrange.2.signExtend (by decide) (by decide)⟩
  case f10t =>
    rw [b1_putByte hsize hop hstands, BitWords.setWidth_and_byte]
    exact hrange.signExtend (by decide) (by decide)
  case f20t =>
    rw [u2_of_unitAt hsize hstands.2]
    exact hrange.signExtend (by decide) (by decide)
  case f30t =>
    rw [w2_of_unitAt hsize hstands.2.1 hstands.2.2, BitWords.high_append_low]
    have hfield := hrange.signExtend (by decide) (by decide)
    rwa [BitVec.signExtend_eq] at hfield
  case f35c =>
    obtain ⟨hlength, hregs, hpool⟩ := hrange
    obtain ⟨⟨hfirst, hsecond⟩, hthird⟩ := hstands
    rw [invoke_unit _ (by omega)] at hfirst
    have hlast := toNat_getD_lt hregs 4
    have hhi : (fieldsAt d (insnAddr code cur)).hi = ins.regs.length := by
      rw [hi_of_unitAt hsize hop hfirst (by rw [BitVec.toNat_ofNat]; omega), BitVec.toNat_ofNat]
      omega
    have hlo : (fieldsAt d (insnAddr code cur)).lo = (ins.regs.getD 4 0).toNat := by
      rw [lo_of_unitAt hsize hop hfirst (by rw [BitVec.toNat_setWidth]; omega),
        BitVec.toNat_setWidth]
      omega
    refine ⟨?_, args_of_rv hlength hhi (rv_of_units hregs hlo (u4_of_unitAt hsize hthird))⟩
    rw [u2_of_unitAt hsize hsecond, toNat_setWidth_of_lt hpool]
  case f3rc =>
    obtain ⟨⟨hfirst, hsecond⟩, hthird⟩ := hstands
    rw [b1_putByte hsize hop hfirst, u2_of_unitAt hsize hsecond, u4_of_unitAt hsize hthird]
    exact ⟨toNat_setWidth_of_lt hrange.2.1, toNat_setWidth_of_lt hrange.2.2,
      toNat_setWidth_of_lt hrange.1⟩

/-- Every encoding starts with a unit that has the opcode in its low byte. -/
theorem mdEncode_head (hentry : mdOps.lookup ins.mnem = some entry)
    (hrange : InRange entry.fmt ins cur) : ∃ (x : BitVec 64) (rest : _), mdEncode ins cur =
      putU16 ((x <<< 8 ||| entry.op.setWidth 64).setWidth 16) ++ rest := by
  have hword : entry.op = ((0 : BitVec 64) <<< 8 ||| entry.op.setWidth 64).setWidth 16 := by
    apply BitVec.eq_of_getLsbD_eq
    intro i hi
    simp [hi]
  simp only [mdEncode, hentry]
  cases hfmt : entry.fmt
  case f10x => exact ⟨0, [], by rw [← hword, List.append_nil]⟩
  case f20t => exact ⟨0, _, by rw [← hword]⟩
  case f30t => exact ⟨0, _, by rw [← hword]⟩
  case f31c => exact absurd hfmt (lookup_spec hentry).2
  case f35c =>
    rw [hfmt] at hrange
    have hlength := hrange.1
    simp only [List.append_assoc]
    rw [invoke_unit _ (by omega), nibbles_eq]
    exact ⟨_, _, rfl⟩
  all_goals
    simp only [putWord, nibbles_eq, List.append_assoc]
    exact ⟨_, _, rfl⟩

/-- The opcode byte of an encoded instruction is that of the table. -/
theorem Placed.opcode (hplaced : Placed d code ins cur)
    (hentry : mdOps.lookup ins.mnem = some entry) (hrange : InRange entry.fmt ins cur) :
    ∃ op, d[(insnAddr code cur).toNat]? = some op ∧ op.toNat = entry.op.toNat := by
  have hop := toNat_op_lt hentry
  obtain ⟨x, rest, hhead⟩ := mdEncode_head hentry hrange
  have hstands := hplaced.stands
  rw [hhead, List.map_append] at hstands
  have hunit := (unitAt_iff.mp (standsAt_append.mp hstands).1).1
  refine ⟨_, hunit, ?_⟩
  have hlow := (bytes_of_unit x hop).1
  rw [BitVec.toNat_and, show (0xff : BitVec 16).toNat = 2 ^ 8 - 1 by decide,
    Nat.and_two_pow_sub_one_eq_mod] at hlow
  calc _ = ((x <<< 8 ||| entry.op.setWidth 64).setWidth 16).toNat % 2 ^ 8 :=
        BitVec.toNat_setWidth 8 _
    _ = (entry.op.setWidth 64).toNat := hlow
    _ = entry.op.toNat := BitVec.toNat_setWidth_of_le (by decide)

/-! ## Execution -/

variable {σ : Type*}

/-- The units that an instruction takes when it does not branch. -/
def Insn.units : Insn → ℕ
  | .skip n | .move _ _ _ n | .const _ _ _ n | .constString _ _ n | .binop _ _ _ _ _ n => n
  | .gotoWide _ n => n
  | .moveResult _ | .returnVoid | .returnReg .. | .arrayLength .. | .throw | .goto _ | .unop .. => 1
  | .placeholder .. | .newInstance .. | .newArray .. | .ifTest .. | .ifTestz .. => 2
  | .aget .. | .aput .. | .iget .. | .iput .. | .sget .. | .sput .. | .lit .. => 2
  | .invoke .. | .invokeRange .. => 3

/-- The instruction branches in a frame. -/
def Insn.Branches (i : Insn) (f : Frame) : Prop :=
  match i with
  | .goto _ | .gotoWide .. => True
  | .ifTest c a b _ => ∃ x ∈ f.regs[a]?, ∃ y ∈ f.regs[b]?, c.holds x y = true
  | .ifTestz c a _ => ∃ x ∈ f.regs[a]?, c.holds x 0 = true
  | _ => False

/-- If the method goes on, it does so `n` units behind. -/
def Outcome.Advances (o : Outcome σ) (f : Frame) (n : ℕ) : Prop :=
  ∀ f' s', o = .next f' s' → f'.pc = f.pc + BitVec.ofNat 32 n

section Advances

variable {f : Frame} {n : ℕ} {s : σ}

theorem Frame.of_read {r : ℕ} {k : BitVec 64 → Outcome σ} {f' : Frame} {s' : σ}
    (h : f.read r k = .next f' s') : ∃ v, f.regs[r]? = some v ∧ k v = .next f' s' := by
  unfold Frame.read at h
  split at h
  · exact nomatch h
  · exact ⟨_, by assumption, h⟩

theorem advances_next : (Outcome.next (f.advance n) s).Advances f n := by
  intro f' s' h
  obtain ⟨rfl, -⟩ := Outcome.next.inj h
  rfl

theorem advances_done (v : BitVec 64) : (Outcome.done v s).Advances f n := nofun

theorem advances_read {r : ℕ} {k : BitVec 64 → Outcome σ} (h : ∀ v, (k v).Advances f n) :
    (f.read r k).Advances f n := by
  unfold Frame.read
  split
  · exact nofun
  · exact h _

theorem advances_write (r : ℕ) (v : BitVec 64) : (f.write r v n s).Advances f n := by
  intro f' s' h
  unfold Frame.write at h
  split at h
  · obtain ⟨rfl, -⟩ := Outcome.next.inj h
    rfl
  · exact nomatch h

theorem advances_writeResult (r : ℕ) (v : Option (BitVec 64)) :
    (f.writeResult r v n s).Advances f n := by
  cases v with
  | none => exact nofun
  | some v => exact advances_write r v

theorem advances_ask {α : Type*} {r : ℕ} {callback : Option α}
    {k : α → (BitVec 64 × σ → Outcome σ) → Outcome σ}
    (h : ∀ g next, (∀ answer, (next answer).Advances f n) → (k g next).Advances f n) :
    (f.ask r callback n s k).Advances f n := by
  cases callback with
  | none => exact advances_write r 0
  | some g => exact h g _ fun answer => advances_write r _

theorem advances_tell {α : Type*} {callback : Option α} {k : α → (σ → Outcome σ) → Outcome σ}
    (h : ∀ g next, (∀ s', (next s').Advances f n) → (k g next).Advances f n) :
    (f.tell callback n s k).Advances f n := by
  cases callback with
  | none => exact advances_next
  | some g => exact h g _ fun s' => advances_next

theorem advances_call (host : Host σ) (k : InvokeKind) (idx : ℕ)
    (args : Option (List (BitVec 64))) : (f.call host k idx args s).Advances f 3 := by
  intro f' s' h
  unfold Frame.call at h
  split at h
  · exact nomatch h
  · obtain ⟨rfl, -⟩ := Outcome.next.inj h
    rfl
  · obtain ⟨rfl, -⟩ := Outcome.next.inj h
    rfl

end Advances

/-- An instruction that does not branch goes on behind its units. -/
theorem exec_advances (host : Host σ) (i : Insn) (f : Frame) (s : σ) (hi : ¬i.Branches f) :
    (exec host i f s).Advances f i.units := by
  cases i with
  | skip n => exact advances_next
  | move t dst src n => exact advances_read fun v => advances_write dst v
  | moveResult dst => exact advances_write dst _
  | returnVoid => exact advances_done 0
  | returnReg t src => exact advances_read fun v => advances_done v
  | const t dst v n => exact advances_write dst v
  | constString dst idx n => exact advances_ask fun g next h => h _
  | placeholder dst v => exact advances_write dst v
  | newInstance dst idx => exact advances_ask fun g next h => h _
  | newArray dst len idx =>
    simp only [exec, Insn.units]
    apply advances_ask
    intro g next h
    exact advances_read fun _ => h _
  | arrayLength dst arr =>
    simp only [exec, Insn.units]
    apply advances_ask
    intro g next h
    exact advances_read fun _ => h _
  | throw => exact advances_done _
  | goto off => exact absurd trivial hi
  | gotoWide off n => exact absurd trivial hi
  | ifTest c a b off =>
    intro f' s' h
    obtain ⟨x, hx, h⟩ := Frame.of_read h
    obtain ⟨y, hy, h⟩ := Frame.of_read h
    obtain ⟨rfl, -⟩ := Outcome.next.inj h
    have hholds : ¬c.holds x y = true := fun hc => hi ⟨x, hx, y, hy, hc⟩
    rw [Frame.branch, if_neg fun h => hholds h.1]
    rfl
  | ifTestz c a off =>
    intro f' s' h
    obtain ⟨x, hx, h⟩ := Frame.of_read h
    obtain ⟨rfl, -⟩ := Outcome.next.inj h
    have hholds : ¬c.holds x 0 = true := fun hc => hi ⟨x, hx, hc⟩
    rw [Frame.branch, if_neg fun h => hholds h.1]
    rfl
  | aget dst arr idx =>
    simp only [exec, Insn.units]
    apply advances_ask
    intro g next h
    exact advances_read fun _ => advances_read fun _ => h _
  | aput src arr idx =>
    simp only [exec, Insn.units]
    apply advances_tell
    intro g next h
    exact advances_read fun _ => advances_read fun _ => advances_read fun _ => h _
  | iget dst obj idx =>
    simp only [exec, Insn.units]
    apply advances_ask
    intro g next h
    exact advances_read fun _ => h _
  | iput src obj idx =>
    simp only [exec, Insn.units]
    apply advances_tell
    intro g next h
    exact advances_read fun _ => advances_read fun _ => h _
  | sget dst idx => exact advances_ask fun g next h => h _
  | sput src idx =>
    simp only [exec, Insn.units]
    apply advances_tell
    intro g next h
    exact advances_read fun _ => h _
  | invoke k idx args => exact advances_call host k idx _
  | invokeRange k idx first count => exact advances_call host k idx _
  | unop u dst src => exact advances_read fun v => advances_write dst _
  | binop t k dst a b n =>
    exact advances_read fun x => advances_read fun y => advances_writeResult dst _
  | lit k dst src lit => exact advances_read fun v => advances_writeResult dst _

/-- The offset of a branch. -/
def Insn.off : Insn → BitVec 32
  | .goto off | .gotoWide off _ | .ifTest _ _ _ off | .ifTestz _ _ off => off
  | _ => 0

/-- An instruction that branches goes on at its offset, unless that is zero. -/
theorem exec_branches {host : Host σ} {i : Insn} {f f' : Frame} {s s' : σ} (hi : i.Branches f)
    (hoff : i.off ≠ 0) (h : exec host i f s = .next f' s') : f'.pc = f.pc + i.off := by
  cases i with
  | goto off =>
    simp only [exec, if_neg (show ¬off = 0 from hoff)] at h
    obtain ⟨rfl, -⟩ := Outcome.next.inj h
    rfl
  | gotoWide off n =>
    obtain ⟨rfl, -⟩ := Outcome.next.inj h
    simp only [Frame.branch, if_pos (And.intro trivial (show off ≠ 0 from hoff))]
    rfl
  | ifTest c a b off =>
    obtain ⟨x, hx, y, hy, hc⟩ := hi
    simp only [exec, Frame.read, Option.mem_def.mp hx, Option.mem_def.mp hy] at h
    obtain ⟨rfl, -⟩ := Outcome.next.inj h
    simp only [Frame.branch, if_pos (And.intro hc (show off ≠ 0 from hoff))]
    rfl
  | ifTestz c a off =>
    obtain ⟨x, hx, hc⟩ := hi
    simp only [exec, Frame.read, Option.mem_def.mp hx] at h
    obtain ⟨rfl, -⟩ := Outcome.next.inj h
    simp only [Frame.branch, if_pos (And.intro hc (show off ≠ 0 from hoff))]
    rfl
  | _ => exact hi.elim

/-! ## Agreement -/

theorem units_insn {shape : Shape} {fmt : Fmt} (hfits : shape.fits fmt = true) (o : Operands)
    (cur : BitVec 32) : (shape.insn o cur).units = mdUnits fmt := by
  cases shape with
  | skip n =>
    simp only [Shape.fits, Bool.and_eq_true, decide_eq_true_eq] at hfits
    exact hfits.1
  | move32 t => exact absurd hfits Bool.false_ne_true
  | wide64 => exact absurd hfits Bool.false_ne_true
  | constStringJumbo => exact absurd hfits Bool.false_ne_true
  | _ =>
    simp only [Shape.fits, decide_eq_true_eq] at hfits
    subst hfits
    rfl

/-- A displacement in range is not zero as an offset. -/
theorem Reaches.sub_ne_zero {n : ℕ} (hn : 0 < n) (hle : n ≤ 32) {target : BitVec 64}
    (h : Reaches n cur target) : target.setWidth 32 - cur ≠ 0 := by
  intro hzero
  have hdiff := h.toInt_sub hle
  have hfield := h.signExtend hn hle
  rw [hzero] at hfield
  have hlo : -(2 ^ (n - 1) : ℤ) ≤ (target - cur.signExtend 64).toInt := by
    rw [hdiff]
    exact h.2.1
  have hhi : (target - cur.signExtend 64).toInt < 2 ^ (n - 1) := by
    rw [hdiff]
    exact h.2.2
  have hword := BitWords.signExtend_setWidth hn (le_trans hle (by decide)) le_rfl _ hlo hhi
  have hfalse : target.toInt - cur.toInt = 0 := by
    rw [← hdiff, ← BitVec.setWidth_eq (target - cur.signExtend 64), ← hword,
      BitVec.toInt_signExtend_of_le (le_trans hle (by decide)), ← BitVec.toInt_signExtend_of_le hle,
      hfield]
    rfl
  exact h.1 (by omega)

/-- A case that branches has its displacement as the offset. -/
theorem off_insn {shape : Shape} {fmt : Fmt} (hfits : shape.fits fmt = true)
    (hrange : InRange fmt ins cur) {f : Frame}
    (hbranches : (shape.insn (operandsOf fmt ins) cur).Branches f) :
    (shape.insn (operandsOf fmt ins) cur).off = (operandsOf fmt ins).target - cur ∧
      (shape.insn (operandsOf fmt ins) cur).off ≠ 0 := by
  cases shape with
  | goto8 =>
    simp only [Shape.fits, decide_eq_true_eq] at hfits
    subst hfits
    exact ⟨rfl, Reaches.sub_ne_zero (by decide) (by decide) hrange⟩
  | goto16 =>
    simp only [Shape.fits, decide_eq_true_eq] at hfits
    subst hfits
    exact ⟨rfl, Reaches.sub_ne_zero (by decide) (by decide) hrange⟩
  | goto32 =>
    simp only [Shape.fits, decide_eq_true_eq] at hfits
    subst hfits
    exact ⟨rfl, Reaches.sub_ne_zero (by decide) (by decide) hrange⟩
  | ifTest c =>
    simp only [Shape.fits, decide_eq_true_eq] at hfits
    subst hfits
    exact ⟨rfl, Reaches.sub_ne_zero (by decide) (by decide) hrange.2.2⟩
  | ifTestz c =>
    simp only [Shape.fits, decide_eq_true_eq] at hfits
    subst hfits
    exact ⟨rfl, Reaches.sub_ne_zero (by decide) (by decide) hrange.2⟩
  | _ => exact hbranches.elim

/-- An encoded instruction is executed as the case of its opcode on its own operands. -/
theorem Placed.step {f : Frame} {shape : Shape} (hplaced : Placed d code ins f.pc)
    (hentry : mdOps.lookup ins.mnem = some entry) (hshape : shapeOf entry.op.toNat = some shape)
    (hrange : InRange entry.fmt ins f.pc) (host : Host σ) (s : σ) :
    step d host code f s = exec host (shape.insn (operandsOf entry.fmt ins) f.pc) f s := by
  obtain ⟨op, hget, hop⟩ := hplaced.opcode hentry hrange
  have hdecode := decode_of_stores (fits_of_lookup hentry hshape) (hplaced.stores hentry hrange)
  simp only [Dalvik.step, hget, hop, hshape, hdecode]

/-- The interpreter takes the instruction at a unit for what the encoder was given: it sees the
opcode and the operands, goes on behind the units of the format, and branches to the target. -/
structure Speaks (d : List UInt8) (code : Code) (ins : DalvikInstr) (cur : BitVec 32) (entry : MdOp)
    (shape : Shape) : Prop where
  opcode : ∃ op, d[(insnAddr code cur).toNat]? = some op ∧ op.toNat = entry.op.toNat
  operands : shape.decode (fieldsAt d (insnAddr code cur)) =
    shape.insn (operandsOf entry.fmt ins) cur
  advances : ∀ {σ : Type} (host : Host σ) (f f' : Frame) (s s' : σ), f.pc = cur →
    ¬(shape.insn (operandsOf entry.fmt ins) cur).Branches f →
    Dalvik.step d host code f s = .next f' s' → f'.pc = cur + BitVec.ofNat 32 (mdUnits entry.fmt)
  lands : ∀ {σ : Type} (host : Host σ) (f f' : Frame) (s s' : σ), f.pc = cur →
    (shape.insn (operandsOf entry.fmt ins) cur).Branches f →
    Dalvik.step d host code f s = .next f' s' → f'.pc = (operandsOf entry.fmt ins).target

theorem Placed.speaks {shape : Shape} (hplaced : Placed d code ins cur)
    (hentry : mdOps.lookup ins.mnem = some entry) (hshape : shapeOf entry.op.toNat = some shape)
    (hrange : InRange entry.fmt ins cur) : Speaks d code ins cur entry shape := by
  have hfits := fits_of_lookup hentry hshape
  refine ⟨hplaced.opcode hentry hrange, decode_of_stores hfits (hplaced.stores hentry hrange),
    ?_, ?_⟩
  · rintro σ host f f' s s' rfl hbranches hstep
    rw [hplaced.step hentry hshape hrange] at hstep
    rw [exec_advances host _ f s hbranches f' s' hstep, units_insn hfits]
  · rintro σ host f f' s s' rfl hbranches hstep
    rw [hplaced.step hentry hshape hrange] at hstep
    obtain ⟨hoff, hne⟩ := off_insn hfits hrange hbranches
    rw [exec_branches hbranches hne hstep, hoff, BitVec.add_comm, BitVec.sub_add_cancel]

/-! ## Constants -/

/-- Executing an encoded instruction puts a value into a register and goes on behind it. -/
def Loads (ins : DalvikInstr) (reg : ℕ) (v : BitVec 64) : Prop :=
  ∀ {σ : Type} (d : List UInt8) (host : Host σ) (code : Code) (f : Frame) (s : σ),
    Placed d code ins f.pc → reg < f.regs.length →
      step d host code f s = .next { f.advance (instrUnits ins) with regs := f.regs.set reg v } s

/-- The constant instruction for a register of four bits loads every literal of 32 bits. -/
theorem loads_constForm {reg lit : BitVec 64} (hreg : reg.toNat < 2 ^ 4)
    (hlit : FitsSigned 32 lit.toInt) : Loads (constForm reg lit) reg.toNat lit := by
  intro σ d host code f s hplaced hlt
  have hbyte : reg.toNat < 2 ^ 8 := Nat.lt_trans hreg (by decide)
  unfold constForm at hplaced ⊢
  split_ifs at hplaced ⊢ with h4 h16
  · have hentry : mdOps.lookup "const/4" = some ⟨0x12, .f11n⟩ := by decide +kernel
    have hfits : FitsSigned 4 lit.toInt := ⟨h4.1, Int.lt_add_one_of_le h4.2⟩
    rw [hplaced.step hentry rfl ⟨hreg, hfits⟩]
    simp only [instrUnits, hentry]
    exact if_pos hlt
  · have hentry : mdOps.lookup "const/16" = some ⟨0x13, .f21s⟩ := by decide +kernel
    have hfits : FitsSigned 16 lit.toInt := ⟨h16.1, Int.lt_add_one_of_le h16.2⟩
    rw [hplaced.step hentry rfl ⟨hbyte, hfits⟩]
    simp only [instrUnits, hentry]
    exact if_pos hlt
  · have hentry : mdOps.lookup "const" = some ⟨0x14, .f31i⟩ := by decide +kernel
    rw [hplaced.step hentry rfl ⟨hbyte, hlit⟩]
    simp only [instrUnits, hentry]
    exact if_pos hlt

theorem toNat_nibbleAt_lt (w : BitVec 32) (shift : ℕ) : (nibbleAt w shift).toNat < 2 ^ 4 := by
  rw [nibbleAt, BitVec.toNat_and]
  exact Nat.and_lt_two_pow _ (by decide)

theorem toNat_literal_lt (raw : BitVec 32) : (raw >>> 8 >>> 4).toNat < 2 ^ 20 := by
  have hraw := raw.isLt
  simp only [BitVec.toNat_ushiftRight, Nat.shiftRight_eq_div_pow]
  omega

/-- For every opcode that is in the table of the encoder and in the switch of the interpreter, and
all operands in range, the interpreter reads an encoded instruction as it was meant. For every
constant that the decoder of the log produces, the form that is chosen loads exactly its literal. -/
theorem interpreter_reads_encoder :
    (∀ (d : List UInt8) (code : Code) (ins : DalvikInstr) (cur : BitVec 32) (entry : MdOp)
      (shape : Shape), mdOps.lookup ins.mnem = some entry → shapeOf entry.op.toNat = some shape →
      InRange entry.fmt ins cur → Placed d code ins cur → Speaks d code ins cur entry shape) ∧
    (∀ (dlv : List RawDlv) (cls : BitVec 16 → Option String), ∀ vm ∈ mdDecodeMethod dlv cls,
      vm.family = "const" → ∃ reg lit, vm.vregs = [reg] ∧ vm.lit = some lit ∧
        Loads (mdToDalvik vm) reg.toNat lit) := by
  constructor
  · intro d code ins cur entry shape hentry hshape hrange hplaced
    exact hplaced.speaks hentry hshape hrange
  · intro dlv cls vm hvm hfam
    obtain ⟨raw, hvregs, hlit⟩ := mdDecodeMethod_const hvm hfam
    refine ⟨_, _, hvregs, hlit, ?_⟩
    rw [mdToDalvik_const hfam hvregs, hlit, Option.getD_some]
    have hnibble := toNat_nibbleAt_lt (raw >>> 8) 0
    have hreg := BitWords.toNat_signExtend (v := 64) (by decide) (Nat.lt_trans hnibble (by decide))
    have hword := toNat_literal_lt raw
    have hvalue := BitWords.toInt_signExtend (v := 64) (by decide) (Nat.lt_trans hword (by decide))
    rw [← hreg]
    apply loads_constForm
    · rwa [hreg]
    · rw [hvalue]
      exact ⟨by omega, by omega⟩

/-- A conditional branch in a method of its own, and the constant 0x12345 for register 7. -/
theorem interpreter_reads_encoder_if_lt :
    Speaks ((mdEncode { mnem := "if-lt", ops := [1, 2, 5] } 0).map UInt8.ofBitVec)
        { insnsSize := 2, valid := true } { mnem := "if-lt", ops := [1, 2, 5] } 0 ⟨0x34, .f22t⟩
        (.ifTest .lt) ∧
      ∃ reg lit, [reg] = [7#32] ∧ some lit = some 0x12345#64 ∧
        Loads { mnem := "const", ops := [7, 0x12345] } reg.toNat lit := by
  constructor
  · apply interpreter_reads_encoder.1
    · decide +kernel
    · rfl
    · exact ⟨by decide, by decide, by decide, by decide, by decide⟩
    · exact ⟨by decide +kernel, List.prefix_rfl⟩
  · have hdecoded :
        mdDecodeMethod [{ p := 0, op := 1, raw := 0x12345700 }] (fun _ => some "const") =
          [{ op := 1, family := "const", vregs := [7], lit := some 0x12345 }] := by decide +kernel
    have hform : mdToDalvik { op := 1, family := "const", vregs := [7], lit := some 0x12345 } =
        { mnem := "const", ops := [7, 0x12345] } := by decide +kernel
    have hloads := interpreter_reads_encoder.2 [{ p := 0, op := 1, raw := 0x12345700 }]
      (fun _ => some "const") { op := 1, family := "const", vregs := [7], lit := some 0x12345 }
      (by rw [hdecoded]; exact List.mem_cons_self) rfl
    rw [hform] at hloads
    obtain ⟨reg, lit, hreg, hlit, hloads⟩ := hloads
    exact ⟨reg, lit, hreg.symm, hlit.symm, hloads⟩

end Vardoger.Dalvik
