import Vardoger.Dex.DexFile

/-!
# The bytecode interpreter

`Dalvik::run` keeps every register in a slot of 64 bits, whatever the type of its value. The switch
over the opcode is split here into the case that an opcode selects, the operands that the case reads
from the instruction stream, and what it does with them. Reading or writing a register that the
method does not have has no defined result, and neither has a division that overflows 64 bits, which
traps; the other 64-bit operations wrap around.
-/

namespace Vardoger

inductive InvokeKind
  | virtual | super | direct | static | interface
  deriving DecidableEq, Repr

namespace Dalvik

open Dex Bytes LittleEndian

/-- The nesting depth up to which `Dalvik::run` executes anything. -/
def kMaxDepth : ℕ := 64

/-- The number of instructions after which `Dalvik::run` gives up. -/
def kMaxSteps : ℕ := 200000

/-! ## Opcodes -/

/-- The type that an opcode gives its operands. The interpreter does not look at it. -/
inductive Ty
  | int | long | float | double | object
  deriving DecidableEq, Repr

/-- The operations of `ibin`. -/
inductive Alu
  | add | sub | mul | div | rem | and | or | xor | shl | shr | ushr
  deriving DecidableEq, Repr

inductive Cond
  | eq | ne | lt | ge | gt | le
  deriving DecidableEq, Repr

/-- The unary operations; the conversions from and to floating point copy the slot. -/
inductive Unop
  | negInt | notInt | negLong | notLong | intToLong | longToInt | intToByte | intToChar | intToShort
  | passthrough
  deriving DecidableEq, Repr

/-- An operation with a literal: the reversed subtraction or one of `ibin`. -/
inductive LitOp
  | rsub
  | alu (k : Alu)
  deriving DecidableEq, Repr

/-- The cases of the switch. -/
inductive Shape
  | skip (units : ℕ)
  | move12 (t : Ty)
  | move22 (t : Ty)
  | move32 (t : Ty)
  | moveResult
  | returnVoid
  | returnReg (t : Ty)
  | const4
  | const16 (t : Ty)
  | const32 (t : Ty)
  | high16 (t : Ty) (shift : ℕ)
  | wide64
  | constString
  | constStringJumbo
  | constClass
  | instanceOf
  | cmp
  | newInstance
  | newArray
  | arrayLength
  | throw
  | goto8
  | goto16
  | goto32
  | ifTest (c : Cond)
  | ifTestz (c : Cond)
  | aget
  | aput
  | iget
  | iput
  | sget
  | sput
  | invoke (k : InvokeKind)
  | invokeRange (k : InvokeKind)
  | unop (u : Unop)
  | binop (t : Ty) (k : Alu)
  | binop2addr (t : Ty) (k : Alu)
  | lit16 (k : LitOp)
  | lit8 (k : LitOp)
  deriving DecidableEq, Repr

/-- The operations of `ibin` by their index. -/
def aluOf (i : ℕ) : Alu :=
  [Alu.add, .sub, .mul, .div, .rem, .and, .or, .xor, .shl, .shr, .ushr].getD i .add

/-- The comparisons in the order of the opcodes. -/
def condOf (i : ℕ) : Cond := [Cond.eq, .ne, .lt, .ge, .gt, .le].getD i .eq

/-- The invocations in the order of the opcodes. -/
def kindOf (i : ℕ) : InvokeKind :=
  [InvokeKind.virtual, .super, .direct, .static, .interface].getD i .virtual

/-- The operations with a literal in the order of the opcodes: the second one is the reversed
subtraction. -/
def litOf (i : ℕ) : LitOp := if i = 1 then .rsub else .alu (aluOf i)

/-- The type and the operation of a binary opcode, from its distance to the first one. The
operations on `float` and `double` are numbered on without a break. -/
def binopOf (i : ℕ) : Ty × Alu :=
  if i < 0x0b then (.int, aluOf i)
  else if i < 0x16 then (.long, aluOf (i - 0x0b))
  else (if i < 0x1b then .float else .double, aluOf (i - 0x16))

/-- The case of an opcode, none for an unsupported one. -/
def shapeOf (op : ℕ) : Option Shape :=
  match op with
  | 0x00 => some (.skip 1)
  | 0x01 => some (.move12 .int)
  | 0x02 => some (.move22 .int)
  | 0x03 => some (.move32 .int)
  | 0x04 => some (.move12 .long)
  | 0x05 => some (.move22 .long)
  | 0x06 => some (.move32 .long)
  | 0x07 => some (.move12 .object)
  | 0x08 => some (.move22 .object)
  | 0x09 => some (.move32 .object)
  | 0x0a | 0x0b | 0x0c => some .moveResult
  | 0x0e => some .returnVoid
  | 0x0f => some (.returnReg .int)
  | 0x10 => some (.returnReg .long)
  | 0x11 => some (.returnReg .object)
  | 0x12 => some .const4
  | 0x13 => some (.const16 .int)
  | 0x14 => some (.const32 .int)
  | 0x15 => some (.high16 .int 16)
  | 0x16 => some (.const16 .long)
  | 0x17 => some (.const32 .long)
  | 0x18 => some .wide64
  | 0x19 => some (.high16 .long 48)
  | 0x1a => some .constString
  | 0x1b => some .constStringJumbo
  | 0x1c => some .constClass
  | 0x1d | 0x1e => some (.skip 1)
  | 0x1f => some (.skip 2)
  | 0x20 => some .instanceOf
  | 0x21 => some .arrayLength
  | 0x22 => some .newInstance
  | 0x23 => some .newArray
  | 0x24 | 0x25 | 0x26 | 0x2b | 0x2c => some (.skip 3)
  | 0x27 => some .throw
  | 0x28 => some .goto8
  | 0x29 => some .goto16
  | 0x2a => some .goto32
  | 0x2d | 0x2e | 0x2f | 0x30 | 0x31 => some .cmp
  | 0x7b => some (.unop .negInt)
  | 0x7c => some (.unop .notInt)
  | 0x7d => some (.unop .negLong)
  | 0x7e => some (.unop .notLong)
  | 0x81 => some (.unop .intToLong)
  | 0x84 => some (.unop .longToInt)
  | 0x8d => some (.unop .intToByte)
  | 0x8e => some (.unop .intToChar)
  | 0x8f => some (.unop .intToShort)
  | _ =>
      if 0x32 ≤ op ∧ op ≤ 0x37 then some (.ifTest (condOf (op - 0x32)))
      else if 0x38 ≤ op ∧ op ≤ 0x3d then some (.ifTestz (condOf (op - 0x38)))
      else if 0x44 ≤ op ∧ op ≤ 0x4a then some .aget
      else if 0x4b ≤ op ∧ op ≤ 0x51 then some .aput
      else if 0x52 ≤ op ∧ op ≤ 0x58 then some .iget
      else if 0x59 ≤ op ∧ op ≤ 0x5f then some .iput
      else if 0x60 ≤ op ∧ op ≤ 0x66 then some .sget
      else if 0x67 ≤ op ∧ op ≤ 0x6d then some .sput
      else if 0x6e ≤ op ∧ op ≤ 0x72 then some (.invoke (kindOf (op - 0x6e)))
      else if 0x74 ≤ op ∧ op ≤ 0x78 then some (.invokeRange (kindOf (op - 0x74)))
      else if 0x7f ≤ op ∧ op ≤ 0x8c then some (.unop .passthrough)
      else if 0x90 ≤ op ∧ op ≤ 0xaf then
        some (.binop (binopOf (op - 0x90)).1 (binopOf (op - 0x90)).2)
      else if 0xb0 ≤ op ∧ op ≤ 0xcf then
        some (.binop2addr (binopOf (op - 0xb0)).1 (binopOf (op - 0xb0)).2)
      else if 0xd0 ≤ op ∧ op ≤ 0xd7 then some (.lit16 (litOf (op - 0xd0)))
      else if 0xd8 ≤ op ∧ op ≤ 0xe2 then some (.lit8 (litOf (op - 0xd8)))
      else none

/-! ## Operands -/

/-- An instruction with the operands that its case reads. Registers and pool indices are natural
numbers, literals are extended to a slot, branch offsets to the program counter. -/
inductive Insn
  | skip (units : ℕ)
  | move (t : Ty) (dst src units : ℕ)
  | moveResult (dst : ℕ)
  | returnVoid
  | returnReg (t : Ty) (src : ℕ)
  | const (t : Ty) (dst : ℕ) (v : BitVec 64) (units : ℕ)
  | constString (dst idx units : ℕ)
  | placeholder (dst : ℕ) (v : BitVec 64)
  | newInstance (dst idx : ℕ)
  | newArray (dst len idx : ℕ)
  | arrayLength (dst arr : ℕ)
  | throw
  | goto (off : BitVec 32)
  | gotoWide (off : BitVec 32) (units : ℕ)
  | ifTest (c : Cond) (a b : ℕ) (off : BitVec 32)
  | ifTestz (c : Cond) (a : ℕ) (off : BitVec 32)
  | aget (dst arr idx : ℕ)
  | aput (src arr idx : ℕ)
  | iget (dst obj idx : ℕ)
  | iput (src obj idx : ℕ)
  | sget (dst idx : ℕ)
  | sput (src idx : ℕ)
  | invoke (k : InvokeKind) (idx : ℕ) (args : List (Option ℕ))
  | invokeRange (k : InvokeKind) (idx first count : ℕ)
  | unop (u : Unop) (dst src : ℕ)
  | binop (t : Ty) (k : Alu) (dst a b units : ℕ)
  | lit (k : LitOp) (dst src : ℕ) (lit : BitVec 64)
  deriving DecidableEq, Repr

/-- The halfword at an offset, `0` if it is not inside the file. -/
def u16 (d : List UInt8) (off : BitVec 32) : BitVec 16 :=
  if (off + 2).toNat ≤ d.length then BitVec.ofNat 16 (wordAt 2 d off.toNat) else 0

/-- The word at an offset, `0` if it is not inside the file. -/
def u32 (d : List UInt8) (off : BitVec 32) : BitVec 32 :=
  if (off + 4).toNat ≤ d.length then BitVec.ofNat 32 (wordAt 4 d off.toNat) else 0

/-- What the cases read behind the opcode byte: the byte `b1`, the halfwords at 2 and 4, the words
of 32 and 64 bits at 2. -/
structure Fields where
  b1 : BitVec 8
  u2 : BitVec 16
  u4 : BitVec 16
  w2 : BitVec 32
  q2 : BitVec 64

def fieldsAt (d : List UInt8) (iaddr : BitVec 32) : Fields where
  b1 := (d.getD (iaddr + 1).toNat 0).toBitVec
  u2 := u16 d (iaddr + 2)
  u4 := u16 d (iaddr + 4)
  w2 := u32 d (iaddr + 2)
  q2 := if (iaddr + 10).toNat ≤ d.length then BitVec.ofNat 64 (wordAt 8 d (iaddr + 2).toNat) else 0

/-- The register in the low half of `b1`. -/
def Fields.lo (f : Fields) : ℕ := (f.b1 &&& 0xf).toNat

/-- The register in the high half of `b1`. -/
def Fields.hi (f : Fields) : ℕ := (f.b1 >>> 4).toNat

/-- The register in the low byte of the second unit. -/
def Fields.bb (f : Fields) : ℕ := (f.u2 &&& 0xff).toNat

/-- The register in the high byte of the second unit. -/
def Fields.cc (f : Fields) : ℕ := (f.u2 >>> 8).toNat

/-- The five argument registers of an invoke. -/
def Fields.rv (f : Fields) : List ℕ :=
  [(f.u4 &&& 0xf).toNat, ((f.u4 >>> 4) &&& 0xf).toNat, ((f.u4 >>> 8) &&& 0xf).toNat,
    ((f.u4 >>> 12) &&& 0xf).toNat, f.lo]

/-- The operands that a case reads. An argument count above five reads behind the five registers. -/
def Shape.decode (shape : Shape) (f : Fields) : Insn :=
  match shape with
  | .skip n => .skip n
  | .move12 t => .move t f.lo f.hi 1
  | .move22 t => .move t f.b1.toNat f.u2.toNat 2
  | .move32 t => .move t f.u2.toNat f.u4.toNat 3
  | .moveResult => .moveResult f.b1.toNat
  | .returnVoid => .returnVoid
  | .returnReg t => .returnReg t f.b1.toNat
  | .const4 => .const .int f.lo ((((f.b1 >>> 4) <<< 4).sshiftRight 4).signExtend 64) 1
  | .const16 t => .const t f.b1.toNat (f.u2.signExtend 64) 2
  | .const32 t => .const t f.b1.toNat (f.w2.signExtend 64) 3
  | .high16 t shift => .const t f.b1.toNat (f.u2.signExtend 64 <<< shift) 2
  | .wide64 => .const .long f.b1.toNat f.q2 5
  | .constString => .constString f.b1.toNat f.u2.toNat 2
  | .constStringJumbo => .constString f.b1.toNat f.w2.toNat 3
  | .constClass => .placeholder f.b1.toNat 0
  | .instanceOf => .placeholder f.lo 1
  | .cmp => .placeholder f.b1.toNat 0
  | .newInstance => .newInstance f.b1.toNat f.u2.toNat
  | .newArray => .newArray f.lo f.hi f.u2.toNat
  | .arrayLength => .arrayLength f.lo f.hi
  | .throw => .throw
  | .goto8 => .goto (f.b1.signExtend 32)
  | .goto16 => .gotoWide (f.u2.signExtend 32) 2
  | .goto32 => .gotoWide f.w2 3
  | .ifTest c => .ifTest c f.lo f.hi (f.u2.signExtend 32)
  | .ifTestz c => .ifTestz c f.b1.toNat (f.u2.signExtend 32)
  | .aget => .aget f.b1.toNat f.bb f.cc
  | .aput => .aput f.b1.toNat f.bb f.cc
  | .iget => .iget f.lo f.hi f.u2.toNat
  | .iput => .iput f.lo f.hi f.u2.toNat
  | .sget => .sget f.b1.toNat f.u2.toNat
  | .sput => .sput f.b1.toNat f.u2.toNat
  | .invoke k => .invoke k f.u2.toNat ((List.range f.hi).map fun i => f.rv[i]?)
  | .invokeRange k => .invokeRange k f.u2.toNat f.u4.toNat f.b1.toNat
  | .unop u => .unop u f.lo f.hi
  | .binop t k => .binop t k f.b1.toNat f.bb f.cc 2
  | .binop2addr t k => .binop t k f.lo f.lo f.hi 1
  | .lit16 k => .lit k f.lo f.hi (f.u2.signExtend 64)
  | .lit8 k => .lit k f.b1.toNat f.bb (((f.u2 >>> 8).setWidth 8).signExtend 64)

/-! ## Execution -/

/-- The environment of the interpreter: callbacks over a state of the host, which may be unset. -/
structure Host (σ : Type*) where
  onInvoke : Option (InvokeKind → ℕ → List (BitVec 64) → σ → BitVec 64 × σ) := none
  onSget : Option (ℕ → σ → BitVec 64 × σ) := none
  onSput : Option (ℕ → BitVec 64 → σ → σ) := none
  onIget : Option (BitVec 64 → ℕ → σ → BitVec 64 × σ) := none
  onIput : Option (BitVec 64 → ℕ → BitVec 64 → σ → σ) := none
  onConstString : Option (ℕ → σ → BitVec 64 × σ) := none
  onNewInstance : Option (ℕ → σ → BitVec 64 × σ) := none
  onNewArray : Option (ℕ → BitVec 32 → σ → BitVec 64 × σ) := none
  onArrayLength : Option (BitVec 64 → σ → BitVec 32 × σ) := none
  onAget : Option (BitVec 64 → BitVec 32 → σ → BitVec 64 × σ) := none
  onAput : Option (BitVec 64 → BitVec 32 → BitVec 64 → σ → σ) := none

/-- The local variables of `Dalvik::run`: the registers, the program counter in units, and the
result of the last invoke. -/
structure Frame where
  regs : List (BitVec 64)
  pc : BitVec 32
  ret : BitVec 64
  deriving DecidableEq, Repr

/-- What an instruction leads to: the next one, the end of the method, or nothing defined. -/
inductive Outcome (σ : Type*)
  | next (f : Frame) (s : σ)
  | done (v : BitVec 64) (s : σ)
  | undefined

variable {σ : Type*}

def Frame.advance (f : Frame) (units : ℕ) : Frame := { f with pc := f.pc + BitVec.ofNat 32 units }

def Frame.jump (f : Frame) (off : BitVec 32) : Frame := { f with pc := f.pc + off }

/-- A branch: an offset of zero counts as not taken. -/
def Frame.branch (f : Frame) (taken : Bool) (off : BitVec 32) (units : ℕ) : Frame :=
  if taken ∧ off ≠ 0 then f.jump off else f.advance units

/-- Read a register. -/
def Frame.read (f : Frame) (r : ℕ) (k : BitVec 64 → Outcome σ) : Outcome σ :=
  match f.regs[r]? with
  | none => .undefined
  | some v => k v

/-- Write a register and go on behind the instruction. -/
def Frame.write (f : Frame) (r : ℕ) (v : BitVec 64) (units : ℕ) (s : σ) : Outcome σ :=
  if r < f.regs.length then .next { f.advance units with regs := f.regs.set r v } s else .undefined

/-- Write the answer of the host, `0` if the callback is unset. -/
def Frame.ask {α : Type*} (f : Frame) (r : ℕ) (callback : Option α) (units : ℕ) (s : σ)
    (k : α → (BitVec 64 × σ → Outcome σ) → Outcome σ) : Outcome σ :=
  match callback with
  | none => f.write r 0 units s
  | some g => k g fun answer => f.write r answer.1 units answer.2

/-- Tell the host something and go on behind the instruction. -/
def Frame.tell {α : Type*} (f : Frame) (callback : Option α) (units : ℕ) (s : σ)
    (k : α → (σ → Outcome σ) → Outcome σ) : Outcome σ :=
  match callback with
  | none => .next (f.advance units) s
  | some g => k g fun s' => .next (f.advance units) s'

def ibin (k : Alu) (a b : BitVec 64) : Option (BitVec 64) :=
  match k with
  | .add => some (a + b)
  | .sub => some (a - b)
  | .mul => some (a * b)
  | .div => if b = 0 then some 0 else if a.toInt = -2 ^ 63 ∧ b = -1 then none else some (a.sdiv b)
  | .rem => if b = 0 then some 0 else if a.toInt = -2 ^ 63 ∧ b = -1 then none else some (a.srem b)
  | .and => some (a &&& b)
  | .or => some (a ||| b)
  | .xor => some (a ^^^ b)
  | .shl => some (a <<< (b &&& 63).toNat)
  | .shr => some (a.sshiftRight (b &&& 63).toNat)
  | .ushr => some (a >>> (b &&& 63).toNat)

/-- The comparison of two slots as signed numbers. -/
def Cond.holds {w : ℕ} (c : Cond) (a b : BitVec w) : Bool :=
  match c with
  | .eq => a = b
  | .ne => a ≠ b
  | .lt => a.toInt < b.toInt
  | .ge => b.toInt ≤ a.toInt
  | .gt => b.toInt < a.toInt
  | .le => a.toInt ≤ b.toInt

/-- The low 32 bits of a slot, extended to a slot again. -/
def low32 (v : BitVec 64) : BitVec 64 := (v.setWidth 32).signExtend 64

def Unop.eval (u : Unop) (v : BitVec 64) : BitVec 64 :=
  match u with
  | .negInt => -low32 v
  | .notInt => ~~~low32 v
  | .negLong => -v
  | .notLong => ~~~v
  | .intToLong => low32 v
  | .longToInt => low32 v
  | .intToByte => (v.setWidth 8).signExtend 64
  | .intToChar => (v.setWidth 16).setWidth 64
  | .intToShort => (v.setWidth 16).signExtend 64
  | .passthrough => v

/-- The operations with a literal take the low half of their register. -/
def LitOp.eval (k : LitOp) (v lit : BitVec 64) : Option (BitVec 64) :=
  match k with
  | .rsub => some (lit - low32 v)
  | .alu k => ibin k (low32 v) lit

/-- Invoke a method with the values of its argument registers. -/
def Frame.call (host : Host σ) (f : Frame) (k : InvokeKind) (idx : ℕ)
    (args : Option (List (BitVec 64))) (s : σ) : Outcome σ :=
  match args, host.onInvoke with
  | none, _ => .undefined
  | some _, none => .next { f.advance 3 with ret := 0 } s
  | some a, some invoke =>
      .next { f.advance 3 with ret := (invoke k idx a s).1 } (invoke k idx a s).2

/-- Write the result of an operation, which may have none. -/
def Frame.writeResult (f : Frame) (r : ℕ) (v : Option (BitVec 64)) (units : ℕ) (s : σ) :
    Outcome σ :=
  match v with
  | none => .undefined
  | some v => f.write r v units s

def exec (host : Host σ) (ins : Insn) (f : Frame) (s : σ) : Outcome σ :=
  match ins with
  | .skip n => .next (f.advance n) s
  | .move _ dst src n => f.read src fun v => f.write dst v n s
  | .moveResult dst => f.write dst f.ret 1 s
  | .returnVoid => .done 0 s
  | .returnReg _ src => f.read src fun v => .done v s
  | .const _ dst v n => f.write dst v n s
  | .constString dst idx n => f.ask dst host.onConstString n s fun g k => k (g idx s)
  | .placeholder dst v => f.write dst v 2 s
  | .newInstance dst idx => f.ask dst host.onNewInstance 2 s fun g k => k (g idx s)
  | .newArray dst len idx => f.ask dst host.onNewArray 2 s fun g k =>
      f.read len fun n => k (g idx (n.setWidth 32) s)
  | .arrayLength dst arr => f.ask dst host.onArrayLength 1 s fun g k =>
      f.read arr fun a => k ((g a s).1.setWidth 64, (g a s).2)
  | .throw => .done f.ret s
  | .goto off => if off = 0 then .done f.ret s else .next (f.jump off) s
  | .gotoWide off n => .next (f.branch true off n) s
  | .ifTest c a b off => f.read a fun x => f.read b fun y =>
      .next (f.branch (c.holds x y) off 2) s
  | .ifTestz c a off => f.read a fun x => .next (f.branch (c.holds x 0) off 2) s
  | .aget dst arr idx => f.ask dst host.onAget 2 s fun g k =>
      f.read arr fun a => f.read idx fun i => k (g a (i.setWidth 32) s)
  | .aput src arr idx => f.tell host.onAput 2 s fun g k =>
      f.read arr fun a => f.read idx fun i => f.read src fun v => k (g a (i.setWidth 32) v s)
  | .iget dst obj idx => f.ask dst host.onIget 2 s fun g k =>
      f.read obj fun o => k (g o idx s)
  | .iput src obj idx => f.tell host.onIput 2 s fun g k =>
      f.read obj fun o => f.read src fun v => k (g o idx v s)
  | .sget dst idx => f.ask dst host.onSget 2 s fun g k => k (g idx s)
  | .sput src idx => f.tell host.onSput 2 s fun g k => f.read src fun v => k (g idx v s)
  | .invoke k idx args => f.call host k idx (args.mapM fun r => r.bind (f.regs[·]?)) s
  | .invokeRange k idx first count =>
      f.call host k idx (some ((f.regs.drop first).take count)) s
  | .unop u dst src => f.read src fun v => f.write dst (u.eval v) 1 s
  | .binop _ k dst a b n => f.read a fun x => f.read b fun y =>
      f.writeResult dst (ibin k x y) n s
  | .lit k dst src lit => f.read src fun v => f.writeResult dst (k.eval v lit) 2 s

/-- The file offset of a unit of the method. -/
def insnAddr (code : Code) (pc : BitVec 32) : BitVec 32 := BitVec.ofNat 32 code.insnsOff + pc * 2

/-- One pass of the loop. An unsupported opcode ends the method. -/
def step (d : List UInt8) (host : Host σ) (code : Code) (f : Frame) (s : σ) : Outcome σ :=
  match d[(insnAddr code f.pc).toNat]? with
  | none => .undefined
  | some op =>
      match shapeOf op.toNat with
      | none => .done f.ret s
      | some shape => exec host (shape.decode (fieldsAt d (insnAddr code f.pc))) f s

/-- The loop of `Dalvik::run` with the number of steps it may still make. -/
def loop (d : List UInt8) (host : Host σ) (code : Code) :
    (steps : ℕ) → Frame → σ → Option (BitVec 64 × σ)
  | 0, f, s => some (f.ret, s)
  | steps + 1, f, s =>
      if code.insnsSize ≤ f.pc.toNat then some (f.ret, s)
      else
        match step d host code f s with
        | .undefined => none
        | .done v s' => some (v, s')
        | .next f' s' => loop d host code steps f' s'

/-- The registers at the start: the arguments are in the last `insSize` ones, one entry in each. A
method with more of them than registers writes outside. -/
def entryRegs (code : Code) (args : List (BitVec 64)) : Option (List (BitVec 64)) :=
  let zeros := List.replicate (if code.registersSize = 0 then 1 else code.registersSize) 0
  let given := args.take code.insSize
  if given = [] then some zeros
  else if code.insSize ≤ code.registersSize then
    some (overwrite zeros (code.registersSize - code.insSize) given)
  else none

/-- Interpret a method. A callback that invokes another one does so a level deeper. -/
def run (d : List UInt8) (host : Host σ) (depth : ℕ) (code : Code) (args : List (BitVec 64))
    (s : σ) : Option (BitVec 64 × σ) :=
  if !code.valid ∨ kMaxDepth ≤ depth then some (0, s)
  else
    match entryRegs code args with
    | none => none
    | some regs => loop d host code kMaxSteps ⟨regs, 0, 0⟩ s

end Dalvik

end Vardoger
