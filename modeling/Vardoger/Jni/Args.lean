import Vardoger.Engine.Strings
import Vardoger.Jni.JavaRuntime

/-!
# Arguments of JNI functions

The handlers behind the JNI function table read their arguments one after the other, first from
registers and then from the stack. The functions that call a Java method read further arguments,
as many as the signature of the method says, either in the same way or from a `va_list`. What
the method itself does is a parameter.
-/

namespace Vardoger

open Bytes

namespace Engine

/-- Read a little-endian word of at most eight bytes. -/
def readWord (e : Engine) (bytes : ℕ) (addr : BitVec 64) : Except Failure (BitVec 64) := do
  return BitVec.ofNat 64 (LittleEndian.ofBytes (← e.read addr.toNat bytes))

/-- A register as a 64-bit word. -/
def regWord (e : Engine) (r : Reg) : Except Failure (BitVec 64) := do
  return BitVec.ofNat 64 (← e.readReg r)

end Engine

/-- The number of bytes of a pointer. -/
def Abi.pointerSize (abi : Abi) : ℕ := abi.bits / 8

/-- How far a reader of arguments has come. -/
structure Args where
  regIdx : ℕ := 0
  stackOff : BitVec 64 := 0

namespace Args

/-- The roles behind `Reg::A0`. -/
def reg : ℕ → Reg
  | 0 => .a0
  | 1 => .a1
  | 2 => .a2
  | 3 => .a3
  | 4 => .a4
  | 5 => .a5
  | 6 => .a6
  | _ => .a7

def nextInt (e : Engine) (a : Args) : Except Failure (BitVec 64 × Args) := do
  let nreg := if e.abi = .arm64 then 8 else 4
  if a.regIdx < nreg then
    return (← e.regWord (reg a.regIdx), { a with regIdx := a.regIdx + 1 })
  else
    let psz := e.abi.pointerSize
    let addr := (← e.regWord .sp) + a.stackOff
    return (← e.readWord psz addr, { a with stackOff := a.stackOff + BitVec.ofNat 64 psz })

end Args

/-- The `va_list` of AArch64. -/
structure VaList where
  stack : BitVec 64 := 0
  grTop : BitVec 64 := 0
  vrTop : BitVec 64 := 0
  grOffs : BitVec 32 := 0
  vrOffs : BitVec 32 := 0

namespace VaList

/-- On ARM32 a `va_list` is a cursor, elsewhere a pointer to the structure. -/
def load (e : Engine) (vap : BitVec 64) : Except Failure VaList := do
  if e.abi = .arm32 then
    return { stack := vap }
  else
    let stack ← e.readWord 8 vap
    let grTop ← e.readWord 8 (vap + 8)
    let vrTop ← e.readWord 8 (vap + 16)
    let grOffs ← e.readWord 4 (vap + 24)
    let vrOffs ← e.readWord 4 (vap + 28)
    return ⟨stack, grTop, vrTop, grOffs.setWidth 32, vrOffs.setWidth 32⟩

/-- `valist_next_int`. -/
def nextInt (e : Engine) (v : VaList) : Except Failure (BitVec 64 × VaList) := do
  if e.abi = .arm32 then
    return (← e.readWord 4 v.stack, { v with stack := v.stack + 4 })
  else if v.grOffs.toInt < 0 then
    return (← e.readWord 8 (v.grTop + v.grOffs.signExtend 64), { v with grOffs := v.grOffs + 8 })
  else
    return (← e.readWord 8 v.stack, { v with stack := v.stack + 8 })

end VaList

namespace JniBridge

/-! ## Calls of methods -/

/-- Behind the `;` of a class name. -/
def skipName (x : List UInt8) : List UInt8 := (x.dropWhile (· ≠ 0x3b)).drop 1

/-- Behind the element type of an array, from the last `[` on. -/
def skipElement (x : List UInt8) : List UInt8 :=
  if x.head? = some 0x4c then skipName x else x.drop 1

/-- The loop of `parse_arg_objects`, which stops at `)` or at the end. -/
def argObjectsLoop : (fuel : ℕ) → List UInt8 → List Bool
  | 0, _ | _ + 1, [] => []
  | fuel + 1, c :: x =>
      if c = 0x29 then []
      else if c = 0x5b then true :: argObjectsLoop fuel (skipElement (x.dropWhile (· = 0x5b)))
      else if c = 0x4c then true :: argObjectsLoop fuel (skipName (c :: x))
      else false :: argObjectsLoop fuel x

/-- Which parameters of a signature are references. -/
def parseArgObjects (sig : List UInt8) : List Bool :=
  argObjectsLoop sig.length ((sig.dropWhile (· ≠ 0x28)).drop 1)

/-- What a call hands to `call_method`. -/
structure Request where
  mid : BitVec 64
  recv : BitVec 64
  args : List DvmValue
  deriving DecidableEq, Repr

/-- The value of a slot as a reference or as a primitive. -/
def slotValue (isObj : Bool) (v : BitVec 64) : DvmValue := if isObj then .O v else .I v

/-- The loop over the parameters, with a reader of slots. -/
def readArgs {α : Type} (next : α → Except Failure (BitVec 64 × α)) :
    List Bool → α → Except Failure (List DvmValue)
  | [], _ => return []
  | isObj :: rest, a => do
      let (v, a) ← next a
      let args ← readArgs next rest a
      return slotValue isObj v :: args

/-- The functions that call a method: `Call<T>Method` and `CallStatic<T>Method`, those that take
a `va_list`, and `CallNonvirtual<T>MethodV`. -/
inductive Dispatcher
  | call (isStatic : Bool)
  | callV (isStatic : Bool)
  | nonvirtualV
  deriving DecidableEq, Repr

/-- The arguments of a call: the environment, the receiver, for a nonvirtual call a class, the
method id, and then those of the method. -/
def Dispatcher.request (s : JavaRuntime) : Dispatcher → Except Failure Request
  | .call isStatic => do
      let e := s.mem.engine
      let (_, a) ← Args.nextInt e {}
      let (recv, a) ← a.nextInt e
      let (mid, a) ← a.nextInt e
      let args ← readArgs (Args.nextInt e) (parseArgObjects (s.methodSig mid)) a
      return ⟨mid, if isStatic then 0 else recv, args⟩
  | .callV isStatic => do
      let e := s.mem.engine
      let (_, a) ← Args.nextInt e {}
      let (recv, a) ← a.nextInt e
      let (mid, a) ← a.nextInt e
      let (vap, _) ← a.nextInt e
      let v ← VaList.load e vap
      let args ← readArgs (VaList.nextInt e) (parseArgObjects (s.methodSig mid)) v
      return ⟨mid, if isStatic then 0 else recv, args⟩
  | .nonvirtualV => do
      let e := s.mem.engine
      let (_, a) ← Args.nextInt e {}
      let (recv, a) ← a.nextInt e
      let (_, a) ← a.nextInt e
      let (mid, a) ← a.nextInt e
      let (vap, _) ← a.nextInt e
      let v ← VaList.load e vap
      let args ← readArgs (VaList.nextInt e) (parseArgObjects (s.methodSig mid)) v
      return ⟨mid, recv, args⟩

/-- The kinds of results, which decide what is written back. -/
inductive ReturnKind
  | object | int | void
  deriving DecidableEq, Repr

/-- `call_dispatch`, `call_dispatch_v` and the nonvirtual calls. -/
def Dispatcher.run (callMethod : Request → JavaM DvmValue) (kind : ReturnKind) (d : Dispatcher) :
    JavaM Unit := do
  match d.request (← get) with
  | .error err => throw err
  | .ok req =>
      let r ← callMethod req
      match kind with
      | .object => JavaRuntime.onMem (Memory.onEngine (·.writeReg .ret0 r.obj.toNat))
      | .int => JavaRuntime.onMem (Memory.onEngine (·.writeReg .ret0 r.i.toNat))
      | .void => return

end JniBridge

end Vardoger
