import Vardoger.Engine.Strings

/-!
# The C string stubs

`strlen`, `strchr`, `strrchr`, `strcpy`, `strcat`, `__strcpy_chk` and `strcmp` copy their string
arguments to the host with `read_cstr`, which stops after 4096 bytes, and work on the copies. They
read arguments from registers, which the 32-bit x86 convention does not use.
-/

namespace Vardoger

open Words Patches

/-- The default limit of `read_cstr`. -/
def kCstrMax : ℕ := 4096

namespace Memory

def readReg (r : Reg) : MemM ℕ := fun m =>
  match m.engine.readReg r with
  | .ok v => .ok v m
  | .error err => .error err m

def writeReg (r : Reg) (v : ℕ) : MemM Unit := onEngine (·.writeReg r v)

def read (addr n : ℕ) : MemM (List UInt8) := fun m =>
  match m.engine.read addr n with
  | .ok bytes => .ok bytes m
  | .error err => .error err m

def write (addr : ℕ) (x : List UInt8) : MemM Unit := onEngine (·.write addr x)

/-- Store the low bytes of a word. -/
def writeT (bytes addr v : ℕ) : MemM Unit := write addr (LittleEndian.toBytes bytes v)

def readCstr (addr : ℕ) : MemM (List UInt8) := do
  return (← get).engine.readCstr addr kCstrMax

end Memory

namespace Stubs

open Memory

def strlen : MemM Unit := do
  let s ← readCstr (← readReg .a0)
  writeReg .ret0 s.length

def strchr : MemM Unit := do
  let s ← readReg .a0
  let c := UInt8.ofNat (← readReg .a1)
  let str ← readCstr s
  match (str ++ [0]).findIdx? (· = c) with
  | some i => writeReg .ret0 (add64 s i)
  | none => writeReg .ret0 0

/-- The loop `for (i = n; i-- > 0;)` that looks for a byte from the end. -/
def lastIndex (c : UInt8) (x : List UInt8) : ℕ → Option ℕ
  | 0 => none
  | i + 1 => if x[i]? = some c then some i else lastIndex c x i

def strrchr : MemM Unit := do
  let s ← readReg .a0
  let c := UInt8.ofNat (← readReg .a1)
  let str ← readCstr s
  match lastIndex c (str ++ [0]) (str.length + 1) with
  | some i => writeReg .ret0 (add64 s i)
  | none => writeReg .ret0 0

def strcpy : MemM Unit := do
  let dst ← readReg .a0
  let s ← readCstr (← readReg .a1)
  write dst s
  write (add64 dst s.length) [0]
  writeReg .ret0 dst

/-- The fortified `strcpy`; it does not look at its bound. -/
def strcpyChk : MemM Unit := strcpy

def strcat : MemM Unit := do
  let dst ← readReg .a0
  let d ← readCstr dst
  let s ← readCstr (← readReg .a1)
  write (add64 dst d.length) s
  write (add64 (add64 dst d.length) s.length) [0]
  writeReg .ret0 dst

/-- `std::string::compare`. -/
def compare (a b : List UInt8) : ℤ := if a < b then -1 else if a = b then 0 else 1

def strcmp : MemM Unit := do
  let a ← readCstr (← readReg .a0)
  let b ← readCstr (← readReg .a1)
  writeReg .ret0 (compare a b % 2 ^ 64).toNat

end Stubs

/-! ## The calling convention -/

namespace Engine

/-- A stub has arguments. -/
instance neZeroArgs : NeZero 2 := ⟨by decide⟩

/-- The first two arguments of a call where the guest puts them: in registers, or on the stack
behind the return address. -/
def arg (e : Engine) (i : Fin 2) : ℕ :=
  match e.abi with
  | .arm64 => e.reg (.arm64X (i.castLE (by decide)))
  | .arm32 => e.reg (.armR (i.castLE (by decide)))
  | .x8664 => if i = 0 then e.reg .x86Rdi else e.reg .x86Rsi
  | .x86 => LittleEndian.ofBytes (slice e.byte (e.reg .x86Esp + 4 + 4 * i) 4)

/-- System calls have arguments. -/
instance neZeroSysArgs : NeZero 6 := ⟨by decide⟩

/-- The register of an argument of a system call. -/
def sysArgReg : Abi → Fin 6 → UcReg
  | .arm64, i => .arm64X (i.castLE (by decide))
  | .arm32, i => .armR (i.castLE (by decide))
  | .x8664, i => [.x86Rdi, .x86Rsi, .x86Rdx, .x86R10, .x86R8].getD i .x86R9
  | .x86, i => [.x86Ebx, .x86Ecx, .x86Edx, .x86Esi, .x86Edi].getD i .x86Ebp

def sysArg (e : Engine) (i : Fin 6) : ℕ := e.readUcReg (sysArgReg e.abi i)

/-- The register of the result. -/
def retReg : Abi → UcReg
  | .arm64 => .arm64X 0
  | .arm32 => .armR 0
  | .x8664 => .x86Rax
  | .x86 => .x86Eax

def ret (e : Engine) : ℕ := e.reg (retReg e.abi)

/-- The result as a C `int`. -/
def retInt (e : Engine) : ℤ :=
  if e.ret % 2 ^ 32 < 2 ^ 31 then (e.ret % 2 ^ 32 : ℕ) else (e.ret % 2 ^ 32 : ℕ) - 2 ^ 32

theorem regId_ret0 (abi : Abi) : regId abi .ret0 = .ok (retReg abi) := by
  cases abi with
  | arm64 => rfl
  | arm32 => rfl
  | x86 => rfl
  | x8664 => rfl

theorem bits_retReg (abi : Abi) : (retReg abi).bits = abi.bits := by
  cases abi with
  | arm64 => rfl
  | arm32 => rfl
  | x86 => rfl
  | x8664 => rfl

/-- Setting the result register. -/
def setRet (e : Engine) (v : ℕ) : Engine := e.writeUcReg (retReg e.abi) v

theorem ret_setRet (e : Engine) (v : ℕ) : (e.setRet v).ret = v % 2 ^ e.abi.bits := by
  simp only [ret, setRet, writeUcReg, Function.update_self, bits_retReg]

variable {e : Engine}

theorem readReg_a0 (h : e.abi ≠ .x86) : e.readReg .a0 = .ok (e.arg 0) := by
  cases habi : e.abi with
  | arm64 => simp [readReg, arg, habi, regId, Except.map, readUcReg]
  | arm32 => simp [readReg, arg, habi, regId, Except.map, readUcReg]
  | x86 => exact absurd habi h
  | x8664 => simp [readReg, arg, habi, regId, Except.map, readUcReg]

theorem readReg_a1 (h : e.abi ≠ .x86) : e.readReg .a1 = .ok (e.arg 1) := by
  cases habi : e.abi with
  | arm64 => simp [readReg, arg, habi, regId, Except.map, readUcReg]
  | arm32 => simp [readReg, arg, habi, regId, Except.map, readUcReg]
  | x86 => exact absurd habi h
  | x8664 => simp [readReg, arg, habi, regId, Except.map, readUcReg]

end Engine

namespace Memory

variable {m : Memory}

theorem readReg_a0 (h : m.engine.abi ≠ .x86) : readReg .a0 m = .ok (m.engine.arg 0) m := by
  simp only [readReg, Engine.readReg_a0 h]

theorem readReg_a1 (h : m.engine.abi ≠ .x86) : readReg .a1 m = .ok (m.engine.arg 1) m := by
  simp only [readReg, Engine.readReg_a1 h]

/-- On 32-bit x86 there is no argument register. -/
theorem readReg_x86 {r : Reg} (hr : r = .a0 ∨ r = .a1) (h : m.engine.abi = .x86) :
    ∃ err, readReg r m = .error err m := by
  rcases hr with rfl | rfl
  · simp only [readReg, Engine.readReg, h, regId, Except.map]
    exact ⟨_, rfl⟩
  · simp only [readReg, Engine.readReg, h, regId, Except.map]
    exact ⟨_, rfl⟩

/-- The state after a handler set its result. -/
def setRet (m : Memory) (v : ℕ) : Memory := { m with engine := m.engine.setRet v }

theorem writeReg_ret0 (v : ℕ) (m : Memory) : writeReg .ret0 v m = .ok () (m.setRet v) := by
  simp only [writeReg, onEngine, Engine.writeReg, Engine.regId_ret0, Except.map, setRet,
    Engine.setRet]

theorem write_eq {addr : ℕ} {x : List UInt8} (h : m.engine.Accessible addr x.length) :
    write addr x m = .ok () (m.setBytes addr x) := by
  simp only [write, onEngine, Engine.write_eq h, setBytes]

theorem writeT_eq {bytes addr : ℕ} (v : ℕ) (h : m.engine.Accessible addr bytes) :
    writeT bytes addr v m = .ok () (m.setBytes addr (LittleEndian.toBytes bytes v)) :=
  write_eq (by rwa [LittleEndian.length_toBytes])

/-- A C string arrives on the host up to the limit. -/
theorem readCstr_eq {addr : ℕ} {x : List UInt8} (h : m.engine.IsCstr addr x) :
    readCstr addr m = .ok (x.take kCstrMax) m := by
  change EStateM.Result.ok (m.engine.readCstr addr kCstrMax) m = _
  rw [Engine.readCstr_eq h.nonzero h.holds]

end Memory

end Vardoger
