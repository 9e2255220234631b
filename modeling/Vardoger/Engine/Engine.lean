import Vardoger.Engine.AddressSpace
import Mathlib.Logic.Function.Basic

/-!
# The Unicorn wrapper

`Engine` is the lowest layer: the protection of each guest page, the contents of guest memory and
the registers. Mapping follows Unicorn's documented checks. A range is refused when it is empty,
when it is not page aligned, when its last byte lies past the top of the address space, or when a
page of it is mapped already. Protections are taken to be combinations of the three `UC_PROT_*`
bits, as the interface asks for. Host reads and writes need mapped pages but ignore protections. The
debugging toggles of the wrapper (`VARDOGER_EWRITE_WATCH`, `VARDOGER_AUTOMAP`) are left unset.
-/

namespace Vardoger

open Words

/-- The guest architectures. -/
inductive Abi
  | arm64 | arm32 | x86 | x8664
  deriving DecidableEq, Repr

/-- There are general registers on ARM64. -/
instance neZeroArm64 : NeZero 31 := ⟨by decide⟩

/-- There are general registers on ARM32. -/
instance neZeroArm32 : NeZero 13 := ⟨by decide⟩

/-- The Unicorn registers that the runtime reads or writes. -/
inductive UcReg
  | arm64X (i : Fin 31)
  | arm64Sp | arm64Pc | arm64Nzcv | arm64TpidrEl0
  | arm64V (i : Fin 32)
  | arm64Fpsr | arm64Fpcr
  | armR (i : Fin 13)
  | armSp | armLr | armPc | armCpsr | armC13C03
  | x86Rdi | x86Rsi | x86Rdx | x86Rcx | x86R8 | x86R9 | x86R10 | x86Rax | x86Rsp | x86Rip
  | x86Eax | x86Ebx | x86Ecx | x86Edx | x86Esi | x86Edi | x86Ebp | x86Esp | x86Eip
  deriving DecidableEq, Repr

/-- Registers by their role in the calling convention. -/
inductive Reg
  | a0 | a1 | a2 | a3 | a4 | a5 | a6 | a7 | ret0 | ret1 | sp | lr | pc | syscallNr
  deriving DecidableEq, Repr

/-- What a C++ exception carries: the Unicorn call that `check` rejected, or the text of a
`std::runtime_error` of the runtime itself. -/
inductive Failure
  | engine (what : String)
  | runtime (message : String)
  deriving DecidableEq, Repr

/-- The register a role names on an ABI, or the message with which `reg_id` throws. -/
def regId : Abi → Reg → Except Failure UcReg
  | .arm64, .a0 | .arm64, .ret0 => .ok (.arm64X 0)
  | .arm64, .a1 | .arm64, .ret1 => .ok (.arm64X 1)
  | .arm64, .a2 => .ok (.arm64X 2)
  | .arm64, .a3 => .ok (.arm64X 3)
  | .arm64, .a4 => .ok (.arm64X 4)
  | .arm64, .a5 => .ok (.arm64X 5)
  | .arm64, .a6 => .ok (.arm64X 6)
  | .arm64, .a7 => .ok (.arm64X 7)
  | .arm64, .sp => .ok .arm64Sp
  | .arm64, .lr => .ok (.arm64X 30)
  | .arm64, .pc => .ok .arm64Pc
  | .arm64, .syscallNr => .ok (.arm64X 8)
  | .arm32, .a0 | .arm32, .ret0 => .ok (.armR 0)
  | .arm32, .a1 | .arm32, .ret1 => .ok (.armR 1)
  | .arm32, .a2 => .ok (.armR 2)
  | .arm32, .a3 => .ok (.armR 3)
  | .arm32, .sp => .ok .armSp
  | .arm32, .lr => .ok .armLr
  | .arm32, .pc => .ok .armPc
  | .arm32, .syscallNr => .ok (.armR 7)
  | .arm32, _ =>
      .error (.runtime ("arm32: argument slots A4..A7 live on the stack, not in registers; " ++
        "use the ABI/Args helper rather than read_reg/write_reg"))
  | .x8664, .a0 => .ok .x86Rdi
  | .x8664, .a1 => .ok .x86Rsi
  | .x8664, .a2 | .x8664, .ret1 => .ok .x86Rdx
  | .x8664, .a3 => .ok .x86Rcx
  | .x8664, .a4 => .ok .x86R8
  | .x8664, .a5 => .ok .x86R9
  | .x8664, .ret0 | .x8664, .syscallNr => .ok .x86Rax
  | .x8664, .sp => .ok .x86Rsp
  | .x8664, .pc => .ok .x86Rip
  | .x8664, .lr =>
      .error (.runtime ("x86_64 has no link register: the return address is on the stack " ++
        "(Engine::call pushes it)"))
  | .x8664, _ =>
      .error (.runtime ("x86_64: argument slots A6/A7 live on the stack, not in registers; " ++
        "use the ABI/Args helper rather than read_reg/write_reg"))
  | .x86, .ret0 | .x86, .syscallNr => .ok .x86Eax
  | .x86, .ret1 => .ok .x86Edx
  | .x86, .sp => .ok .x86Esp
  | .x86, .pc => .ok .x86Eip
  | .x86, .lr =>
      .error (.runtime ("x86 has no link register: the return address is on the stack " ++
        "(Engine::call pushes it)"))
  | .x86, _ =>
      .error (.runtime ("x86 (cdecl): all arguments live on the stack, not in registers; " ++
        "use the ABI/Args helper rather than read_reg/write_reg"))

/-- The width of a register in bits. -/
def UcReg.bits : UcReg → ℕ
  | .arm64V _ => 128
  | .arm64Fpsr | .arm64Fpcr => 32
  | .armR _ | .armSp | .armLr | .armPc | .armCpsr | .armC13C03 => 32
  | .x86Eax | .x86Ebx | .x86Ecx | .x86Edx | .x86Esi | .x86Edi | .x86Ebp => 32
  | .x86Esp | .x86Eip => 32
  | _ => 64

/-- The state of the emulator: page protections, memory contents and registers. -/
structure Engine where
  abi : Abi
  /-- The `UC_PROT_*` bits of a mapped page, by page number. -/
  prot : ℕ → Option ℕ
  byte : ℕ → UInt8
  reg : UcReg → ℕ

namespace Engine

/-- A fresh emulator: nothing is mapped. -/
def fresh (abi : Abi) : Engine := ⟨abi, fun _ => none, fun _ => 0, fun _ => 0⟩

/-- Whether an address lies in a mapped page. -/
def Mapped (e : Engine) (a : ℕ) : Prop := (e.prot (a / kPageSize)).isSome

instance (e : Engine) (a : ℕ) : Decidable (e.Mapped a) :=
  inferInstanceAs (Decidable (_ = true))

/-- The ranges `uc_mem_map` accepts. -/
def Mappable (e : Engine) (addr size : ℕ) : Prop :=
  0 < size ∧ addr % kPageSize = 0 ∧ size % kPageSize = 0 ∧ addr + size ≤ 2 ^ 64 ∧
    ∀ p < size / kPageSize, e.prot (addr / kPageSize + p) = none

instance (e : Engine) (addr size : ℕ) : Decidable (e.Mappable addr size) :=
  inferInstanceAs (Decidable (_ ∧ _ ∧ _ ∧ _ ∧ _))

/-- The ranges `uc_mem_protect` and `uc_mem_unmap` accept. -/
def FullyMapped (e : Engine) (addr size : ℕ) : Prop :=
  addr % kPageSize = 0 ∧ size % kPageSize = 0 ∧ addr + size ≤ 2 ^ 64 ∧
    ∀ p < size / kPageSize, (e.prot (addr / kPageSize + p)).isSome

instance (e : Engine) (addr size : ℕ) : Decidable (e.FullyMapped addr size) :=
  inferInstanceAs (Decidable (_ ∧ _ ∧ _ ∧ _))

/-- The byte ranges a host access may touch. -/
def Accessible (e : Engine) (addr n : ℕ) : Prop :=
  addr + n ≤ 2 ^ 64 ∧ ∀ i < n, e.Mapped (addr + i)

instance (e : Engine) (addr n : ℕ) : Decidable (e.Accessible addr n) :=
  inferInstanceAs (Decidable (_ ∧ _))

/-- Replace the protection of every page of a range. -/
def setProt (e : Engine) (addr size : ℕ) (perms : Option ℕ) : Engine :=
  { e with
    prot := fun p =>
      if addr / kPageSize ≤ p ∧ p < (addr + size) / kPageSize then perms else e.prot p }

/-- Replace the bytes from `addr` on. -/
def setBytes (e : Engine) (addr : ℕ) (bytes : List UInt8) : Engine :=
  { e with
    byte := fun a =>
      if addr ≤ a ∧ a < addr + bytes.length then bytes.getD (a - addr) 0 else e.byte a }

/-- Give a range of pages a protection and zero contents. -/
def mapPages (e : Engine) (addr size perms : ℕ) : Engine :=
  { e.setProt addr size (some perms) with
    byte := fun a => if addr ≤ a ∧ a < addr + size then 0 else e.byte a }

/-- Map fresh zero pages. -/
def map (e : Engine) (addr size perms : ℕ) : Except Failure Engine :=
  if e.Mappable addr size then .ok (e.mapPages addr size perms)
  else .error (.engine "uc_mem_map")

/-- Unmap a range of mapped pages. -/
def unmap (e : Engine) (addr size : ℕ) : Except Failure Engine :=
  if e.FullyMapped addr size then .ok (e.setProt addr size none)
  else .error (.engine "uc_mem_unmap")

/-- Change the protection of a range of mapped pages; an empty range is accepted anywhere. -/
def protect (e : Engine) (addr size perms : ℕ) : Except Failure Engine :=
  if size = 0 then .ok e
  else if e.FullyMapped addr size then .ok (e.setProt addr size (some perms))
  else .error (.engine "uc_mem_protect")

/-- Read `n` bytes. -/
def read (e : Engine) (addr n : ℕ) : Except Failure (List UInt8) :=
  if e.Accessible addr n then .ok ((List.range n).map fun i => e.byte (addr + i))
  else .error (.engine "uc_mem_read")

/-- Write bytes, all of them or none. -/
def write (e : Engine) (addr : ℕ) (bytes : List UInt8) : Except Failure Engine :=
  if e.Accessible addr bytes.length then .ok (e.setBytes addr bytes)
  else .error (.engine "uc_mem_write")

/-- The bytes before the next NUL, at most `max` of them, cut short at an unmapped page. -/
def readCstr (e : Engine) (addr : ℕ) : ℕ → List UInt8
  | 0 => []
  | max + 1 =>
      if e.Mapped addr then
        if e.byte addr = 0 then [] else e.byte addr :: e.readCstr (add64 addr 1) max
      else []

def readUcReg (e : Engine) (r : UcReg) : ℕ := e.reg r

def writeUcReg (e : Engine) (r : UcReg) (v : ℕ) : Engine :=
  { e with reg := Function.update e.reg r (v % 2 ^ r.bits) }

/-- Read a register by its role. -/
def readReg (e : Engine) (r : Reg) : Except Failure ℕ :=
  (regId e.abi r).map e.readUcReg

/-- Write a register by its role. -/
def writeReg (e : Engine) (r : Reg) (v : ℕ) : Except Failure Engine :=
  (regId e.abi r).map fun id => e.writeUcReg id v

/-! ## What each operation leaves -/

/-- Protecting a page-aligned range makes exactly that range mapped in addition. -/
theorem mapped_setProt_some {e : Engine} {addr size perms a : ℕ}
    (haddr : addr % kPageSize = 0) (hsize : size % kPageSize = 0) :
    (e.setProt addr size (some perms)).Mapped a ↔ (addr ≤ a ∧ a < addr + size) ∨ e.Mapped a := by
  simp only [Mapped, setProt]
  by_cases hin : addr / kPageSize ≤ a / kPageSize ∧ a / kPageSize < (addr + size) / kPageSize
  · have hrange : addr ≤ a ∧ a < addr + size := by
      simp only [kPageSize] at *
      omega
    simp only [if_pos hin, hrange, Option.isSome_some, and_self, true_or]
  · have hrange : ¬(addr ≤ a ∧ a < addr + size) := by
      simp only [kPageSize] at *
      omega
    simp only [if_neg hin, hrange, false_or]

theorem mapped_mapPages {e : Engine} {addr size perms a : ℕ}
    (haddr : addr % kPageSize = 0) (hsize : size % kPageSize = 0) :
    (e.mapPages addr size perms).Mapped a ↔ (addr ≤ a ∧ a < addr + size) ∨ e.Mapped a :=
  mapped_setProt_some haddr hsize

/-- In a mappable range no address is mapped. -/
theorem Mappable.not_mapped {e : Engine} {addr size a : ℕ} (h : e.Mappable addr size)
    (ha : addr ≤ a ∧ a < addr + size) : ¬e.Mapped a := by
  obtain ⟨-, haddr, hsize, -, hfree⟩ := h
  simp only [kPageSize] at haddr hsize hfree
  have hpage := hfree (a / 4096 - addr / 4096) (by omega)
  rw [Nat.add_sub_cancel' (by omega)] at hpage
  simp [Mapped, kPageSize, hpage]

/-- A page-aligned range without a mapped address is mappable. -/
theorem mappable_of_not_mapped {e : Engine} {addr size : ℕ} (hpos : 0 < size)
    (haddr : addr % kPageSize = 0) (hsize : size % kPageSize = 0) (hfits : addr + size ≤ 2 ^ 64)
    (hfree : ∀ a, addr ≤ a → a < addr + size → ¬e.Mapped a) : e.Mappable addr size := by
  refine ⟨hpos, haddr, hsize, hfits, ?_⟩
  intro p hp
  have hpage := hfree ((addr / kPageSize + p) * kPageSize)
  simp only [Mapped, kPageSize] at *
  rw [Nat.mul_div_cancel _ (by decide : 0 < 4096)] at hpage
  simpa using hpage (by omega) (by omega)

/-- The protected pages were mapped before, so the mapped set does not change. -/
theorem mapped_protect {e e' : Engine} {addr size perms a : ℕ}
    (h : e.protect addr size perms = .ok e') : e'.Mapped a ↔ e.Mapped a := by
  unfold protect at h
  split at h
  · rw [← Except.ok.inj h]
  · split at h
    · obtain ⟨haddr, hsize, -, hall⟩ := ‹e.FullyMapped addr size›
      rw [← Except.ok.inj h, mapped_setProt_some haddr hsize, or_iff_right_iff_imp]
      simp only [kPageSize] at haddr hsize hall
      intro ha
      have hpage := hall (a / 4096 - addr / 4096) (by omega)
      rw [Nat.add_sub_cancel' (by omega)] at hpage
      exact hpage
    · cases h

/-- A host write changes no protection. -/
theorem setBytes_nil (e : Engine) (addr : ℕ) : e.setBytes addr [] = e := by
  have hout : ∀ a, ¬(addr ≤ a ∧ a < addr + 0) := by omega
  simp only [setBytes, List.length_nil, hout, if_false]

theorem prot_write {e e' : Engine} {addr : ℕ} {bytes : List UInt8}
    (h : e.write addr bytes = .ok e') : e'.prot = e.prot := by
  unfold write at h
  split at h
  · rw [← Except.ok.inj h]
    rfl
  · cases h

/-- Writing a register changes no protection. -/
theorem prot_writeReg {e e' : Engine} {r : Reg} {v : ℕ} (h : e.writeReg r v = .ok e') :
    e'.prot = e.prot := by
  unfold writeReg at h
  cases hid : regId e.abi r with
  | error err => simp [hid, Except.map] at h
  | ok id =>
    simp only [hid, Except.map, Except.ok.injEq] at h
    rw [← h]
    rfl

end Engine

end Vardoger
