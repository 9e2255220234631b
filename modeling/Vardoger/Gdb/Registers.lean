import Vardoger.Base.Hex
import Vardoger.Engine.Engine

/-!
# The registers a debugger sees

One table for each architecture drives the register packets: the order and width of the registers
in `g` and `G`, the numbers of `p` and `P`, and the layout that `qRegisterInfo` reports. On the
wire a register is its bytes in hex, the least significant one first.
-/

namespace Vardoger.Gdb

open Bytes LittleEndian Hex

/-- A register description. Registers have 32, 64 or 128 bits, and never more than the emulator's
own register. -/
structure RegDesc where
  name : String
  ucId : UcReg
  bits : ℕ
  type : Option String := none
  generic : Option String := none
  fpu : Bool := false
  hbits : bits = 32 ∨ bits = 64 ∨ bits = 128 := by decide
  hwidth : bits ≤ ucId.bits := by decide

/-- AArch64: the core registers first, the FP/SIMD set behind them. -/
def kArm64 : List RegDesc :=
  [ { name := "x0", ucId := .arm64X 0, bits := 64, generic := "arg1" },
    { name := "x1", ucId := .arm64X 1, bits := 64, generic := "arg2" },
    { name := "x2", ucId := .arm64X 2, bits := 64, generic := "arg3" },
    { name := "x3", ucId := .arm64X 3, bits := 64, generic := "arg4" },
    { name := "x4", ucId := .arm64X 4, bits := 64 },
    { name := "x5", ucId := .arm64X 5, bits := 64 },
    { name := "x6", ucId := .arm64X 6, bits := 64 },
    { name := "x7", ucId := .arm64X 7, bits := 64 },
    { name := "x8", ucId := .arm64X 8, bits := 64 },
    { name := "x9", ucId := .arm64X 9, bits := 64 },
    { name := "x10", ucId := .arm64X 10, bits := 64 },
    { name := "x11", ucId := .arm64X 11, bits := 64 },
    { name := "x12", ucId := .arm64X 12, bits := 64 },
    { name := "x13", ucId := .arm64X 13, bits := 64 },
    { name := "x14", ucId := .arm64X 14, bits := 64 },
    { name := "x15", ucId := .arm64X 15, bits := 64 },
    { name := "x16", ucId := .arm64X 16, bits := 64 },
    { name := "x17", ucId := .arm64X 17, bits := 64 },
    { name := "x18", ucId := .arm64X 18, bits := 64 },
    { name := "x19", ucId := .arm64X 19, bits := 64 },
    { name := "x20", ucId := .arm64X 20, bits := 64 },
    { name := "x21", ucId := .arm64X 21, bits := 64 },
    { name := "x22", ucId := .arm64X 22, bits := 64 },
    { name := "x23", ucId := .arm64X 23, bits := 64 },
    { name := "x24", ucId := .arm64X 24, bits := 64 },
    { name := "x25", ucId := .arm64X 25, bits := 64 },
    { name := "x26", ucId := .arm64X 26, bits := 64 },
    { name := "x27", ucId := .arm64X 27, bits := 64 },
    { name := "x28", ucId := .arm64X 28, bits := 64 },
    { name := "x29", ucId := .arm64X 29, bits := 64, generic := "fp" },
    { name := "x30", ucId := .arm64X 30, bits := 64, generic := "lr" },
    { name := "sp", ucId := .arm64Sp, bits := 64, type := "data_ptr", generic := "sp" },
    { name := "pc", ucId := .arm64Pc, bits := 64, type := "code_ptr", generic := "pc" },
    { name := "cpsr", ucId := .arm64Nzcv, bits := 32, generic := "flags" },
    { name := "v0", ucId := .arm64V 0, bits := 128, fpu := true },
    { name := "v1", ucId := .arm64V 1, bits := 128, fpu := true },
    { name := "v2", ucId := .arm64V 2, bits := 128, fpu := true },
    { name := "v3", ucId := .arm64V 3, bits := 128, fpu := true },
    { name := "v4", ucId := .arm64V 4, bits := 128, fpu := true },
    { name := "v5", ucId := .arm64V 5, bits := 128, fpu := true },
    { name := "v6", ucId := .arm64V 6, bits := 128, fpu := true },
    { name := "v7", ucId := .arm64V 7, bits := 128, fpu := true },
    { name := "v8", ucId := .arm64V 8, bits := 128, fpu := true },
    { name := "v9", ucId := .arm64V 9, bits := 128, fpu := true },
    { name := "v10", ucId := .arm64V 10, bits := 128, fpu := true },
    { name := "v11", ucId := .arm64V 11, bits := 128, fpu := true },
    { name := "v12", ucId := .arm64V 12, bits := 128, fpu := true },
    { name := "v13", ucId := .arm64V 13, bits := 128, fpu := true },
    { name := "v14", ucId := .arm64V 14, bits := 128, fpu := true },
    { name := "v15", ucId := .arm64V 15, bits := 128, fpu := true },
    { name := "v16", ucId := .arm64V 16, bits := 128, fpu := true },
    { name := "v17", ucId := .arm64V 17, bits := 128, fpu := true },
    { name := "v18", ucId := .arm64V 18, bits := 128, fpu := true },
    { name := "v19", ucId := .arm64V 19, bits := 128, fpu := true },
    { name := "v20", ucId := .arm64V 20, bits := 128, fpu := true },
    { name := "v21", ucId := .arm64V 21, bits := 128, fpu := true },
    { name := "v22", ucId := .arm64V 22, bits := 128, fpu := true },
    { name := "v23", ucId := .arm64V 23, bits := 128, fpu := true },
    { name := "v24", ucId := .arm64V 24, bits := 128, fpu := true },
    { name := "v25", ucId := .arm64V 25, bits := 128, fpu := true },
    { name := "v26", ucId := .arm64V 26, bits := 128, fpu := true },
    { name := "v27", ucId := .arm64V 27, bits := 128, fpu := true },
    { name := "v28", ucId := .arm64V 28, bits := 128, fpu := true },
    { name := "v29", ucId := .arm64V 29, bits := 128, fpu := true },
    { name := "v30", ucId := .arm64V 30, bits := 128, fpu := true },
    { name := "v31", ucId := .arm64V 31, bits := 128, fpu := true },
    { name := "fpsr", ucId := .arm64Fpsr, bits := 32, fpu := true },
    { name := "fpcr", ucId := .arm64Fpcr, bits := 32, fpu := true } ]

/-- AArch32. -/
def kArm32 : List RegDesc :=
  [ { name := "r0", ucId := .armR 0, bits := 32, generic := "arg1" },
    { name := "r1", ucId := .armR 1, bits := 32, generic := "arg2" },
    { name := "r2", ucId := .armR 2, bits := 32, generic := "arg3" },
    { name := "r3", ucId := .armR 3, bits := 32, generic := "arg4" },
    { name := "r4", ucId := .armR 4, bits := 32 },
    { name := "r5", ucId := .armR 5, bits := 32 },
    { name := "r6", ucId := .armR 6, bits := 32 },
    { name := "r7", ucId := .armR 7, bits := 32 },
    { name := "r8", ucId := .armR 8, bits := 32 },
    { name := "r9", ucId := .armR 9, bits := 32 },
    { name := "r10", ucId := .armR 10, bits := 32 },
    { name := "r11", ucId := .armR 11, bits := 32, generic := "fp" },
    { name := "r12", ucId := .armR 12, bits := 32 },
    { name := "sp", ucId := .armSp, bits := 32, type := "data_ptr", generic := "sp" },
    { name := "lr", ucId := .armLr, bits := 32, generic := "lr" },
    { name := "pc", ucId := .armPc, bits := 32, type := "code_ptr", generic := "pc" },
    { name := "cpsr", ucId := .armCpsr, bits := 32, generic := "flags" } ]

/-- A register table; no register is listed twice. -/
structure RegTable where
  regs : List RegDesc
  arch : String
  feature : String
  distinct : (regs.map RegDesc.ucId).Nodup

/-- The table of an architecture. -/
def tableFor : Abi → RegTable
  | .arm64 => ⟨kArm64, "aarch64", "org.gnu.gdb.aarch64.core", by decide +kernel⟩
  | _ => ⟨kArm32, "arm", "org.vardoger.arm.core", by decide +kernel⟩

/-! ## One register -/

/-- A buffer of `n` bytes that starts with `x` and is zero behind it. -/
def zeroFill (n : ℕ) (x : List UInt8) : List UInt8 := x ++ List.replicate (n - x.length) 0

/-- The 16-byte buffer that `read_reg_bytes` fills. -/
def readRegBytes (e : Engine) (r : RegDesc) : List UInt8 :=
  if r.bits ≤ 64 then zeroFill 16 (toBytes (r.bits / 8) (e.readUcReg r.ucId))
  else toBytes 16 (e.readUcReg r.ucId)

def writeRegBytes (e : Engine) (r : RegDesc) (buf : List UInt8) : Engine :=
  if r.bits ≤ 64 then e.writeUcReg r.ucId (ofBytes (buf.take (r.bits / 8)))
  else e.writeUcReg r.ucId (ofBytes (buf.take 16))

def regHex (e : Engine) (r : RegDesc) : List UInt8 :=
  bytesToHex ((readRegBytes e r).take (r.bits / 8))

/-- The buffer that `hex_to_reg_bytes` fills: as many bytes as the text holds, at most the
register's width. -/
def hexToRegBytes (hex : List UInt8) (r : RegDesc) : List UInt8 :=
  zeroFill 16 ((hexToBytes hex).take (r.bits / 8))

/-! ## All registers -/

/-- The texts of all registers of a list, in its order. -/
def regsHex (e : Engine) : List RegDesc → List UInt8
  | [] => []
  | r :: rs => regHex e r ++ regsHex e rs

/-- The loop of `write_all_regs_hex`: it stops at the first register that the text does not
cover. -/
def writeRegsHex (e : Engine) (hex : List UInt8) : List RegDesc → Engine
  | [] => e
  | r :: rs =>
    if hex.length < r.bits / 4 then e
    else
      writeRegsHex (writeRegBytes e r (hexToRegBytes (hex.take (r.bits / 4)) r))
        (hex.drop (r.bits / 4)) rs

def readAllRegsHex (e : Engine) : List UInt8 := regsHex e (tableFor e.abi).regs

def writeAllRegsHex (e : Engine) (hex : List UInt8) : Engine :=
  writeRegsHex e hex (tableFor e.abi).regs

def readOneRegHex (e : Engine) (regnum : ℕ) : List UInt8 :=
  match (tableFor e.abi).regs[regnum]? with
  | none => ascii "xxxxxxxx"
  | some r => regHex e r

def writeOneRegHex (e : Engine) (regnum : ℕ) (hex : List UInt8) : Engine :=
  match (tableFor e.abi).regs[regnum]? with
  | none => e
  | some r => writeRegBytes e r (hexToRegBytes hex r)

/-! ## The layout as it is reported -/

/-- The byte offset of a register in `g`: the widths of the registers before it. -/
def regOffset : List RegDesc → ℕ → ℕ
  | r :: rs, regnum + 1 => r.bits / 8 + regOffset rs regnum
  | _, _ => 0

/-- The part of a register's report behind its offset. -/
def registerRole (r : RegDesc) (regnum : ℕ) : List UInt8 :=
  (if r.fpu ∧ r.bits = 128 then
    ascii "encoding:vector;format:vector-uint8;set:Floating Point Registers"
  else if r.fpu then ascii "encoding:uint;format:hex;set:Floating Point Registers"
  else ascii "encoding:uint;format:hex;set:General Purpose Registers") ++
  ascii ";gcc:" ++ decimal regnum ++ ascii ";dwarf:" ++ decimal regnum ++ ascii ";" ++
  match r.generic with
  | none => []
  | some g =>
    if g = "pc" ∨ g = "sp" ∨ g = "fp" ∨ g = "lr" ∨ (ascii "arg").isPrefixOf (ascii g) then
      ascii "generic:" ++ ascii g ++ ascii ";"
    else []

/-- The reply to `qRegisterInfo`. -/
def registerInfo (abi : Abi) (regnum : ℕ) : List UInt8 :=
  match (tableFor abi).regs[regnum]? with
  | none => ascii "E45"
  | some r =>
    ascii "name:" ++ ascii r.name ++ ascii ";bitsize:" ++ decimal r.bits ++ ascii ";offset:" ++
      decimal (regOffset (tableFor abi).regs regnum) ++ ascii ";" ++ registerRole r regnum

/-! ## What a register holds -/

section Register

variable {e : Engine} {r : RegDesc} {hex : List UInt8}

/-- A register is a whole number of bytes, at most sixteen. -/
theorem RegDesc.bytes (r : RegDesc) :
    r.bits = 8 * (r.bits / 8) ∧ r.bits / 4 = 2 * (r.bits / 8) ∧ r.bits / 8 ≤ 16 := by
  rcases r.hbits with h | h | h <;> rw [h] <;> decide

theorem take_zeroFill {n : ℕ} {x : List UInt8} {k : ℕ} (hk : x.length = k) :
    (zeroFill n x).take k = x := by
  rw [zeroFill, ← hk, List.take_left]

/-- The text of a register is its low bytes in hex. -/
theorem regHex_eq (e : Engine) (r : RegDesc) :
    regHex e r = bytesToHex (toBytes (r.bits / 8) (e.reg r.ucId)) := by
  unfold regHex readRegBytes Engine.readUcReg
  split
  · rw [take_zeroFill (length_toBytes _ _)]
  · have h128 : r.bits = 128 := by have := r.hbits; omega
    rw [h128, List.take_of_length_le (by simp)]

theorem length_regHex (e : Engine) (r : RegDesc) : (regHex e r).length = r.bits / 4 := by
  rw [regHex_eq, length_bytesToHex, length_toBytes, r.bytes.2.1]

theorem isHex_regHex (e : Engine) (r : RegDesc) : IsHex (regHex e r) := by
  rw [regHex_eq]
  exact isHex_bytesToHex _

/-- Writing a text of full width stores the bytes it stands for. -/
theorem writeRegBytes_hexToRegBytes (hlength : hex.length = r.bits / 4) :
    writeRegBytes e r (hexToRegBytes hex r) = e.writeUcReg r.ucId (ofBytes (hexToBytes hex)) := by
  have hbytes : (hexToBytes hex).length = r.bits / 8 :=
    length_hexToBytes (by rw [hlength, r.bytes.2.1])
  have hbuffer : hexToRegBytes hex r = zeroFill 16 (hexToBytes hex) := by
    rw [hexToRegBytes, List.take_of_length_le hbytes.le]
  unfold writeRegBytes
  rw [hbuffer]
  split
  · rw [take_zeroFill hbytes]
  · have h128 : r.bits = 128 := by have := r.hbits; omega
    rw [take_zeroFill (by rw [hbytes, h128])]

/-- What a full-width text leaves in its register. -/
theorem reg_writeRegBytes (hlength : hex.length = r.bits / 4) :
    (writeRegBytes e r (hexToRegBytes hex r)).reg r.ucId = ofBytes (hexToBytes hex) := by
  have hbytes : (hexToBytes hex).length = r.bits / 8 :=
    length_hexToBytes (by rw [hlength, r.bytes.2.1])
  have hlt : ofBytes (hexToBytes hex) < 2 ^ r.ucId.bits :=
    calc ofBytes (hexToBytes hex) < 256 ^ (r.bits / 8) := hbytes ▸ ofBytes_lt _
      _ = 2 ^ (8 * (r.bits / 8)) := by rw [Nat.pow_mul]
      _ = 2 ^ r.bits := by rw [← r.bytes.1]
      _ ≤ 2 ^ r.ucId.bits := Nat.pow_le_pow_right (by decide) r.hwidth
  have hstored : (e.writeUcReg r.ucId (ofBytes (hexToBytes hex))).reg r.ucId =
      ofBytes (hexToBytes hex) % 2 ^ r.ucId.bits := Function.update_self ..
  rw [writeRegBytes_hexToRegBytes hlength, hstored, Nat.mod_eq_of_lt hlt]

/-- A register reads back as the text that was written to it, in lower case. -/
theorem regHex_writeRegBytes (hlength : hex.length = r.bits / 4) (hhex : IsHex hex) :
    regHex (writeRegBytes e r (hexToRegBytes hex r)) r = hex.map lower := by
  have hwidth : hex.length = 2 * (r.bits / 8) := by rw [hlength, r.bytes.2.1]
  have hback := toBytes_ofBytes (hexToBytes hex)
  rw [length_hexToBytes hwidth] at hback
  rw [regHex_eq, reg_writeRegBytes hlength, hback, bytesToHex_hexToBytes hwidth hhex]

/-- Writing a register touches no other register. -/
theorem reg_writeRegBytes_of_ne {buf : List UInt8} {u : UcReg} (hu : u ≠ r.ucId) :
    (writeRegBytes e r buf).reg u = e.reg u := by
  unfold writeRegBytes Engine.writeUcReg
  split <;> exact Function.update_of_ne hu _ _

theorem abi_writeRegBytes {buf : List UInt8} : (writeRegBytes e r buf).abi = e.abi := by
  unfold writeRegBytes Engine.writeUcReg
  split <;> rfl

/-- A text depends on its own register only. -/
theorem regHex_congr {e' : Engine} (h : e'.reg r.ucId = e.reg r.ucId) :
    regHex e' r = regHex e r := by
  rw [regHex_eq, regHex_eq, h]

/-- Writing a register's own text leaves the engine as it is. -/
theorem writeRegBytes_regHex (h : e.reg r.ucId < 2 ^ r.bits) :
    writeRegBytes e r (hexToRegBytes (regHex e r) r) = e := by
  have hread : ofBytes (hexToBytes (regHex e r)) = e.reg r.ucId := by
    rw [regHex_eq, hexToBytes_bytesToHex, ofBytes_toBytes]
    have hpow : 256 ^ (r.bits / 8) = 2 ^ r.bits := by
      rw [show 256 = 2 ^ 8 from rfl, ← Nat.pow_mul, ← r.bytes.1]
    rw [hpow, Nat.mod_eq_of_lt h]
  have hlt : e.reg r.ucId < 2 ^ r.ucId.bits :=
    h.trans_le (Nat.pow_le_pow_right (by decide) r.hwidth)
  rw [writeRegBytes_hexToRegBytes (length_regHex e r), hread, Engine.writeUcReg,
    Nat.mod_eq_of_lt hlt, Function.update_eq_self]

end Register

/-! ## What the registers of a table hold -/

section Table

variable {e : Engine} {regs : List RegDesc} {hex : List UInt8}

theorem reg_writeRegsHex_of_not_mem {u : UcReg} (hu : u ∉ regs.map RegDesc.ucId) :
    (writeRegsHex e hex regs).reg u = e.reg u := by
  induction regs generalizing e hex with
  | nil => rfl
  | cons r rs ih =>
    rw [List.map_cons, List.mem_cons, not_or] at hu
    rw [writeRegsHex]
    split
    · rfl
    · rw [ih hu.2, reg_writeRegBytes_of_ne hu.1]

theorem abi_writeRegsHex : (writeRegsHex e hex regs).abi = e.abi := by
  induction regs generalizing e hex with
  | nil => rfl
  | cons r rs ih =>
    rw [writeRegsHex]
    split
    · rfl
    · rw [ih, abi_writeRegBytes]

/-- The registers read back as the text that was written to all of them, in lower case. -/
theorem regsHex_writeRegsHex (hdistinct : (regs.map RegDesc.ucId).Nodup)
    (hlength : hex.length = 2 * regOffset regs regs.length) (hhex : IsHex hex) :
    regsHex (writeRegsHex e hex regs) regs = hex.map lower := by
  induction regs generalizing e hex with
  | nil => rw [List.length_eq_zero_iff.mp hlength]; rfl
  | cons r rs ih =>
    rw [List.map_cons, List.nodup_cons] at hdistinct
    rw [List.length_cons, regOffset] at hlength
    have hbytes := r.bytes
    have hfront : (hex.take (r.bits / 4)).length = r.bits / 4 := by
      rw [List.length_take]; omega
    have hback : (hex.drop (r.bits / 4)).length = 2 * regOffset rs rs.length := by
      rw [List.length_drop]; omega
    have htake : IsHex (hex.take (r.bits / 4)) := fun c hc => hhex c (List.mem_of_mem_take hc)
    have hdrop : IsHex (hex.drop (r.bits / 4)) := fun c hc => hhex c (List.mem_of_mem_drop hc)
    rw [writeRegsHex, if_neg (by omega), regsHex, ih hdistinct.2 hback hdrop,
      regHex_congr (reg_writeRegsHex_of_not_mem hdistinct.1), regHex_writeRegBytes hfront htake,
      ← List.map_append, List.take_append_drop]

/-- The text of a register stands in the text of all of them at its reported offset. -/
theorem regHex_eq_slice {n : ℕ} {r : RegDesc} (hr : regs[n]? = some r) :
    regHex e r = ((regsHex e regs).drop (2 * regOffset regs n)).take (2 * (r.bits / 8)) := by
  induction regs generalizing n with
  | nil => simp at hr
  | cons a rs ih =>
    have hbytes := a.bytes
    cases n with
    | zero =>
      obtain rfl : a = r := by simpa using hr
      rw [regsHex, regOffset, Nat.mul_zero, List.drop_zero, ← hbytes.2.1, ← length_regHex e a,
        List.take_left]
      simp
    | succ n =>
      have hlength := length_regHex e a
      rw [List.getElem?_cons_succ] at hr
      rw [regsHex, regOffset, ih hr, Nat.mul_add, ← hbytes.2.1, ← hlength, ← List.drop_drop,
        List.drop_left]

/-- Writing the registers' own texts leaves the engine as it is. -/
theorem writeRegsHex_regsHex (hcells : ∀ r ∈ regs, e.reg r.ucId < 2 ^ r.bits) :
    writeRegsHex e (regsHex e regs) regs = e := by
  induction regs with
  | nil => rfl
  | cons r rs ih =>
    have hlength := length_regHex e r
    rw [writeRegsHex, regsHex, if_neg (by rw [List.length_append]; omega), ← hlength,
      List.take_left, List.drop_left, writeRegBytes_regHex (hcells r (by simp)),
      ih fun r hr => hcells r (by simp [hr])]

end Table

end Vardoger.Gdb
