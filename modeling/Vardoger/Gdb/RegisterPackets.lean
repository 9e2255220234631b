import Vardoger.Gdb.Stub

/-!
# One layout for all register packets

The packets `g`, `G`, `p`, `P` and `qRegisterInfo` each walk the register table on their own. They
agree: what `G` and `P` write, `g` and `p` read back, and `p` is the part of `g` at the offset that
`qRegisterInfo` reports.
-/

namespace Vardoger.Gdb

open Bytes Hex

/-- The bytes of all registers of a table. -/
def RegTable.size (t : RegTable) : ℕ := regOffset t.regs t.regs.length

/-- Every register of the table holds a value of its declared width. -/
def DeclaredWidths (e : Engine) : Prop :=
  ∀ r ∈ (tableFor e.abi).regs, e.reg r.ucId < 2 ^ r.bits

/-- The register number that a packet spells. -/
def number (d : List UInt8) : ℕ := (parseHexU64 0 d).1

namespace GdbStub

variable (allocates : ℕ → Bool) (s : GdbStub)

/-- The reply to a packet that is answered with one, and the state behind it. -/
def ask (pkt : List UInt8) : Option (List UInt8 × GdbStub) :=
  match handlePacket allocates pkt s with
  | .ok (.reply text) s' => some (text, s')
  | _ => none

theorem ask_g : s.ask allocates (ascii "g") = some (readAllRegsHex s.engine, s) := rfl

theorem ask_G (hex : List UInt8) :
    s.ask allocates (ascii "G" ++ hex) =
      some (ascii "OK", { s with engine := writeAllRegsHex s.engine hex }) := rfl

theorem ask_p (d : List UInt8) :
    s.ask allocates (ascii "p" ++ d) = some (readOneRegHex s.engine (number d), s) := rfl

/-- The number of a `P` packet ends at the `=`. -/
theorem ask_P {d : List UInt8} (hd : IsHex d) (v : List UInt8) :
    s.ask allocates (ascii "P" ++ d ++ ascii "=" ++ v) =
      some (ascii "OK", { s with engine := writeOneRegHex s.engine (number d) v }) := by
  have hstop : ∀ c ∈ (ascii "=" ++ v).head?, isxdigit c = false := by
    intro c hc
    obtain rfl : 0x3d = c := Option.some.inj hc
    rfl
  have hparse : parseHexU64 0 (d ++ (ascii "=" ++ v)) = (number d, ascii "=" ++ v) :=
    parseHexU64_append hd hstop 0
  have hask : s.ask allocates (ascii "P" ++ (d ++ (ascii "=" ++ v))) =
      some (ascii "OK",
        { s with
          engine := writeOneRegHex s.engine (parseHexU64 0 (d ++ (ascii "=" ++ v))).1
            (skipChar 0x3d (parseHexU64 0 (d ++ (ascii "=" ++ v))).2) }) := rfl
  rw [List.append_assoc, List.append_assoc, hask, hparse]
  rfl

theorem ask_qRegisterInfo (d : List UInt8) :
    s.ask allocates (ascii "qRegisterInfo" ++ d) =
      some (registerInfo s.engine.abi (number d), s) := rfl

end GdbStub

section OneRegister

variable {e : Engine} {n : ℕ} {r : RegDesc} {v : List UInt8}

theorem readOneRegHex_of_getElem? (hr : (tableFor e.abi).regs[n]? = some r) :
    readOneRegHex e n = regHex e r := by
  rw [readOneRegHex, hr]

theorem writeOneRegHex_of_getElem? (hr : (tableFor e.abi).regs[n]? = some r) :
    writeOneRegHex e n v = writeRegBytes e r (hexToRegBytes v r) := by
  rw [writeOneRegHex, hr]

/-- Different numbers name different registers. -/
theorem ucId_ne {m : ℕ} {a : RegDesc} (hr : (tableFor e.abi).regs[n]? = some r)
    (ha : (tableFor e.abi).regs[m]? = some a) (hne : m ≠ n) : a.ucId ≠ r.ucId := by
  intro hsame
  have hn : ((tableFor e.abi).regs.map RegDesc.ucId)[n]? = some r.ucId := by simp [hr]
  have hm : ((tableFor e.abi).regs.map RegDesc.ucId)[m]? = some r.ucId := by simp [ha, hsame]
  obtain ⟨hlt, -⟩ := List.getElem?_eq_some_iff.mp hm
  exact hne ((List.getElem?_inj hlt (tableFor e.abi).distinct).mp (hm.trans hn.symm))

/-- A register that was written reads back as the text, in lower case. -/
theorem readOneRegHex_writeOneRegHex (hr : (tableFor e.abi).regs[n]? = some r) (hhex : IsHex v)
    (hlength : v.length = 2 * (r.bits / 8)) :
    readOneRegHex (writeOneRegHex e n v) n = v.map lower := by
  have hwidth : v.length = r.bits / 4 := by rw [hlength, r.bytes.2.1]
  rw [writeOneRegHex_of_getElem? hr, readOneRegHex, abi_writeRegBytes, hr]
  exact regHex_writeRegBytes hwidth hhex

/-- The other registers read as before. -/
theorem readOneRegHex_writeOneRegHex_of_ne {m : ℕ} (hr : (tableFor e.abi).regs[n]? = some r)
    (hne : m ≠ n) : readOneRegHex (writeOneRegHex e n v) m = readOneRegHex e m := by
  rw [writeOneRegHex_of_getElem? hr, readOneRegHex, readOneRegHex, abi_writeRegBytes]
  cases ha : (tableFor e.abi).regs[m]? with
  | none => rfl
  | some a => exact regHex_congr (reg_writeRegBytes_of_ne (ucId_ne hr ha hne))

end OneRegister

/-- All registers read back as the text that was written to them, in lower case. -/
theorem readAllRegsHex_writeAllRegsHex (e : Engine) {hex : List UInt8} (hhex : IsHex hex)
    (hlength : hex.length = 2 * (tableFor e.abi).size) :
    readAllRegsHex (writeAllRegsHex e hex) = hex.map lower := by
  rw [readAllRegsHex, writeAllRegsHex, abi_writeRegsHex]
  exact regsHex_writeRegsHex (tableFor e.abi).distinct hlength hhex

/-- On both register tables and in every state whose registers hold values of their declared width:
`g` returns what `G` wrote, `p` is the part of `g` that `qRegisterInfo` describes, writing back the
reply to `g` changes no register, and `P` changes exactly the register it names. -/
theorem register_packets_agree (allocates : ℕ → Bool) (s : GdbStub)
    (hwidths : DeclaredWidths s.engine) :
    (∀ h, IsHex h → h.length = 2 * (tableFor s.engine.abi).size →
      ∃ s', s.ask allocates (ascii "G" ++ h) = some (ascii "OK", s') ∧
        s'.ask allocates (ascii "g") = some (h.map lower, s')) ∧
    (∀ d r, IsHex d → (tableFor s.engine.abi).regs[number d]? = some r →
      ∃ off rest all,
        s.ask allocates (ascii "qRegisterInfo" ++ d) =
          some (ascii "name:" ++ ascii r.name ++ ascii ";bitsize:" ++ decimal r.bits ++
            ascii ";offset:" ++ decimal off ++ ascii ";" ++ rest, s) ∧
        s.ask allocates (ascii "g") = some (all, s) ∧
        s.ask allocates (ascii "p" ++ d) =
          some ((all.drop (2 * off)).take (2 * (r.bits / 8)), s)) ∧
    (∃ all s', s.ask allocates (ascii "g") = some (all, s) ∧
      s.ask allocates (ascii "G" ++ all) = some (ascii "OK", s') ∧
      ∀ u, s'.engine.reg u = s.engine.reg u) ∧
    ∀ d r v, IsHex d → (tableFor s.engine.abi).regs[number d]? = some r → IsHex v →
      v.length = 2 * (r.bits / 8) →
      ∃ s', s.ask allocates (ascii "P" ++ d ++ ascii "=" ++ v) = some (ascii "OK", s') ∧
        s'.ask allocates (ascii "p" ++ d) = some (v.map lower, s') ∧
        ∀ d', IsHex d' → number d' ≠ number d →
          (s'.ask allocates (ascii "p" ++ d')).map Prod.fst =
            (s.ask allocates (ascii "p" ++ d')).map Prod.fst := by
  refine ⟨fun h hhex hlength => ?_, fun d r _ hr => ?_, ?_, fun d r v hd hr hhex hlength => ?_⟩
  · refine ⟨_, s.ask_G allocates h, ?_⟩
    rw [GdbStub.ask_g, readAllRegsHex_writeAllRegsHex s.engine hhex hlength]
  · have hinfo : registerInfo s.engine.abi (number d) =
        ascii "name:" ++ ascii r.name ++ ascii ";bitsize:" ++ decimal r.bits ++
          ascii ";offset:" ++ decimal (regOffset (tableFor s.engine.abi).regs (number d)) ++
          ascii ";" ++ registerRole r (number d) := by
      rw [registerInfo, hr]
    refine ⟨regOffset (tableFor s.engine.abi).regs (number d), registerRole r (number d),
      readAllRegsHex s.engine, ?_, s.ask_g allocates, ?_⟩
    · rw [GdbStub.ask_qRegisterInfo, hinfo]
    · rw [GdbStub.ask_p, readOneRegHex_of_getElem? hr, regHex_eq_slice hr]
      rfl
  · refine ⟨_, _, s.ask_g allocates, s.ask_G allocates _, fun u => ?_⟩
    exact congrArg (fun e => Engine.reg e u) (writeRegsHex_regsHex hwidths)
  · refine ⟨_, s.ask_P allocates hd v, ?_, fun d' _ hne => ?_⟩
    · rw [GdbStub.ask_p, readOneRegHex_writeOneRegHex hr hhex hlength]
    · rw [GdbStub.ask_p, GdbStub.ask_p, Option.map_some, Option.map_some,
        readOneRegHex_writeOneRegHex_of_ne hr hne]

/-- On a fresh AArch64 guest every register, the vector registers included, takes all ones. -/
theorem register_packets_agree_ones :
    ∃ s', GdbStub.ask (fun _ => true) { engine := .fresh .arm64, inp := [] }
        (ascii "G" ++ List.replicate 1576 0x46) = some (ascii "OK", s') ∧
      s'.ask (fun _ => true) (ascii "g") = some (List.replicate 1576 0x66, s') := by
  have hwidths : DeclaredWidths (.fresh .arm64) := fun r _ => Nat.pow_pos (by decide)
  obtain ⟨hall, -⟩ := register_packets_agree (fun _ => true)
    { engine := .fresh .arm64, inp := [] } hwidths
  have hhex : IsHex (List.replicate 1576 0x46) := by
    intro c hc
    rw [List.eq_of_mem_replicate hc]
    rfl
  have hlength : (List.replicate 1576 (0x46 : UInt8)).length = 2 * (tableFor .arm64).size := by
    rw [List.length_replicate]
    decide +kernel
  have hlower : (List.replicate 1576 (0x46 : UInt8)).map lower = List.replicate 1576 0x66 := by
    rw [List.map_replicate]
    rfl
  rw [← hlower]
  exact hall _ hhex hlength

end Vardoger.Gdb
