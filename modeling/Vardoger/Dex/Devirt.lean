import Vardoger.Dex.Assembler
import Mathlib.Data.List.Infix

/-!
# From decoded virtual instructions to Dalvik

`md_decode_method` turns the rows of a decode log into virtual instructions, with the operands cut
out of the raw word of a row by the family of its opcode. `md_to_dalvik` gives each of them a Dalvik
instruction; a branch target is an index into the list. Strings are those of the source.
-/

namespace Vardoger.Dex

/-- A decoded virtual instruction. The fields with a `has_` flag are optional. -/
structure VmInstr where
  op : BitVec 16 := 0
  family : String := ""
  vregs : List (BitVec 32) := []
  pool : Option (BitVec 32) := none
  lit : Option (BitVec 64) := none
  target : Option (BitVec 32) := none
  deriving DecidableEq, Repr

/-- A register with the value it held. -/
structure RwPair where
  reg : BitVec 32
  val : BitVec 64
  deriving DecidableEq, Repr

/-- A row of the decode log: its position, its opcode, its raw word and its branch target, and, in
the richer logs, the registers read and written, the pool index and whether there was a fetch. -/
structure RawDlv where
  p : ℤ
  op : BitVec 16
  raw : BitVec 32
  tgt : Option ℤ := none
  reads : List RwPair := []
  writes : List RwPair := []
  pool : Option ℤ := none
  hasFetch : Bool := false
  deriving DecidableEq, Repr

def strContains (s sub : String) : Bool := decide (sub.toList <:+: s.toList)

/-- The part of a family before the first slash. -/
def famBase (fam : String) : String := String.ofList (fam.toList.takeWhile (· ≠ '/'))

/-- The Dalvik mnemonic of each arithmetic family. -/
def mdAlu : List (String × String) :=
  [("add", "add-int"), ("sub", "sub-int"), ("mul", "mul-int"), ("udiv", "div-int"),
    ("sdiv", "div-int"), ("and", "and-int"), ("orr", "or-int"), ("eor", "xor-int"),
    ("lsl", "shl-int"), ("lsr", "ushr-int"), ("asr", "shr-int"), ("fadd", "add-float"),
    ("fsub", "sub-float"), ("fmul", "mul-float"), ("fdiv", "div-float")]

/-! ## Decoding -/

/-- The index of the last row at a position. -/
def rowAt (rows : List RawDlv) (p : ℤ) : Option ℕ :=
  ((rows.zipIdx.filter fun row => row.1.p = p).getLast?).map Prod.snd

/-- The nibble of a word at a bit position, as an `int`. -/
def nibbleAt (w : BitVec 32) (shift : ℕ) : BitVec 32 := (w >>> shift) &&& 0xf

/-- The operands that a family takes from the word of a row. -/
def decodeOperands (hi : BitVec 32) (d : VmInstr) : VmInstr :=
  let fam := d.family
  if fam = "invoke" ∨ strContains fam "ref" ∨ fam = "const/ref" then
    { d with pool := some hi, vregs := [nibbleAt hi 0] }
  else if (mdAlu.lookup (famBase fam)).isSome ∨ fam = "binary-int" then
    { d with vregs := [nibbleAt hi 0, nibbleAt hi 4, nibbleAt hi 8] }
  else if strContains fam "move" then { d with vregs := [nibbleAt hi 0, nibbleAt hi 4] }
  else if strContains fam "if-" then { d with vregs := [nibbleAt hi 0, nibbleAt hi 4] }
  else if fam = "const" then
    { d with vregs := [nibbleAt hi 0], lit := some ((hi >>> 4).signExtend 64) }
  else d

/-- The instruction of one row. -/
def decodeRow (rows : List RawDlv) (cls : BitVec 16 → Option String) (s : RawDlv) : VmInstr :=
  let target := (s.tgt.bind (rowAt rows)).map (BitVec.ofNat 32)
  decodeOperands (s.raw >>> 8) { op := s.op, family := (cls s.op).getD "?", target := target }

def isIf (fam : String) : Bool := strContains fam "if-"

def isGoto (fam : String) : Bool :=
  fam = "nop/goto" || fam = "nop" || fam = "goto" || decide ("goto".toList <:+ fam.toList)

/-- Repair the target of the branch at an index: a conditional one falls through, a `goto` becomes
a `nop`. -/
def sanitize (n i : ℕ) (d : VmInstr) : VmInstr :=
  if !(isIf d.family || isGoto d.family) then d
  else if ∃ t ∈ d.target, 0 ≤ t.toInt ∧ t.toInt < n ∧ t.toInt ≠ i then d
  else if isIf d.family ∧ i + 1 < n then { d with target := some (BitVec.ofNat 32 (i + 1)) }
  else { d with family := "nop", target := none }

/-- The instructions of a method; rows with the opcode `0xffff` are skipped. -/
def mdDecodeMethod (dlv : List RawDlv) (cls : BitVec 16 → Option String) : List VmInstr :=
  let real := dlv.filter fun s => s.op ≠ 0xffff
  let dec := real.map (decodeRow real cls)
  dec.zipIdx.map fun (d, i) => sanitize dec.length i d

/-! ## Bridge -/

/-- The smallest constant instruction for a literal. -/
def constForm (reg lit : BitVec 64) : DalvikInstr :=
  if -8 ≤ lit.toInt ∧ lit.toInt ≤ 7 then { mnem := "const/4", ops := [reg, lit] }
  else if -32768 ≤ lit.toInt ∧ lit.toInt ≤ 32767 then { mnem := "const/16", ops := [reg, lit] }
  else { mnem := "const", ops := [reg, lit] }

/-- The arithmetic families, none if the registers are missing. -/
def aluForm (ins : VmInstr) : Option DalvikInstr :=
  let r := fun i => (ins.vregs.getD i 0).signExtend 64
  match mdAlu.lookup (famBase ins.family) with
  | none => none
  | some mn =>
      if strContains ins.family "/2addr" ∧ 2 ≤ ins.vregs.length then
        some { mnem := mn ++ "/2addr", ops := [r 0, r 1] }
      else if 3 ≤ ins.vregs.length then some { mnem := mn, ops := [r 0, r 1, r 2] }
      else if 2 ≤ ins.vregs.length then some { mnem := mn ++ "/2addr", ops := [r 0, r 1] }
      else none

/-- The reference families, none if there is no register. -/
def refForm (ins : VmInstr) : Option DalvikInstr :=
  let r := fun i => (ins.vregs.getD i 0).signExtend 64
  match ins.vregs.length, ins.pool with
  | 0, _ => none
  | 1, some pool => some { mnem := "const-string", ops := [r 0, pool.signExtend 64] }
  | 1, none => some { mnem := "move-object", ops := [r 0, r 0] }
  | _ + 2, some pool => some { mnem := "iget-object", ops := [r 0, r 1, pool.signExtend 64] }
  | _ + 2, none => some { mnem := "move-object", ops := [r 0, r 1] }

/-- The families behind the arithmetic ones. -/
def otherForm (ins : VmInstr) : DalvikInstr :=
  let fam := ins.family
  let v := ins.vregs
  let r := fun i => (v.getD i 0).signExtend 64
  let target := (ins.target.getD 0).signExtend 64
  if fam = "binary-int" ∧ 3 ≤ v.length then { mnem := "add-int", ops := [r 0, r 1, r 2] }
  else if fam = "binary-int" ∧ v.length = 2 then { mnem := "add-int/2addr", ops := [r 0, r 1] }
  else if (fam = "move/unary" ∨ fam = "move") ∧ 2 ≤ v.length then
    { mnem := "move", ops := [r 0, r 1] }
  else if (fam = "move-result/const" ∨ fam = "move-result") ∧ 1 ≤ v.length then
    { mnem := "move-result", ops := [r 0] }
  else if fam = "const" ∧ 1 ≤ v.length then constForm (r 0) (ins.lit.getD 0)
  else if fam = "invoke" then
    { mnem := "invoke-virtual", regs := if v = [] then [0] else v
      ops := [0, (ins.pool.getD 0).signExtend 64] }
  else if (fam = "ref-op" ∨ fam = "const/ref") ∧ (refForm ins).isSome then
    (refForm ins).getD { mnem := "nop" }
  else if fam = "if-cmp" ∧ 2 ≤ v.length then { mnem := "if-eq", ops := [r 0, r 1, target] }
  else if (fam = "if-testz" ∨ fam = "if-testz/return") ∧ 1 ≤ v.length then
    { mnem := "if-eqz", ops := [r 0, target] }
  else if famBase fam = "wide" ∨ strContains fam "multi-word" then
    { mnem := "const-wide/16", ops := [r 0, ins.lit.getD 0] }
  else if fam = "nop/goto" ∨ fam = "nop" then
    if ins.target.isSome then { mnem := "goto", ops := [target] } else { mnem := "nop" }
  else if "return".toList <+: fam.toList then
    if v = [] then { mnem := "return-void" } else { mnem := "return", ops := [r 0] }
  else { mnem := "nop" }

/-- The Dalvik instruction of a virtual one. -/
def mdToDalvik (ins : VmInstr) : DalvikInstr := (aluForm ins).getD (otherForm ins)

/-! ## Constants -/

/-- A constant with a register becomes the smallest constant instruction. -/
theorem mdToDalvik_const {ins : VmInstr} (hfam : ins.family = "const") {reg : BitVec 32}
    {rest : List (BitVec 32)} (hvregs : ins.vregs = reg :: rest) :
    mdToDalvik ins = constForm (reg.signExtend 64) (ins.lit.getD 0) := by
  have halu : mdAlu.lookup (famBase "const") = none := by decide +kernel
  have hform : aluForm ins = none := by simp only [aluForm, hfam, halu]
  rw [mdToDalvik, hform, Option.getD_none, otherForm, hfam, hvregs]
  simp

/-- A constant is not a branch. -/
theorem sanitize_const {n i : ℕ} {d : VmInstr} (h : (sanitize n i d).family = "const") :
    sanitize n i d = d := by
  have hconst : isIf "const" = false := by decide +kernel
  unfold sanitize at h ⊢
  split_ifs with hbranch htarget hif
  · rfl
  · rfl
  · rw [if_neg hbranch, if_neg htarget, if_pos hif] at h
    have hfalse := hif.1
    rw [show d.family = "const" from h, hconst] at hfalse
    exact absurd hfalse Bool.false_ne_true
  · rw [if_neg hbranch, if_neg htarget, if_neg hif] at h
    exact absurd (show "nop" = "const" from h) (by decide +kernel)

theorem family_decodeOperands (hi : BitVec 32) (d : VmInstr) :
    (decodeOperands hi d).family = d.family := by
  simp only [decodeOperands]
  split_ifs <;> rfl

theorem decodeOperands_const (hi : BitVec 32) {d : VmInstr} (hd : d.family = "const") :
    decodeOperands hi d =
      { d with vregs := [nibbleAt hi 0], lit := some ((hi >>> 4).signExtend 64) } := by
  have hothers : ¬("const" = "invoke" ∨ strContains "const" "ref" = true ∨ "const" = "const/ref") ∧
      ¬((mdAlu.lookup (famBase "const")).isSome = true ∨ "const" = "binary-int") ∧
      ¬strContains "const" "move" = true ∧ ¬strContains "const" "if-" = true := by decide +kernel
  simp only [decodeOperands, hd, if_neg hothers.1, if_neg hothers.2.1, if_neg hothers.2.2.1,
    if_neg hothers.2.2.2, if_true]

/-- A decoded constant has one register of four bits and a literal of twenty. -/
theorem mdDecodeMethod_const {dlv : List RawDlv} {cls : BitVec 16 → Option String} {vm : VmInstr}
    (hvm : vm ∈ mdDecodeMethod dlv cls) (hfam : vm.family = "const") :
    ∃ raw : BitVec 32, vm.vregs = [nibbleAt (raw >>> 8) 0] ∧
      vm.lit = some ((raw >>> 8 >>> 4).signExtend 64) := by
  obtain ⟨⟨d, i⟩, hd, rfl⟩ := List.mem_map.mp hvm
  obtain ⟨row, -, hrow⟩ := List.mem_map.mp (List.fst_mem_of_mem_zipIdx hd)
  dsimp only at hfam ⊢
  have hsame := sanitize_const hfam
  rw [hsame] at hfam ⊢
  have hdecoded : d = decodeOperands (row.raw >>> 8) _ := hrow.symm
  rw [hdecoded, family_decodeOperands] at hfam
  rw [hdecoded, decodeOperands_const _ hfam]
  exact ⟨row.raw, rfl, rfl⟩

end Vardoger.Dex
