import Vardoger.Dex.Assembler
import Mathlib.Algebra.BigOperators.Group.List.Lemmas
import Mathlib.Algebra.GroupWithZero.Nat

/-!
# Where assembled branches land

The assembler emits every instruction at the sum of the units before it, and resolves every branch
to the offset of its target. The encoder then narrows the distance to the width of the branch
format, without a check and without choosing a wider form. So a branch lands on its target
exactly if the distance fits its format.
-/

namespace Vardoger.Dex

/-- The unit offset of an instruction: the sum of the units before it. -/
def unitOffset (instrs : List DalvikInstr) (i : ℕ) : ℕ := ((instrs.take i).map instrUnits).sum

/-- The width of the displacement of a branch format. -/
def branchBits : Fmt → ℕ
  | .f10t => 8
  | .f20t | .f21t | .f22t => 16
  | .f30t => 32
  | _ => 0

/-- The displacement of a branch, read back from the units at its offset. -/
def displacement (fmt : Fmt) (units : List (BitVec 16)) (off : ℕ) : ℤ :=
  match fmt with
  | .f10t => ((units.getD off 0 >>> 8).setWidth 8 : BitVec 8).toInt
  | .f20t | .f21t | .f22t => (units.getD (off + 1) 0).toInt
  | .f30t => (units.getD (off + 2) 0 ++ units.getD (off + 1) 0 : BitVec 32).toInt
  | _ => 0

/-- The units of one instruction of the list. -/
def encoded (instrs : List DalvikInstr) (ins : DalvikInstr) (i : ℕ) : List (BitVec 16) :=
  unitsOf (mdEncode (resolve (offsets instrs 0) ins) (BitVec.ofNat 32 (unitOffset instrs i)))

/-- The instruction at `i` is a branch of the given format to the instruction at `target`. -/
def IsBranch (instrs : List DalvikInstr) (i target : ℕ) (fmt : Fmt) : Prop :=
  ∃ ins k idx, instrs[i]? = some ins ∧ fmtOf ins = fmt ∧ branchOperand fmt = some k ∧
    ins.ops[k]? = some idx ∧ idx.toInt = target

/-- Branch operands are valid indices into the list. -/
def ValidBranches (instrs : List DalvikInstr) : Prop :=
  ∀ ins ∈ instrs, ∀ k, branchOperand (fmtOf ins) = some k →
    ∃ idx, ins.ops[k]? = some idx ∧ 0 ≤ idx.toInt ∧ idx.toInt < instrs.length

/-- Every instruction starts at the sum of the units before it, and every branch lands. -/
structure Lands (instrs : List DalvikInstr) : Prop where
  placed : ∀ i ins, instrs[i]? = some ins →
    ((mdAssemble instrs).drop (unitOffset instrs i)).take (instrUnits ins) = encoded instrs ins i
  lands : ∀ i target fmt, IsBranch instrs i target fmt →
    unitOffset instrs i + displacement fmt (mdAssemble instrs) (unitOffset instrs i) =
      unitOffset instrs target

/-- Every branch distance fits its format. -/
def InReach (instrs : List DalvikInstr) : Prop :=
  ∀ i target fmt, IsBranch instrs i target fmt →
    -(2 ^ (branchBits fmt - 1) : ℤ) ≤ unitOffset instrs target - unitOffset instrs i ∧
      (unitOffset instrs target - unitOffset instrs i : ℤ) < 2 ^ (branchBits fmt - 1)

/-! ## Positions -/

theorem offsets_getElem (instrs : List DalvikInstr) (u i : ℕ) (hi : i < instrs.length) :
    (offsets instrs (BitVec.ofNat 32 u))[i]? =
      some (BitVec.ofNat 32 (u + unitOffset instrs i)) := by
  induction instrs generalizing u i with
  | nil => simp at hi
  | cons ins instrs ih =>
    cases i with
    | zero => simp [offsets, unitOffset]
    | succ i =>
      rw [offsets, List.getElem?_cons_succ, ← BitVec.ofNat_add, ih _ _ (by simpa using hi)]
      simp only [unitOffset, List.take_succ_cons, List.map_cons, List.sum_cons, Nat.add_assoc]

theorem length_offsets (instrs : List DalvikInstr) (u : BitVec 32) :
    (offsets instrs u).length = instrs.length := by
  induction instrs generalizing u with
  | nil => rfl
  | cons ins instrs ih => simp only [offsets, List.length_cons, ih]

theorem instrUnits_resolve (offs : List (BitVec 32)) (ins : DalvikInstr) :
    instrUnits (resolve offs ins) = instrUnits ins := by
  unfold resolve
  split
  · rfl
  · rfl

/-- The units of each instruction, in order. -/
def pieces (instrs : List DalvikInstr) : List (List (BitVec 16)) :=
  (instrs.zip (offsets instrs 0)).map fun (ins, cur) =>
    unitsOf (mdEncode (resolve (offsets instrs 0) ins) cur)

/-- The assembled units are the pieces, one after the other. -/
theorem mdAssemble_eq (instrs : List DalvikInstr) :
    mdAssemble instrs = (pieces instrs).flatten := by
  unfold mdAssemble pieces
  dsimp only
  generalize offsets instrs 0 = offs
  induction instrs.zip offs with
  | nil => rfl
  | cons p rest ih =>
    rw [List.flatMap_cons, unitsOf_append (by rw [length_mdEncode]; omega), ih, List.map_cons,
      List.flatten_cons]

theorem pieces_getElem {instrs : List DalvikInstr} {i : ℕ} {ins : DalvikInstr}
    (h : instrs[i]? = some ins) : (pieces instrs)[i]? = some (encoded instrs ins i) := by
  have hi : i < instrs.length := (List.getElem?_eq_some_iff.mp h).1
  have hoff : (offsets instrs 0)[i]? = some (BitVec.ofNat 32 (unitOffset instrs i)) := by
    rw [← Nat.zero_add (unitOffset instrs i)]
    exact offsets_getElem instrs 0 i hi
  have hzip : (instrs.zip (offsets instrs 0))[i]? =
      some (ins, BitVec.ofNat 32 (unitOffset instrs i)) :=
    List.getElem?_zip_eq_some.mpr ⟨h, hoff⟩
  rw [pieces, List.getElem?_map, hzip]
  rfl

theorem length_encoded (instrs : List DalvikInstr) (ins : DalvikInstr) (i : ℕ) :
    (encoded instrs ins i).length = instrUnits ins := by
  rw [encoded, length_unitsOf, length_mdEncode, instrUnits_resolve]
  · omega
  · rw [length_mdEncode]
    omega

theorem length_pieces (instrs : List DalvikInstr) :
    (pieces instrs).map List.length = instrs.map instrUnits := by
  refine List.ext_getElem? fun i => ?_
  rw [List.getElem?_map, List.getElem?_map]
  cases hins : instrs[i]? with
  | none =>
    have hlength : (pieces instrs).length = instrs.length := by simp [pieces, length_offsets]
    rw [List.getElem?_eq_none (by rw [hlength]; exact List.getElem?_eq_none_iff.mp hins)]
    rfl
  | some ins =>
    rw [pieces_getElem hins, Option.map_some, length_encoded]
    rfl

/-- Every instruction is emitted at the sum of the units before it. -/
theorem mdAssemble_placed {instrs : List DalvikInstr} {i : ℕ} {ins : DalvikInstr}
    (h : instrs[i]? = some ins) :
    ((mdAssemble instrs).drop (unitOffset instrs i)).take (instrUnits ins) =
      encoded instrs ins i := by
  obtain ⟨hi, hget⟩ := List.getElem?_eq_some_iff.mp (pieces_getElem h)
  have hstart : unitOffset instrs i = (((pieces instrs).map List.length).take i).sum := by
    rw [length_pieces, unitOffset, List.map_take]
  have hstop : (((pieces instrs).map List.length).take (i + 1)).sum =
      unitOffset instrs i + instrUnits ins := by
    rw [hstart, List.take_add_one, List.sum_append, List.getElem?_map, pieces_getElem h]
    simp [length_encoded]
  have hslice := List.drop_take_succ_flatten_eq_getElem (pieces instrs) i hi
  rw [hstop, ← hstart, List.drop_take, Nat.add_sub_cancel_left, hget] at hslice
  rw [mdAssemble_eq, hslice]

/-- Hence its units are found there. -/
theorem mdAssemble_getD {instrs : List DalvikInstr} {i j : ℕ} {ins : DalvikInstr}
    (h : instrs[i]? = some ins) (hj : j < instrUnits ins) :
    (mdAssemble instrs).getD (unitOffset instrs i + j) 0 = (encoded instrs ins i).getD j 0 := by
  rw [← mdAssemble_placed h, List.getD_eq_getElem?_getD, List.getD_eq_getElem?_getD,
    List.getElem?_take_of_lt hj, List.getElem?_drop]

/-! ## Displacements -/

/-- A valid branch operand is replaced by the offset of its target. -/
theorem resolveOp_valid {instrs : List DalvikInstr} {k target : ℕ} {ops : List (BitVec 64)}
    {idx : BitVec 64} (hop : ops[k]? = some idx) (hidx : idx.toInt = target)
    (htarget : target < instrs.length) :
    (resolveOp (offsets instrs 0) k ops).getD k 0 =
      (BitVec.ofNat 32 (unitOffset instrs target)).signExtend 64 := by
  have hk : k < ops.length := (List.getElem?_eq_some_iff.mp hop).1
  have hoff : (offsets instrs 0)[target]? =
      some (BitVec.ofNat 32 (unitOffset instrs target)) := by
    rw [← Nat.zero_add (unitOffset instrs target)]
    exact offsets_getElem instrs 0 target htarget
  have hvalid : 0 ≤ idx.toInt ∧ idx.toInt < (offsets instrs 0).length := by
    rw [length_offsets, hidx]
    omega
  have hnat : idx.toInt.toNat = target := by omega
  simp only [resolveOp, hop, if_pos hvalid, hnat, List.getD_eq_getElem?_getD, hoff,
    Option.getD_some, List.getElem?_set_self hk]

/-- The units of a branch hold the distance from its offset, narrowed to its format. -/
theorem displacement_mdEncode (ins : DalvikInstr) {entry : MdOp} {k : ℕ}
    (hlookup : mdOps.lookup ins.mnem = some entry) (hk : branchOperand entry.fmt = some k)
    (cur : BitVec 32) :
    displacement entry.fmt (unitsOf (mdEncode ins cur)) 0 =
      ((ins.ops.getD k 0 - cur.signExtend 64).setWidth (branchBits entry.fmt)).toInt := by
  rw [mdEncode, hlookup]
  dsimp only
  cases hfmt : entry.fmt with
  | f10t =>
    obtain rfl : 0 = k := by simpa [hfmt, branchOperand] using hk
    dsimp only [displacement, branchBits, putWord]
    rw [← List.append_nil (putU16 _), unitsOf_putU16, List.getD_cons_zero,
      BitWords.high_byte _ (toNat_op_lt hlookup), BitWords.setWidth_and_byte]
  | f20t =>
    obtain rfl : 0 = k := by simpa [hfmt, branchOperand] using hk
    dsimp only [displacement, branchBits]
    rw [unitsOf_putU16, ← List.append_nil (putS16 _), unitsOf_putS16, List.getD_cons_succ,
      List.getD_cons_zero]
  | f21t =>
    obtain rfl : 1 = k := by simpa [hfmt, branchOperand] using hk
    dsimp only [displacement, branchBits, putWord]
    rw [unitsOf_putU16, ← List.append_nil (putS16 _), unitsOf_putS16, List.getD_cons_succ,
      List.getD_cons_zero]
  | f22t =>
    obtain rfl : 2 = k := by simpa [hfmt, branchOperand] using hk
    dsimp only [displacement, branchBits, putWord]
    rw [unitsOf_putU16, ← List.append_nil (putS16 _), unitsOf_putS16, List.getD_cons_succ,
      List.getD_cons_zero]
  | f30t =>
    obtain rfl : 0 = k := by simpa [hfmt, branchOperand] using hk
    dsimp only [displacement, branchBits]
    rw [unitsOf_putU16, ← List.append_nil (putI32 _), unitsOf_putI32]
    simp only [List.getD_cons_succ, List.getD_cons_zero, BitWords.high_append_low]
  | _ => simp [hfmt, branchOperand] at hk

/-- In the whole program a branch is read at its offset as on its own. -/
theorem displacement_mdAssemble {instrs : List DalvikInstr} {i : ℕ} {ins : DalvikInstr}
    (hins : instrs[i]? = some ins) :
    displacement (fmtOf ins) (mdAssemble instrs) (unitOffset instrs i) =
      displacement (fmtOf ins) (encoded instrs ins i) 0 := by
  have hunits : mdUnits (fmtOf ins) ≤ instrUnits ins := by
    unfold fmtOf instrUnits
    cases mdOps.lookup ins.mnem with
    | none => decide
    | some entry => exact Nat.le_refl _
  have hread : ∀ j < mdUnits (fmtOf ins),
      (mdAssemble instrs).getD (unitOffset instrs i + j) 0 = (encoded instrs ins i).getD j 0 :=
    fun j hj => mdAssemble_getD hins (by omega)
  have hfirst : 0 < mdUnits (fmtOf ins) := by cases fmtOf ins <;> decide
  have hzero := hread 0 hfirst
  cases hfmt : fmtOf ins <;> rw [hfmt] at hread <;> dsimp only [displacement]
  case f10t => rw [← hzero, Nat.add_zero]
  case f20t => rw [hread 1 (by decide)]
  case f21t => rw [hread 1 (by decide)]
  case f22t => rw [hread 1 (by decide)]
  case f30t => rw [hread 1 (by decide), hread 2 (by decide)]

/-- The displacement stored for a branch is the distance to its target, reduced to the signed
range of its format. -/
theorem displacement_eq {instrs : List DalvikInstr} {i target : ℕ} {fmt : Fmt}
    (hbranch : IsBranch instrs i target fmt) (htarget : target < instrs.length) :
    displacement fmt (mdAssemble instrs) (unitOffset instrs i) =
      ((unitOffset instrs target : ℤ) - unitOffset instrs i).bmod (2 ^ branchBits fmt) := by
  obtain ⟨ins, k, idx, hins, rfl, hk, hop, hidx⟩ := hbranch
  have hbits : branchBits (fmtOf ins) ≤ 32 := by cases fmtOf ins <;> decide
  have hresolve : resolve (offsets instrs 0) ins =
      { ins with ops := resolveOp (offsets instrs 0) k ins.ops } := by
    simp only [resolve, hk]
  rw [displacement_mdAssemble hins, encoded, hresolve]
  cases hlookup : mdOps.lookup ins.mnem with
  | none =>
    rw [fmtOf, hlookup] at hk
    cases hk
  | some entry =>
    have hfmt : fmtOf ins = entry.fmt := by rw [fmtOf, hlookup]; rfl
    rw [hfmt] at hk hbits ⊢
    rw [displacement_mdEncode { ins with ops := resolveOp _ k ins.ops } hlookup hk,
      resolveOp_valid hop hidx htarget,
      BitWords.toInt_setWidth_sub hbits]

theorem isBranch_target_lt {instrs : List DalvikInstr} (hvalid : ValidBranches instrs)
    {i target : ℕ} {fmt : Fmt} (hbranch : IsBranch instrs i target fmt) :
    target < instrs.length := by
  obtain ⟨ins, k, idx, hins, rfl, hk, hop, hidx⟩ := hbranch
  obtain ⟨idx', hop', -, hlt⟩ := hvalid ins (List.mem_of_getElem? hins) k hk
  rw [hop, Option.some.injEq] at hop'
  subst hop'
  omega

theorem isBranch_bits_pos {instrs : List DalvikInstr} {i target : ℕ} {fmt : Fmt}
    (hbranch : IsBranch instrs i target fmt) : 0 < branchBits fmt := by
  obtain ⟨ins, k, idx, hins, hfmt, hk, -⟩ := hbranch
  cases fmt <;> first | decide | cases hk

/-- For a list whose branch operands are valid indices, every instruction is emitted at the sum of
the units before it, and every branch lands on its target if and only if every distance fits the
format of its branch. -/
theorem mdAssemble_lands_iff (instrs : List DalvikInstr) (hvalid : ValidBranches instrs) :
    Lands instrs ↔ InReach instrs := by
  have hkey : ∀ i target fmt, IsBranch instrs i target fmt →
      ((unitOffset instrs i + displacement fmt (mdAssemble instrs) (unitOffset instrs i) =
        unitOffset instrs target) ↔
      (-(2 ^ (branchBits fmt - 1) : ℤ) ≤ unitOffset instrs target - unitOffset instrs i ∧
        (unitOffset instrs target - unitOffset instrs i : ℤ) < 2 ^ (branchBits fmt - 1))) := by
    intro i target fmt hbranch
    rw [← BitWords.bmod_eq_self_iff (isBranch_bits_pos hbranch),
      displacement_eq hbranch (isBranch_target_lt hvalid hbranch)]
    omega
  constructor
  · intro hlands i target fmt hbranch
    exact (hkey i target fmt hbranch).mp (hlands.lands i target fmt hbranch)
  · intro hreach
    refine ⟨fun i ins hins => mdAssemble_placed hins, fun i target fmt hbranch => ?_⟩
    exact (hkey i target fmt hbranch).mpr (hreach i target fmt hbranch)

/-- A `goto` over `n` instructions of one unit, and the instruction it jumps to. -/
def jumpOver (n : ℕ) : List DalvikInstr :=
  ⟨"goto", [BitVec.ofNat 64 (n + 1)], []⟩ :: List.replicate n ⟨"nop", [], []⟩ ++
    [⟨"return-void", [], []⟩]

theorem fmtOf_goto (ops : List (BitVec 64)) : fmtOf ⟨"goto", ops, []⟩ = .f10t := by
  change ((mdOps.lookup "goto").map MdOp.fmt).getD .f10x = .f10t
  decide +kernel

theorem validBranches_jumpOver (n : ℕ) (hn : n + 1 < 2 ^ 63) : ValidBranches (jumpOver n) := by
  have hlength : (jumpOver n).length = n + 2 := by simp [jumpOver]
  have hidx : (BitVec.ofNat 64 (n + 1)).toInt = (n + 1 : ℕ) := by
    rw [BitVec.toInt_ofNat', Int.bmod_eq_of_le] <;> omega
  intro ins hins k hk
  simp only [jumpOver, List.cons_append, List.mem_cons, List.mem_append, List.mem_replicate,
    List.not_mem_nil, or_false] at hins
  rcases hins with rfl | ⟨-, rfl⟩ | rfl
  · rw [fmtOf_goto] at hk
    obtain rfl : 0 = k := by simpa [branchOperand] using hk
    refine ⟨BitVec.ofNat 64 (n + 1), rfl, ?_, ?_⟩
    · omega
    · rw [hidx, hlength]
      omega
  · rw [show fmtOf ⟨"nop", [], []⟩ = .f10x by decide +kernel] at hk
    cases hk
  · rw [show fmtOf ⟨"return-void", [], []⟩ = .f10x by decide +kernel] at hk
    cases hk

/-- A jump over two instructions satisfies the hypothesis. -/
theorem mdAssemble_lands_iff_jumpOver :
    ValidBranches (jumpOver 2) ∧ (Lands (jumpOver 2) ↔ InReach (jumpOver 2)) :=
  ⟨validBranches_jumpOver 2 (by decide),
    mdAssemble_lands_iff _ (validBranches_jumpOver 2 (by decide))⟩

/-- A `goto` whose target is 128 units ahead jumps 128 units back. -/
theorem goto_over_127_lands_back :
    ValidBranches (jumpOver 127) ∧ IsBranch (jumpOver 127) 0 128 .f10t ∧
      displacement .f10t (mdAssemble (jumpOver 127)) 0 = -128 ∧ ¬ Lands (jumpOver 127) := by
  have hbranch : IsBranch (jumpOver 127) 0 128 .f10t :=
    ⟨⟨"goto", [128], []⟩, 0, 128, rfl, fmtOf_goto _, rfl, rfl, rfl⟩
  have hback : displacement .f10t (mdAssemble (jumpOver 127)) 0 = -128 := by decide +kernel
  refine ⟨validBranches_jumpOver 127 (by decide), hbranch, hback, fun hlands => ?_⟩
  have hland := hlands.lands 0 128 .f10t hbranch
  rw [show unitOffset (jumpOver 127) 0 = 0 from rfl, hback] at hland
  omega

end Vardoger.Dex
