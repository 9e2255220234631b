import Vardoger.Dex.Branches
import Vardoger.Dex.Devirt

/-!
# Targets of lowered branches

The decoder repairs the targets of all instructions whose family looks like a branch, by a part of
its name, by its end or as a whole. The lowering makes branches of few families, which it knows by
their names. Every one of these was repaired before, and so the assembler finds its target.
-/

namespace Vardoger.Dex

/-- The operand with the target, for the branches that the lowering makes. -/
def targetOperand (mnem : String) : Option ℕ :=
  if mnem = "if-eq" then some 2
  else if mnem = "if-eqz" then some 1
  else if mnem = "goto" then some 0
  else none

/-- The target is an index into a list of length `n`, and not the index of the branch. -/
def InTurn (n i : ℕ) (t : ℤ) : Prop := 0 ≤ t ∧ t < n ∧ t ≠ i

/-! ## What the decoder leaves -/

/-- A branch has a target, or it is a `nop` without one. -/
theorem sanitize_target {n i : ℕ} (hn : n < 2 ^ 31) (d : VmInstr)
    (hbranch : isIf (sanitize n i d).family ∨ isGoto (sanitize n i d).family) :
    (∃ t ∈ (sanitize n i d).target, InTurn n i t.toInt) ∨
      (sanitize n i d).target = none ∧ isIf (sanitize n i d).family = false := by
  unfold sanitize at hbranch ⊢
  split_ifs at hbranch ⊢ with hother htarget hif
  · rw [Bool.not_eq_true', Bool.or_eq_false_iff] at hother
    rw [hother.1, hother.2] at hbranch
    simp at hbranch
  · exact .inl htarget
  · refine .inl ⟨_, rfl, ?_⟩
    have hvalue : (BitVec.ofNat 32 (i + 1)).toInt = i + 1 := by
      rw [BitVec.toInt_ofNat', Int.bmod_eq_of_le (by omega) (by omega)]
      norm_cast
    rw [hvalue]
    exact ⟨by omega, by exact_mod_cast hif.2, by omega⟩
  · exact .inr ⟨rfl, show isIf "nop" = false by decide +kernel⟩

theorem op_decodeOperands (hi : BitVec 32) (d : VmInstr) : (decodeOperands hi d).op = d.op := by
  simp only [decodeOperands]
  split_ifs <;> rfl

theorem op_sanitize (n i : ℕ) (d : VmInstr) : (sanitize n i d).op = d.op := by
  unfold sanitize
  split_ifs <;> rfl

/-- There is one instruction for each row, in order. -/
theorem op_mdDecodeMethod (dlv : List RawDlv) (cls : BitVec 16 → Option String) :
    (mdDecodeMethod dlv cls).map VmInstr.op =
      (dlv.filter fun s => s.op ≠ 0xffff).map RawDlv.op := by
  set real := dlv.filter fun s => s.op ≠ 0xffff
  have hdec : mdDecodeMethod dlv cls = ((real.map (decodeRow real cls)).zipIdx).map
      fun d => sanitize (real.map (decodeRow real cls)).length d.2 d.1 := rfl
  have hsanitize : ∀ n, VmInstr.op ∘ (fun d : VmInstr × ℕ => sanitize n d.2 d.1) =
      VmInstr.op ∘ Prod.fst := fun n => funext fun d => op_sanitize n d.2 d.1
  have hrow : VmInstr.op ∘ decodeRow real cls = RawDlv.op :=
    funext fun s => op_decodeOperands _ _
  rw [hdec, List.map_map, hsanitize, ← List.map_map, List.zipIdx_map_fst, List.map_map, hrow]

theorem exists_sanitize {dlv : List RawDlv} {cls : BitVec 16 → Option String} {i : ℕ}
    {vm : VmInstr} (h : (mdDecodeMethod dlv cls)[i]? = some vm) :
    ∃ d, vm = sanitize (mdDecodeMethod dlv cls).length i d := by
  set real := dlv.filter fun s => s.op ≠ 0xffff
  have hlength : (mdDecodeMethod dlv cls).length = (real.map (decodeRow real cls)).length := by
    simp [mdDecodeMethod, real]
  rw [hlength]
  simp only [mdDecodeMethod, List.getElem?_map, List.getElem?_zipIdx, Option.map_map,
    zero_add] at h
  obtain ⟨d, -, hd⟩ := Option.map_eq_some_iff.mp h
  exact ⟨_, hd.symm⟩

/-! ## What the lowering makes of it -/

theorem targetOperand_aluForm {ins : VmInstr} {d : DalvikInstr} (h : aluForm ins = some d) :
    targetOperand d.mnem = none := by
  have htable : ∀ p ∈ mdAlu, targetOperand p.2 = none ∧ targetOperand (p.2 ++ "/2addr") = none := by
    decide +kernel
  unfold aluForm at h
  cases hmn : mdAlu.lookup (famBase ins.family) with
  | none =>
    rw [hmn] at h
    exact absurd h (by simp)
  | some mn =>
    obtain ⟨before, after, hmem, -⟩ := List.lookup_eq_some_iff.mp hmn
    have hnone := htable (famBase ins.family, mn) (by rw [hmem]; simp)
    simp only [hmn] at h
    split_ifs at h <;> cases h
    · exact hnone.2
    · exact hnone.1
    · exact hnone.2

theorem targetOperand_refForm {ins : VmInstr} {d : DalvikInstr} (h : refForm ins = some d) :
    targetOperand d.mnem = none := by
  unfold refForm at h
  split at h <;> cases h <;> simp [targetOperand]

theorem targetOperand_constForm (reg lit : BitVec 64) :
    targetOperand (constForm reg lit).mnem = none := by
  unfold constForm
  split_ifs <;> simp [targetOperand]

/-- If the lowering of an instruction is a branch, then its target is the one of the instruction,
and its family is one that the decoder repairs. -/
def Repaired (ins : VmInstr) (d : DalvikInstr) : Prop :=
  ∀ k, targetOperand d.mnem = some k →
    d.ops[k]? = some ((ins.target.getD 0).signExtend 64) ∧
      (isIf ins.family ∨ isGoto ins.family ∧ ins.target.isSome)

theorem Repaired.of_none {ins : VmInstr} {d : DalvikInstr} (h : targetOperand d.mnem = none) :
    Repaired ins d := by
  intro k hk
  rw [h] at hk
  exact absurd hk (by simp)

theorem Repaired.ite {ins : VmInstr} {c : Prop} [Decidable c] {a b : DalvikInstr}
    (ha : c → Repaired ins a) (hb : Repaired ins b) : Repaired ins (if c then a else b) := by
  by_cases hc : c
  · rw [if_pos hc]
    exact ha hc
  · rwa [if_neg hc]

theorem repaired_otherForm (ins : VmInstr) : Repaired ins (otherForm ins) := by
  have hnames : isIf "if-cmp" ∧ isIf "if-testz" ∧ isIf "if-testz/return" ∧
      isGoto "nop/goto" ∧ isGoto "nop" := by decide +kernel
  obtain ⟨hcmp, htestz, hreturn, hgoto, hnop⟩ := hnames
  have hplain : ∀ mnem regs ops, targetOperand mnem = none → Repaired ins ⟨mnem, regs, ops⟩ :=
    fun _ _ _ h => .of_none h
  -- all but three of the source's branches make no branch instruction
  apply Repaired.ite fun _ => hplain _ _ _ (by simp [targetOperand])
  apply Repaired.ite fun _ => hplain _ _ _ (by simp [targetOperand])
  apply Repaired.ite fun _ => hplain _ _ _ (by simp [targetOperand])
  apply Repaired.ite fun _ => hplain _ _ _ (by simp [targetOperand])
  apply Repaired.ite fun _ => .of_none (targetOperand_constForm _ _)
  apply Repaired.ite fun _ => hplain _ _ _ (by simp [targetOperand])
  apply Repaired.ite
  · intro href
    obtain ⟨d, hd⟩ := Option.isSome_iff_exists.mp href.2
    rw [hd]
    exact .of_none (targetOperand_refForm hd)
  apply Repaired.ite
  · rintro ⟨hfam, -⟩ k ⟨⟩
    exact ⟨rfl, .inl (hfam ▸ hcmp)⟩
  apply Repaired.ite
  · rintro ⟨hfam | hfam, -⟩ k ⟨⟩
    · exact ⟨rfl, .inl (hfam ▸ htestz)⟩
    · exact ⟨rfl, .inl (hfam ▸ hreturn)⟩
  apply Repaired.ite fun _ => hplain _ _ _ (by simp [targetOperand])
  apply Repaired.ite
  · intro hfam
    apply Repaired.ite _ (hplain _ _ _ (by simp [targetOperand]))
    rintro htarget k ⟨⟩
    rcases hfam with hfam | hfam
    · exact ⟨rfl, .inr ⟨hfam ▸ hgoto, htarget⟩⟩
    · exact ⟨rfl, .inr ⟨hfam ▸ hnop, htarget⟩⟩
  apply Repaired.ite _ (hplain _ _ _ (by simp [targetOperand]))
  intro _
  apply Repaired.ite fun _ => hplain _ _ _ (by simp [targetOperand])
  exact hplain _ _ _ (by simp [targetOperand])

theorem repaired_mdToDalvik (ins : VmInstr) : Repaired ins (mdToDalvik ins) := by
  rw [mdToDalvik]
  cases halu : aluForm ins with
  | some d => exact .of_none (targetOperand_aluForm halu)
  | none => exact repaired_otherForm ins

/-- Every branch that is made of a decoded method has a target in the method, other than itself. -/
theorem branch_targets_sanitized (dlv : List RawDlv) (cls : BitVec 16 → Option String)
    (hn : dlv.length < 2 ^ 31) :
    (mdDecodeMethod dlv cls).map VmInstr.op =
        (dlv.filter fun s => s.op ≠ 0xffff).map RawDlv.op ∧
      ∀ (i : ℕ) vm k, (mdDecodeMethod dlv cls)[i]? = some vm →
        targetOperand (mdToDalvik vm).mnem = some k →
          ∃ t, (mdToDalvik vm).ops[k]? = some t ∧
            InTurn (mdDecodeMethod dlv cls).length i t.toInt := by
  have hops := op_mdDecodeMethod dlv cls
  refine ⟨hops, fun i vm k hvm hk => ?_⟩
  have hlength : (mdDecodeMethod dlv cls).length < 2 ^ 31 := by
    have hcount := congrArg List.length hops
    rw [List.length_map, List.length_map] at hcount
    rw [hcount]
    exact (List.length_filter_le _ _).trans_lt hn
  obtain ⟨d, rfl⟩ := exists_sanitize hvm
  obtain ⟨hop, hfam⟩ := repaired_mdToDalvik _ k hk
  have hbranch := sanitize_target hlength d (hfam.imp_right And.left)
  rcases hbranch with ⟨t, ht, hturn⟩ | ⟨hnone, hif⟩
  · rw [Option.mem_def.mp ht, Option.getD_some] at hop
    refine ⟨_, hop, ?_⟩
    rwa [BitVec.toInt_signExtend_of_le (by decide)]
  · rw [hif, hnone] at hfam
    simp at hfam

/-- A row that branches to itself is lowered to a branch to the next one. -/
theorem branch_targets_sanitized_self :
    ∃ t, (mdToDalvik { op := 1, family := "if-cmp", vregs := [0, 0], target := some 1 }).ops[2]? =
        some t ∧
      InTurn (mdDecodeMethod [{ p := 0, op := 1, raw := 0, tgt := some 0 },
        { p := 4, op := 2, raw := 0 }] fun _ => some "if-cmp").length 0 t.toInt := by
  have hrow : decodeRow
      [{ p := 0, op := 1, raw := 0, tgt := some 0 }, { p := 4, op := 2, raw := 0 }]
      (fun _ => some "if-cmp") { p := 0, op := 1, raw := 0, tgt := some 0 } =
        { op := 1, family := "if-cmp", vregs := [0, 0], target := some 0 } := by
    decide +kernel
  have hrepaired : sanitize 2 0 { op := 1, family := "if-cmp", vregs := [0, 0], target := some 0 } =
      { op := 1, family := "if-cmp", vregs := [0, 0], target := some 1 } := by
    rw [sanitize, if_neg (by decide +kernel), if_neg (by simp), if_pos (by decide +kernel)]
    rfl
  refine (branch_targets_sanitized _ _ (by decide)).2 0 _ 2 ?_ (by decide +kernel)
  rw [← hrepaired, ← hrow]
  rfl

/-! ## What the assembler leaves -/

/-- Every branch of a lowered method has a target other than itself, and the displacement among its
units is the distance to the target, cut to the width of its format. -/
def Assembled (instrs : List DalvikInstr) : Prop :=
  ∀ (i : ℕ) ins k, instrs[i]? = some ins → targetOperand ins.mnem = some k →
    ∃ target < instrs.length, target ≠ i ∧ IsBranch instrs i target (fmtOf ins) ∧
      displacement (fmtOf ins) (mdAssemble instrs) (unitOffset instrs i) =
        ((unitOffset instrs target : ℤ) - unitOffset instrs i).bmod (2 ^ branchBits (fmtOf ins))

theorem branchOperand_of_target {ins : DalvikInstr} {k : ℕ} (hk : targetOperand ins.mnem = some k) :
    branchOperand (fmtOf ins) = some k := by
  unfold targetOperand at hk
  rw [fmtOf]
  split_ifs at hk with h h h <;> cases hk <;> rw [h] <;> decide +kernel

/-- From the log to the units. -/
theorem assembled_mdDecodeMethod (dlv : List RawDlv) (cls : BitVec 16 → Option String)
    (hn : dlv.length < 2 ^ 31) : Assembled ((mdDecodeMethod dlv cls).map mdToDalvik) := by
  intro i ins k hins hk
  obtain ⟨vm, hvm, rfl⟩ := Option.map_eq_some_iff.mp (List.getElem?_map ▸ hins)
  have hlength : (mdDecodeMethod dlv cls).length < 2 ^ 31 := by
    have hcount := congrArg List.length (op_mdDecodeMethod dlv cls)
    rw [List.length_map, List.length_map] at hcount
    exact hcount ▸ (List.length_filter_le _ _).trans_lt hn
  obtain ⟨d, rfl⟩ := exists_sanitize hvm
  obtain ⟨hop, hfam⟩ := repaired_mdToDalvik _ k hk
  rcases sanitize_target hlength d (hfam.imp_right And.left) with ⟨t, ht, h0, hlt, hne⟩ | ⟨ht, hif⟩
  · rw [Option.mem_def.mp ht, Option.getD_some] at hop
    obtain ⟨target, htarget⟩ := Int.eq_ofNat_of_zero_le h0
    have hvalue : (t.signExtend 64).toInt = target := by
      rw [BitVec.toInt_signExtend_of_le (by decide), htarget]
    have hbranch := (⟨_, k, _, hins, rfl, branchOperand_of_target hk, hop, hvalue⟩ :
      IsBranch _ i target _)
    have hin : target < ((mdDecodeMethod dlv cls).map mdToDalvik).length := by
      rw [List.length_map]
      omega
    exact ⟨target, hin, by omega, hbranch, displacement_eq hbranch hin⟩
  · simp [ht, hif] at hfam

/-- A branch to itself, and a row behind it. -/
theorem assembled_self_branch :
    Assembled ((mdDecodeMethod [{ p := 0, op := 1, raw := 0, tgt := some 0 },
      { p := 4, op := 2, raw := 0 }] fun _ => some "if-cmp").map mdToDalvik) :=
  assembled_mdDecodeMethod _ _ (by decide)

end Vardoger.Dex
