import Vardoger.Dex.OpMap
import Mathlib.Data.Multiset.Fold

/-!
# The family map and the order of the log

`build_op_family` takes the families of the `OPMAP` rows of a text, unless one family takes up too
many of them, or else those of the `MICROVM` rows, and adds what the records of the log show. With
the `MICROVM` rows the records are collected by opcode first, so their order does not matter. With
the `OPMAP` rows the first record of an opcode that has a branch target decides.
-/

namespace Vardoger.Dex

/-! ## What the records show -/

/-- What the records of an opcode show together. -/
structure Agg where
  branch : Bool := false
  hasPool : Bool := false
  hasWrite : Bool := false
  readCounts : Multiset ℕ := 0
  fitTotal : ℕ := 0
  fitAdd : ℕ := 0
  fitSub : ℕ := 0
  fitAnd : ℕ := 0
  fitOr : ℕ := 0
  fitXor : ℕ := 0
  rwMove : ℕ := 0

/-- Does the written value come from the two values read by an operation? -/
def RawDlv.fits (r : RawDlv) (f : BitVec 64 → BitVec 64 → BitVec 64) : Bool :=
  match r.reads, r.writes with
  | a :: b :: _, w :: _ => w.val = f a.val b.val
  | _, _ => false

/-- Add a record. -/
def Agg.add (a : Agg) (r : RawDlv) : Agg where
  branch := a.branch || r.tgt.isSome
  hasPool := a.hasPool || r.pool.isSome || r.hasFetch
  hasWrite := a.hasWrite || r.writes ≠ []
  readCounts := r.reads.length ::ₘ a.readCounts
  fitTotal := a.fitTotal + (decide (r.reads.length ≥ 2 ∧ r.writes.length ≥ 1)).toNat
  fitAdd := a.fitAdd + (r.fits (· + ·)).toNat
  fitSub := a.fitSub + (r.fits (· - ·)).toNat
  fitAnd := a.fitAnd + (r.fits (· &&& ·)).toNat
  fitOr := a.fitOr + (r.fits (· ||| ·)).toNat
  fitXor := a.fitXor + (r.fits (· ^^^ ·)).toNat
  rwMove := a.rwMove + (decide (r.reads.length = 1 ∧ r.writes.length = 1)).toNat

/-- The records of each opcode; those with the opcode `0xffff` are skipped. -/
def aggregate (all : List RawDlv) : OpMap Agg :=
  all.foldl (fun agg r =>
    if r.op = 0xffff then agg else agg.alter r.op fun a => some ((a.getD {}).add r)) ∅

/-- The family of a branch that reads so many registers. -/
def branchFamily (reads : ℕ) : String := if reads ≥ 2 then "if-cmp" else "if-testz"

/-- The family of an opcode without a row, from the values of its records. -/
def Agg.fallback (a : Agg) : String :=
  if a.hasPool then if a.hasWrite then "invoke" else "ref-op"
  else if a.fitTotal ≥ 2 then
    if a.fitAdd = a.fitTotal then "add"
    else if a.fitSub = a.fitTotal then "sub"
    else if a.fitAnd = a.fitTotal then "and"
    else if a.fitOr = a.fitTotal then "orr"
    else if a.fitXor = a.fitTotal then "eor"
    else "binary-int"
  else if a.rwMove > 0 then "move"
  else if a.hasWrite then "const"
  else "nop/goto"

/-- Add what the records show to the family of an opcode. A branch counts where there is no
confident family. -/
def Agg.merge (row : Option String) (a : Agg) : String :=
  if a.branch ∧ (row = none ∨ row = some "nop/goto") then
    branchFamily (a.readCounts.fold max 0)
  else row.getD a.fallback

/-! ## The map -/

/-- One family takes up more than 60 percent of the map. -/
def degenerate (opmap : OpMap String) : Bool :=
  let families := opmap.toList.map Prod.snd
  families.any fun fam => 5 * families.count fam > 3 * opmap.size

/-- The families of the `OPMAP` rows, none if they are degenerate. -/
def usableOpmap (text : List Char) : OpMap String :=
  let opmap := parseOpmap text
  if degenerate opmap then ∅ else opmap

/-- The map has no confident family for the opcode. -/
def Unsure (opmap : OpMap String) (op : BitVec 16) : Prop :=
  opmap[op]? = none ∨ opmap[op]? = some "nop/goto"

instance (opmap : OpMap String) (op : BitVec 16) : Decidable (Unsure opmap op) :=
  inferInstanceAs (Decidable (_ ∨ _))

/-- The record shows that its opcode branches. -/
def RawDlv.signals (r : RawDlv) (op : BitVec 16) : Bool :=
  r.op = op && op ≠ 0xffff && r.tgt.isSome

/-- Add the branch of a record to the families of the `OPMAP` rows. -/
def addBranch (opmap : OpMap String) (r : RawDlv) : OpMap String :=
  if r.signals r.op ∧ Unsure opmap r.op then opmap.insert r.op (branchFamily r.reads.length)
  else opmap

def buildOpFamily (all : List RawDlv) (text : List Char) : OpMap String :=
  let opmap := usableOpmap text
  if !opmap.isEmpty then all.foldl addBranch opmap
  else
    (aggregate all).foldl (fun out op a => out.insert op (a.merge out[op]?))
      (mdClassify (mdParseStatic text))

/-! ## The order of the records -/

theorem Agg.add_right_comm (a : Agg) (r r' : RawDlv) : (a.add r).add r' = (a.add r').add r := by
  simp only [Agg.add, Agg.mk.injEq]
  refine ⟨Bool.or_right_comm .., ?_, Bool.or_right_comm .., Multiset.cons_swap .., ?_⟩
  · simp only [Bool.or_assoc]
    rw [← Bool.or_assoc r.pool.isSome, Bool.or_comm (r.pool.isSome || r.hasFetch), Bool.or_assoc]
  · simp only [Nat.add_right_comm, and_self]

/-- The records are collected in any order. -/
theorem aggregate_perm {all all' : List RawDlv} (h : all.Perm all') :
    aggregate all = aggregate all' := by
  apply h.foldl_eq'
  intro r _ r' _ agg
  by_cases hr : r.op = 0xffff
  · simp only [if_pos hr]
  by_cases hr' : r'.op = 0xffff
  · simp only [if_pos hr']
  simp only [if_neg hr, if_neg hr']
  apply Std.ExtTreeMap.ext_getElem?
  intro op
  simp only [Std.ExtTreeMap.getElem?_alter, Std.LawfulEqCmp.compare_eq_iff_eq]
  by_cases heq : r.op = r'.op
  · by_cases hop : r'.op = op
    · simp only [heq, hop, if_true, Option.getD_some, Agg.add_right_comm _ r r']
    · simp only [heq, if_neg hop]
  · have hne : ¬r'.op = r.op := fun h => heq h.symm
    simp only [if_neg heq, if_neg hne]
    by_cases hop : r.op = op
    · rw [if_neg (by rw [← hop]; exact hne), if_pos hop, if_pos hop]
    · rw [if_neg hop, if_neg hop]

theorem branchFamily_ne (reads : ℕ) : branchFamily reads ≠ "nop/goto" := by
  unfold branchFamily
  split
  · decide
  · decide

/-- A record of another opcode, or without a branch target, leaves the family of an opcode. -/
theorem getElem?_addBranch_of_not_signals {opmap : OpMap String} {r : RawDlv} {op : BitVec 16}
    (h : ¬r.signals op = true) : (addBranch opmap r)[op]? = opmap[op]? := by
  unfold addBranch
  split
  next hadds =>
    have hne : ¬r.op = op := fun hop => h (hop ▸ hadds.1)
    rw [Std.ExtTreeMap.getElem?_insert, if_neg (by rwa [Std.LawfulEqCmp.compare_eq_iff_eq])]
  · rfl

/-- The first record that shows a branch decides, where the map is unsure. -/
theorem getElem?_addBranches (all : List RawDlv) (opmap : OpMap String) (op : BitVec 16) :
    (all.foldl addBranch opmap)[op]? =
      if Unsure opmap op then
        ((all.find? (·.signals op)).map fun r => branchFamily r.reads.length).or opmap[op]?
      else opmap[op]? := by
  induction all generalizing opmap with
  | nil => simp
  | cons r all ih =>
    rw [List.foldl_cons, ih, List.find?_cons]
    by_cases hsignals : r.signals op = true
    · rw [hsignals]
      have hop : r.op = op := by simp only [RawDlv.signals, Bool.and_eq_true] at hsignals; simp_all
      subst hop
      by_cases hunsure : Unsure opmap r.op
      · have hadd : (addBranch opmap r)[r.op]? = some (branchFamily r.reads.length) := by
          rw [addBranch, if_pos ⟨hsignals, hunsure⟩, Std.ExtTreeMap.getElem?_insert_self]
        have hsure : ¬Unsure (addBranch opmap r) r.op := by
          rw [Unsure, hadd]
          rintro (hnone | hgoto)
          · cases hnone
          · exact branchFamily_ne _ (Option.some.inj hgoto)
        rw [if_neg hsure, if_pos hunsure, hadd]
        rfl
      · have hadd : addBranch opmap r = opmap := if_neg fun h => hunsure h.2
        rw [hadd, if_neg hunsure, if_neg hunsure]
    · rw [Bool.eq_false_iff.mpr hsignals]
      have hsame : (addBranch opmap r)[op]? = opmap[op]? :=
        getElem?_addBranch_of_not_signals hsignals
      have hunsure : Unsure (addBranch opmap r) op ↔ Unsure opmap op := by
        rw [Unsure, Unsure, hsame]
      rw [hsame, if_congr hunsure rfl rfl]

/-- The records agree on the family of every opcode for which the map is unsure. -/
def Agree (opmap : OpMap String) (all : List RawDlv) : Prop :=
  ∀ op, Unsure opmap op → ∀ r ∈ all, ∀ r' ∈ all, r.signals op = true → r'.signals op = true →
    (r.reads.length ≥ 2 ↔ r'.reads.length ≥ 2)

theorem branchFamily_eq_iff {n n' : ℕ} :
    branchFamily n = branchFamily n' ↔ (n ≥ 2 ↔ n' ≥ 2) := by
  unfold branchFamily
  by_cases h : n ≥ 2
  · by_cases h' : n' ≥ 2
    · simp [h, h']
    · simp [h, h']
  · by_cases h' : n' ≥ 2
    · simp [h, h']
    · simp [h, h']

/-- Records that agree can be added in any order. -/
theorem Agree.addBranches_perm {opmap : OpMap String} {all all' : List RawDlv}
    (h : Agree opmap all) (hperm : all.Perm all') :
    all.foldl addBranch opmap = all'.foldl addBranch opmap := by
  apply Std.ExtTreeMap.ext_getElem?
  intro op
  rw [getElem?_addBranches, getElem?_addBranches]
  split
  next hunsure =>
    congr 1
    cases hfind : all.find? (·.signals op) with
    | none =>
      have hnone : all'.find? (·.signals op) = none := by
        rw [List.find?_eq_none] at hfind ⊢
        exact fun r hr => hfind r (hperm.mem_iff.mpr hr)
      rw [hnone]
    | some r =>
      have hr := List.mem_of_find?_eq_some hfind
      have hsignals := List.find?_some hfind
      cases hfind' : all'.find? (·.signals op) with
      | none =>
        exact absurd hsignals (List.find?_eq_none.mp hfind' r (hperm.mem_iff.mp hr))
      | some r' =>
        have hr' := hperm.mem_iff.mpr (List.mem_of_find?_eq_some hfind')
        have hsignals' := List.find?_some (p := fun r : RawDlv => r.signals op) hfind'
        have hagree := h op hunsure r hr r' hr' hsignals hsignals'
        simp only [Option.map_some, branchFamily_eq_iff.mpr hagree]
  · rfl

/-- A record that comes first decides. -/
theorem addBranches_cons {opmap : OpMap String} {op : BitVec 16} {r : RawDlv} (all : List RawDlv)
    (hunsure : Unsure opmap op) (hsignals : r.signals op = true) :
    ((r :: all).foldl addBranch opmap)[op]? = some (branchFamily r.reads.length) := by
  rw [getElem?_addBranches, if_pos hunsure, List.find?_cons, hsignals]
  rfl

/-- For every text and every list of records, the map is the same for every order of the records, if
and only if no two records with a branch target disagree on an opcode for which usable `OPMAP` rows
give no family or `nop/goto`. -/
theorem buildOpFamily_perm_iff (all : List RawDlv) (text : List Char) :
    (∀ all', all.Perm all' → buildOpFamily all' text = buildOpFamily all text) ↔
      (usableOpmap text).isEmpty = true ∨ Agree (usableOpmap text) all := by
  constructor
  · intro h
    by_contra hnot
    obtain ⟨husable, hdisagree⟩ := not_or.mp hnot
    apply hdisagree
    intro op hunsure r hr r' hr' hsignals hsignals'
    have hbuild (all' : List RawDlv) :
        buildOpFamily all' text = all'.foldl addBranch (usableOpmap text) := by
      simp only [buildOpFamily, husable, Bool.not_false, if_true]
    have hfirst := h _ (List.perm_cons_erase hr)
    have hfirst' := h _ (List.perm_cons_erase hr')
    rw [hbuild] at hfirst hfirst'
    have hsame := congrArg (·[op]?) (hfirst.trans hfirst'.symm)
    simp only [addBranches_cons _ hunsure hsignals, addBranches_cons _ hunsure hsignals'] at hsame
    exact branchFamily_eq_iff.mp (Option.some.inj hsame)
  · rintro (hempty | hagree) all' hperm
    · simp only [buildOpFamily, hempty, Bool.not_true, Bool.false_eq_true, if_false,
        aggregate_perm hperm]
    · by_cases hempty : (usableOpmap text).isEmpty = true
      · simp only [buildOpFamily, hempty, Bool.not_true, Bool.false_eq_true, if_false,
          aggregate_perm hperm]
      · simp only [buildOpFamily, hempty, Bool.not_false, if_true]
        exact (hagree.addBranches_perm hperm).symm

/-- Two records of one opcode, of which the first reads two registers and the second one. -/
def oneBranch : List RawDlv :=
  [{ p := 0, op := 1, raw := 0, tgt := some 2, reads := [⟨0, 0⟩, ⟨1, 0⟩] },
    { p := 1, op := 1, raw := 0, tgt := some 3, reads := [⟨0, 0⟩] }]

/-- With two `OPMAP` rows, the family of an opcode without a row depends on which of its records
comes first. -/
theorem buildOpFamily_depends_on_order :
    let text := "OPMAP op=0x2 family=add\nOPMAP op=0x3 family=sub".toList
    (buildOpFamily oneBranch text)[(1 : BitVec 16)]? = some "if-cmp" ∧
      (buildOpFamily oneBranch.reverse text)[(1 : BitVec 16)]? = some "if-testz" := by
  decide +kernel

/-! ## Confident families -/

/-- The families that come from the text alone: those of usable `OPMAP` rows, or else those of the
`MICROVM` rows. -/
def staticMap (text : List Char) : OpMap String :=
  if !(usableOpmap text).isEmpty then usableOpmap text else mdClassify (mdParseStatic text)

theorem RawDlv.signals_self {r : RawDlv} (h : r.op ≠ 0xffff) : r.signals r.op = r.tgt.isSome := by
  have hop : decide (r.op ≠ 0xffff) = true := decide_eq_true h
  rw [RawDlv.signals, hop, decide_eq_true rfl, Bool.true_and, Bool.true_and]

/-- An opcode counts as a branch when one of its records shows it. -/
theorem any_branch_aggregate (all : List RawDlv) (op : BitVec 16) :
    (aggregate all)[op]?.any Agg.branch = all.any (·.signals op) := by
  have hfold (agg : OpMap Agg) :
      (all.foldl (fun agg r => if r.op = 0xffff then agg
        else agg.alter r.op fun a => some ((a.getD {}).add r)) agg)[op]?.any Agg.branch =
      (agg[op]?.any Agg.branch || all.any (·.signals op)) := by
    induction all generalizing agg with
    | nil => simp
    | cons r all ih =>
      rw [List.foldl_cons, ih, List.any_cons, ← Bool.or_assoc]
      congr 1
      by_cases hskip : r.op = 0xffff
      · have hquiet : r.signals op = false := by
          by_cases hop : r.op = op
          · simp [RawDlv.signals, ← hop, hskip]
          · simp [RawDlv.signals, hop]
        rw [if_pos hskip, hquiet, Bool.or_false]
      · rw [if_neg hskip, Std.ExtTreeMap.getElem?_alter]
        by_cases hop : r.op = op
        · subst hop
          rw [if_pos (Std.LawfulEqCmp.compare_eq_iff_eq.mpr rfl), RawDlv.signals_self hskip]
          cases agg[r.op]? with
          | none => simp [Agg.add]
          | some a => simp [Agg.add]
        · have hquiet : r.signals op = false := by simp [RawDlv.signals, hop]
          rw [if_neg (by rwa [Std.LawfulEqCmp.compare_eq_iff_eq]), hquiet, Bool.or_false]
  simpa [aggregate] using hfold ∅

/-- Adding collected records changes the family of an opcode once, from the row it had. -/
theorem getElem?_foldl_merge {records : List (BitVec 16 × Agg)}
    (hdistinct : records.Pairwise fun r r' => ¬compare r.1 r'.1 = .eq) (base : OpMap String)
    (op : BitVec 16) :
    (records.foldl (fun out r => out.insert r.1 (r.2.merge out[r.1]?)) base)[op]? =
      ((records.find? (·.1 = op)).map fun r => r.2.merge base[op]?).or base[op]? := by
  induction records generalizing base with
  | nil => simp
  | cons r records ih =>
    obtain ⟨hr, hrest⟩ := List.pairwise_cons.mp hdistinct
    rw [List.foldl_cons, ih hrest, List.find?_cons]
    by_cases hop : r.1 = op
    · have hnone : records.find? (·.1 = op) = none := by
        rw [List.find?_eq_none]
        intro r' hr'
        have hne := hr r' hr'
        rw [Std.LawfulEqCmp.compare_eq_iff_eq, hop] at hne
        simpa using Ne.symm hne
      simp [hnone, hop]
    · have hkeep : (base.insert r.1 (r.2.merge base[r.1]?))[op]? = base[op]? := by
        rw [Std.ExtTreeMap.getElem?_insert, if_neg (by rwa [Std.LawfulEqCmp.compare_eq_iff_eq])]
      simp [hkeep, hop]

/-- The family of an opcode behind the `MICROVM` rows. -/
theorem getElem?_foldl_aggregate (agg : OpMap Agg) (base : OpMap String) (op : BitVec 16) :
    (agg.foldl (fun out op a => out.insert op (a.merge out[op]?)) base)[op]? =
      (agg[op]?.map fun a => a.merge base[op]?).or base[op]? := by
  rw [Std.ExtTreeMap.foldl_eq_foldl_toList,
    getElem?_foldl_merge Std.ExtTreeMap.distinct_keys_toList]
  cases hfind : agg.toList.find? (·.1 = op) with
  | none =>
    have hnone : agg[op]? = none := by
      rw [List.find?_eq_none] at hfind
      cases hagg : agg[op]? with
      | none => rfl
      | some a =>
        have hmem := Std.ExtTreeMap.mem_toList_iff_getElem?_eq_some.mpr hagg
        simpa using hfind _ hmem
    rw [hnone]
    rfl
  | some r =>
    have hop : r.1 = op := by simpa using List.find?_some hfind
    have hagg : agg[op]? = some r.2 := by
      rw [← Std.ExtTreeMap.mem_toList_iff_getElem?_eq_some, ← hop]
      exact List.mem_of_find?_eq_some hfind
    rw [hagg]
    rfl

theorem branchFamily_cases (reads : ℕ) :
    branchFamily reads = "if-cmp" ∨ branchFamily reads = "if-testz" := by
  unfold branchFamily
  split
  · exact Or.inl rfl
  · exact Or.inr rfl

/-- A confident family of the text is the family of the result. -/
theorem getElem?_buildOpFamily_of_sure {all : List RawDlv} {text : List Char} {op : BitVec 16}
    (hsure : ¬Unsure (staticMap text) op) :
    (buildOpFamily all text)[op]? = (staticMap text)[op]? := by
  unfold staticMap at hsure ⊢
  unfold buildOpFamily
  split at hsure
  next husable =>
    rw [if_pos husable, if_pos husable, getElem?_addBranches, if_neg hsure]
  next hempty =>
    rw [if_neg hempty, if_neg hempty, getElem?_foldl_aggregate]
    obtain ⟨hrow, hgoto⟩ := not_or.mp hsure
    obtain ⟨family, hfamily⟩ := Option.ne_none_iff_exists'.mp hrow
    rw [hfamily] at hgoto ⊢
    cases (aggregate all)[op]? with
    | none => rfl
    | some a =>
      have hkept : ¬(a.branch = true ∧ (some family = none ∨ some family = some "nop/goto")) := by
        rintro ⟨_, hnone | hsome⟩
        · cases hnone
        · exact hgoto hsome
      exact congrArg some (if_neg hkept)

/-- An observed branch gives an opcode without a confident family the family of a branch. -/
theorem getElem?_buildOpFamily_of_unsure {all : List RawDlv} {text : List Char} {op : BitVec 16}
    (hunsure : Unsure (staticMap text) op) (hbranch : all.any (·.signals op) = true) :
    ∃ reads, (buildOpFamily all text)[op]? = some (branchFamily reads) := by
  unfold staticMap at hunsure
  unfold buildOpFamily
  split at hunsure
  next husable =>
    rw [if_pos husable, getElem?_addBranches, if_pos hunsure]
    cases hfind : all.find? (·.signals op) with
    | none =>
      obtain ⟨r, hr, hsignals⟩ := List.any_eq_true.mp hbranch
      exact absurd hsignals (List.find?_eq_none.mp hfind r hr)
    | some r => exact ⟨r.reads.length, rfl⟩
  next hempty =>
    rw [if_neg hempty, getElem?_foldl_aggregate]
    rw [← any_branch_aggregate] at hbranch
    cases hagg : (aggregate all)[op]? with
    | none => simp [hagg] at hbranch
    | some a =>
      rw [hagg, Option.any_some] at hbranch
      exact ⟨_, congrArg some (if_pos ⟨hbranch, hunsure⟩)⟩

/-- For every text and every list of records: an opcode that the text gives a family other than
`nop/goto` has that family in the result, and an opcode other than `0xffff` with an observed branch
target and no such family has the family of a branch. -/
theorem buildOpFamily_keeps_confident (all : List RawDlv) (text : List Char) (op : BitVec 16) :
    (∀ family, (staticMap text)[op]? = some family → family ≠ "nop/goto" →
      (buildOpFamily all text)[op]? = some family) ∧
    (op ≠ 0xffff → (∃ r ∈ all, r.op = op ∧ r.tgt.isSome) →
      (¬∃ family, (staticMap text)[op]? = some family ∧ family ≠ "nop/goto") →
      (buildOpFamily all text)[op]? = some "if-cmp" ∨
        (buildOpFamily all text)[op]? = some "if-testz") := by
  constructor
  · intro family hfamily hgoto
    rw [getElem?_buildOpFamily_of_sure, hfamily]
    rintro (hnone | hsome)
    · rw [hfamily] at hnone
      cases hnone
    · rw [hfamily] at hsome
      exact hgoto (Option.some.inj hsome)
  · rintro hop ⟨r, hr, rfl, htgt⟩ hrow
    have hunsure : Unsure (staticMap text) r.op := by
      cases hfamily : (staticMap text)[r.op]? with
      | none => exact Or.inl hfamily
      | some family =>
        by_cases hgoto : family = "nop/goto"
        · exact Or.inr (hgoto ▸ hfamily)
        · exact absurd ⟨family, hfamily, hgoto⟩ hrow
    have hbranch : all.any (·.signals r.op) = true :=
      List.any_eq_true.mpr ⟨r, hr, (RawDlv.signals_self hop).trans htgt⟩
    obtain ⟨reads, hreads⟩ := getElem?_buildOpFamily_of_unsure hunsure hbranch
    rw [hreads]
    exact (branchFamily_cases reads).imp (congrArg some) (congrArg some)

/-- Two rows and the records of a third opcode: the rows stay and the third opcode is a branch. -/
theorem buildOpFamily_keeps_two_rows :
    let text := "OPMAP op=0x2 family=add\nOPMAP op=0x3 family=sub".toList
    (buildOpFamily oneBranch text)[(2 : BitVec 16)]? = some "add" ∧
      ((buildOpFamily oneBranch text)[(1 : BitVec 16)]? = some "if-cmp" ∨
        (buildOpFamily oneBranch text)[(1 : BitVec 16)]? = some "if-testz") := by
  intro text
  have hrow : (staticMap text)[(1 : BitVec 16)]? = none := by decide +kernel
  constructor
  · exact (buildOpFamily_keeps_confident oneBranch text 2).1 "add" (by decide +kernel) (by decide)
  · apply (buildOpFamily_keeps_confident oneBranch text 1).2 (by decide)
    · exact ⟨_, List.mem_cons_self, rfl, rfl⟩
    · rintro ⟨family, hfamily, _⟩
      rw [hrow] at hfamily
      cases hfamily

end Vardoger.Dex
