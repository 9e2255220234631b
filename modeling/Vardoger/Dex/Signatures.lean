import Vardoger.Base.Scanner
import Vardoger.Jni.CallArgs

/-!
# The scanners of method signatures

`parse_arg_objects` of the JNI functions, and `sig_ret` and `sig_ins` of the rebuilder read method
signatures by hand. We compare them with the grammar of method descriptors, and show that their
loops end on every string.
-/

namespace Vardoger

open Scanner JniBridge

/-! ## Descriptors -/

namespace JniBridge.JType

/-- No class in the type has a `)` in its name. In a DEX file names are made of letters, digits,
spaces, `$`, `-`, `_` and what lies outside ASCII, with `/` between their parts. -/
def NoParen : JType → Prop
  | .clazz name => 0x29 ∉ name.text
  | .array elem => elem.NoParen
  | _ => True

/-- A value of the type takes up two registers. -/
def isWide : JType → Bool
  | .long | .double => true
  | _ => false

/-- The descriptor starts with `L` or `[`. -/
def startsRef (t : JType) : Bool :=
  t.descriptor.head? = some 0x4c || t.descriptor.head? = some 0x5b

theorem startsRef_eq (t : JType) : t.startsRef = t.isRef := by
  cases t <;> rfl

theorem NoParen.not_mem {t : JType} (h : t.NoParen) : 0x29 ∉ t.descriptor := by
  induction t with
  | clazz name =>
    have hname : 0x29 ∉ name.text := h
    simp [descriptor, hname]
  | array elem ih => simp [descriptor, ih h]
  | _ => simp [descriptor]

end JniBridge.JType

/-- A method descriptor: the parameters and the result, which is `V` for `none`. -/
structure MethodDescriptor where
  params : List JType
  ret : Option JType
  noParen : ∀ t ∈ params, t.NoParen

namespace MethodDescriptor

/-- The text behind the parameters. -/
def retText (d : MethodDescriptor) : List UInt8 := (d.ret.map JType.descriptor).getD [0x56]

def text (d : MethodDescriptor) : List UInt8 := signature d.params d.retText

/-- The number of argument registers of a method. -/
def registers (d : MethodDescriptor) (isStatic : Bool) : ℕ :=
  d.params.length + d.params.countP JType.isWide + if isStatic then 0 else 1

theorem retText_ne_nil (d : MethodDescriptor) : d.retText ≠ [] := by
  unfold retText
  cases d.ret with
  | none => simp
  | some t => exact List.ne_nil_of_length_pos t.length_descriptor_pos

theorem not_mem_params (d : MethodDescriptor) : 0x29 ∉ d.params.flatMap JType.descriptor := by
  intro hmem
  obtain ⟨t, ht, hparen⟩ := List.mem_flatMap.mp hmem
  exact (d.noParen t ht).not_mem hparen

end MethodDescriptor

/-! ## The references among the parameters -/

theorem JniBridge.length_skipName_le (x : List UInt8) : (skipName x).length ≤ x.length := by
  have hdrop := (List.dropWhile_suffix (l := x) (· ≠ (0x3b : UInt8))).length_le
  rw [skipName, List.length_drop]
  omega

theorem JniBridge.length_skipName_lt {x : List UInt8} (h : x ≠ []) :
    (skipName x).length < x.length := by
  have hpos := List.length_pos_iff.mpr h
  have hdrop := (List.dropWhile_suffix (l := x) (· ≠ (0x3b : UInt8))).length_le
  rw [skipName, List.length_drop]
  omega

theorem JniBridge.length_skipElement_le (x : List UInt8) : (skipElement x).length ≤ x.length := by
  unfold skipElement
  split
  · exact length_skipName_le x
  · rw [List.length_drop]
    omega

theorem JniBridge.length_skipArray_le (x : List UInt8) :
    (skipElement (x.dropWhile (· = 0x5b))).length ≤ x.length :=
  (length_skipElement_le _).trans (List.dropWhile_suffix _).length_le

/-- One round of `parse_arg_objects`. -/
def nextArgObject : List UInt8 → Option (Bool × List UInt8)
  | [] => none
  | c :: x =>
      if c = 0x29 then none
      else if c = 0x5b then some (true, skipElement (x.dropWhile (· = 0x5b)))
      else if c = 0x4c then some (true, skipName (c :: x))
      else some (false, x)

/-- `parse_arg_objects`, if its loop ends within so many rounds. -/
def scanArgObjects (fuel : ℕ) (sig : List UInt8) : Option (List Bool) :=
  scan nextArgObject fuel ((sig.dropWhile (· ≠ 0x28)).drop 1)

theorem nextArgObject_shrinks (x : List UInt8) (isObj : Bool) (rest : List UInt8)
    (h : nextArgObject x = some (isObj, rest)) : rest.length < x.length := by
  cases x with
  | nil => cases h
  | cons c x =>
    rw [nextArgObject] at h
    split_ifs at h
    · cases h
      exact Nat.lt_succ_of_le (length_skipArray_le x)
    · cases h
      exact length_skipName_lt (List.cons_ne_nil c x)
    · cases h
      exact Nat.lt_succ_self _

theorem argObjectsLoop_end {fuel : ℕ} {x : List UInt8} (h : nextArgObject x = none) :
    argObjectsLoop fuel x = [] := by
  cases fuel with
  | zero => rfl
  | succ fuel =>
    cases x with
    | nil => rfl
    | cons c x =>
      rw [nextArgObject] at h
      split_ifs at h with hend
      rw [argObjectsLoop, if_pos hend]

theorem argObjectsLoop_next {fuel : ℕ} {x rest : List UInt8} {isObj : Bool}
    (h : nextArgObject x = some (isObj, rest)) :
    argObjectsLoop (fuel + 1) x = isObj :: argObjectsLoop fuel rest := by
  cases x with
  | nil => cases h
  | cons c x =>
    rw [nextArgObject] at h
    split_ifs at h with hend harray hclass
    · cases h
      rw [argObjectsLoop, if_neg hend, if_pos harray]
    · cases h
      rw [argObjectsLoop, if_neg hend, if_neg harray, if_pos hclass]
    · cases h
      rw [argObjectsLoop, if_neg hend, if_neg harray, if_neg hclass]

/-- A loop that has ended has found the flags, and so has every longer one. -/
theorem argObjectsLoop_of_scan {fuel more : ℕ} {x : List UInt8} {flags : List Bool}
    (h : scan nextArgObject fuel x = some flags) (hmore : flags.length ≤ more) :
    argObjectsLoop more x = flags := by
  induction fuel generalizing x flags more with
  | zero => cases h
  | succ fuel ih =>
    cases hnext : nextArgObject x with
    | none =>
      rw [scan_end hnext] at h
      cases h
      exact argObjectsLoop_end hnext
    | some token =>
      rw [scan_token hnext] at h
      obtain ⟨flags, hflags, rfl⟩ := Option.map_eq_some_iff.mp h
      obtain ⟨more, rfl⟩ := Nat.exists_eq_succ_of_ne_zero (Nat.ne_zero_of_lt hmore)
      rw [argObjectsLoop_next hnext, ih hflags (Nat.le_of_succ_le_succ hmore)]

/-- The loop of `parse_arg_objects` ends on every string. -/
theorem scanArgObjects_eq {fuel : ℕ} {sig : List UInt8} (hfuel : sig.length < fuel) :
    scanArgObjects fuel sig = some (parseArgObjects sig) := by
  have hlength : ((sig.dropWhile (· ≠ 0x28)).drop 1).length ≤ sig.length := by
    have hdrop := (List.dropWhile_suffix (l := sig) (· ≠ (0x28 : UInt8))).length_le
    rw [List.length_drop]
    omega
  obtain ⟨flags, hflags⟩ :=
    exists_scan_eq_some nextArgObject_shrinks (Nat.lt_of_le_of_lt hlength hfuel)
  have hle := length_tokens_le nextArgObject_shrinks hflags
  rw [parseArgObjects, argObjectsLoop_of_scan hflags (hle.trans hlength)]
  exact hflags

/-! ## The result -/

/-- The text up to the first `)` and that behind it, if there is one. -/
def splitParen (sig : List UInt8) : Option (List UInt8 × List UInt8) :=
  match sig.dropWhile (· ≠ 0x29) with
  | [] => none
  | _ :: rest => some (sig.takeWhile (· ≠ 0x29), rest)

theorem splitParen_append {x y : List UInt8} (h : 0x29 ∉ x) :
    splitParen (x ++ 0x29 :: y) = some (x, y) := by
  have hx : ∀ c ∈ x, decide (c ≠ 0x29) = true := fun c hc =>
    decide_eq_true fun heq => h (heq ▸ hc)
  rw [splitParen, List.dropWhile_append_of_pos hx, List.takeWhile_append_of_pos hx]
  simp

def sigRet (sig : List UInt8) : List UInt8 :=
  match splitParen sig with
  | none | some (_, []) => [0x56]
  | some (_, ret) => ret

theorem MethodDescriptor.splitParen_text (d : MethodDescriptor) :
    splitParen d.text = some (0x28 :: d.params.flatMap JType.descriptor, d.retText) :=
  splitParen_append (x := 0x28 :: d.params.flatMap JType.descriptor)
    (by simpa using d.not_mem_params)

/-! ## The argument registers -/

/-- One round of `sig_ins`: the registers of a parameter. -/
def nextIns : List UInt8 → Option (UInt16 × List UInt8)
  | [] => none
  | c :: x =>
      if c = 0x4c then some (1, skipName (c :: x))
      else if c = 0x5b then some (1, skipElement (x.dropWhile (· = 0x5b)))
      else if c = 0x4a ∨ c = 0x44 then some (2, x)
      else some (1, x)

/-- The parameters of a signature that starts with `(`. -/
def insParams (sig : List UInt8) : List UInt8 :=
  match splitParen sig with
  | some (c :: params, _) => if c = 0x28 then params else []
  | _ => []

/-- `sig_ins`, if its loop ends within so many rounds. -/
def sigIns (fuel : ℕ) (sig : List UInt8) (isStatic : Bool) : Option UInt16 :=
  (scan nextIns fuel (insParams sig)).map fun widths =>
    widths.foldl (· + ·) (if isStatic then 0 else 1)

theorem nextIns_shrinks (x : List UInt8) (width : UInt16) (rest : List UInt8)
    (h : nextIns x = some (width, rest)) : rest.length < x.length := by
  cases x with
  | nil => cases h
  | cons c x =>
    rw [nextIns] at h
    split_ifs at h
    · cases h
      exact length_skipName_lt (List.cons_ne_nil c x)
    · cases h
      exact Nat.lt_succ_of_le (length_skipArray_le x)
    · cases h
      exact Nat.lt_succ_self _
    · cases h
      exact Nat.lt_succ_self _

theorem length_insParams_le (sig : List UInt8) : (insParams sig).length ≤ sig.length := by
  unfold insParams
  split
  next c params ret hsplit =>
    split
    · unfold splitParen at hsplit
      split at hsplit
      · cases hsplit
      · have htake := (List.takeWhile_sublist (l := sig) (· ≠ (0x29 : UInt8))).length_le
        rw [(Prod.mk.inj (Option.some.inj hsplit)).1, List.length_cons] at htake
        omega
    · exact Nat.zero_le _
  · exact Nat.zero_le _

/-- The registers of a parameter. -/
def JniBridge.JType.width (t : JType) : UInt16 := if t.isWide then 2 else 1

theorem nextIns_descriptor (t : JType) (x : List UInt8) :
    nextIns (t.descriptor ++ x) = some (t.width, x) := by
  cases t with
  | clazz name => simp [JType.descriptor, nextIns, skipName_clazz, JType.width, JType.isWide]
  | array elem =>
    simp [JType.descriptor, nextIns, skipElement_descriptor, JType.width, JType.isWide]
  | _ => rfl

/-- The widths add up as long as they fit. -/
theorem toNat_foldl_width (params : List JType) (n : UInt16)
    (h : n.toNat + (params.length + params.countP JType.isWide) < 65536) :
    ((params.map JType.width).foldl (· + ·) n).toNat =
      n.toNat + (params.length + params.countP JType.isWide) := by
  induction params generalizing n with
  | nil => rfl
  | cons t params ih =>
    rw [List.map_cons, List.foldl_cons]
    rw [List.length_cons, List.countP_cons] at h ⊢
    have hwidth : (n + t.width).toNat = n.toNat + (1 + if t.isWide then 1 else 0) := by
      unfold JType.width
      split
      next hwide =>
        rw [if_pos hwide] at h
        rw [UInt16.toNat_add]
        exact Nat.mod_eq_of_lt (by simp; omega)
      next hwide =>
        rw [if_neg hwide] at h
        rw [UInt16.toNat_add]
        exact Nat.mod_eq_of_lt (by simp; omega)
    rw [ih _ (by rw [hwidth]; omega), hwidth]
    omega

/-- The loop of `sig_ins` ends on every string. -/
theorem exists_sigIns_eq_some {fuel : ℕ} {sig : List UInt8} (hfuel : sig.length < fuel)
    (isStatic : Bool) : ∃ n, sigIns fuel sig isStatic = some n := by
  obtain ⟨widths, hwidths⟩ :=
    exists_scan_eq_some nextIns_shrinks (Nat.lt_of_le_of_lt (length_insParams_le sig) hfuel)
  rw [sigIns, hwidths]
  exact ⟨_, rfl⟩

theorem MethodDescriptor.insParams_text (d : MethodDescriptor) :
    insParams d.text = d.params.flatMap JType.descriptor := by
  rw [insParams, d.splitParen_text]
  rfl

theorem MethodDescriptor.sigIns_text {d : MethodDescriptor} {isStatic : Bool}
    (h : d.registers isStatic < 65536) {fuel : ℕ} (hfuel : d.params.length < fuel) :
    ∃ n, sigIns fuel d.text isStatic = some n ∧ n.toNat = d.registers isStatic := by
  have hscan : scan nextIns fuel (d.params.flatMap JType.descriptor ++ []) =
      some (d.params.map JType.width) :=
    scan_flatMap (fun t _ => nextIns_descriptor t) rfl hfuel
  rw [List.append_nil] at hscan
  rw [sigIns, d.insParams_text, hscan]
  unfold registers at h ⊢
  refine ⟨_, rfl, ?_⟩
  cases isStatic with
  | true => exact (toNat_foldl_width d.params 0 (by simpa using h)).trans (Nat.zero_add _)
  | false =>
    have hone : (1 : UInt16).toNat = 1 := rfl
    have hlt : (1 : UInt16).toNat + (d.params.length + d.params.countP JType.isWide) < 65536 := by
      rw [hone]
      simpa [Nat.add_comm] using h
    exact (toNat_foldl_width d.params 1 hlt).trans (Nat.add_comm _ _)

theorem MethodDescriptor.sigRet_text (d : MethodDescriptor) : sigRet d.text = d.retText := by
  rw [sigRet, d.splitParen_text]
  cases hret : d.retText with
  | nil => exact absurd hret d.retText_ne_nil
  | cons c ret => rfl

/-- On every method descriptor `parse_arg_objects` flags the parameters that start with `L` or `[`,
`sig_ret` gives the result, and `sig_ins` counts the argument registers as long as they fit in 16
bits. On every string the loops end. -/
theorem signature_scanners (isStatic : Bool) :
    (∀ d : MethodDescriptor, ∃ enough, ∀ fuel ≥ enough,
      scanArgObjects fuel d.text = some (d.params.map JType.startsRef) ∧
      sigRet d.text = d.retText ∧
      (d.registers isStatic < 65536 →
        ∃ n, sigIns fuel d.text isStatic = some n ∧ n.toNat = d.registers isStatic)) ∧
    (∀ sig, ∃ enough, ∀ fuel ≥ enough,
      scanArgObjects fuel sig = some (parseArgObjects sig) ∧
      ∃ n, sigIns fuel sig isStatic = some n) := by
  constructor
  · intro d
    refine ⟨d.text.length + 1, fun fuel hfuel => ⟨?_, d.sigRet_text, fun h => ?_⟩⟩
    · rw [scanArgObjects_eq hfuel, MethodDescriptor.text, parseArgObjects_signature]
      exact congrArg some (List.map_congr_left fun t _ => (t.startsRef_eq).symm)
    · apply d.sigIns_text h
      have hlength := length_le_flatMap_descriptor d.params
      have htext : d.text.length = (d.params.flatMap JType.descriptor).length +
          d.retText.length + 2 := by
        simp [MethodDescriptor.text, signature]
        omega
      omega
  · intro sig
    exact ⟨sig.length + 1, fun fuel hfuel =>
      ⟨scanArgObjects_eq hfuel, exists_sigIns_eq_some hfuel isStatic⟩⟩

end Vardoger
