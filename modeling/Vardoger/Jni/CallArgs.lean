import Vardoger.Jni.Args
import Mathlib.Tactic.IntervalCases

/-!
# The arguments of a Java method

The functions that call a Java method find its arguments in slots: registers and stack words, or the
words behind a `va_list`. A signature says how many there are and which of them are references. We
say what the procedure call standards put into the slots, and compare the values that are handed on
with the Java values. A primitive of at most 32 bits is handed on with the upper half of its slot.
-/

namespace Vardoger

open Patches Stateful

namespace JniBridge

/-! ## Signatures -/

/-- A class name, as it may stand in a descriptor. -/
structure ClassName where
  text : List UInt8
  noSemicolon : 0x3b ∉ text

inductive JType
  | boolean | byte | char | short | int | long | float | double
  | clazz (name : ClassName)
  | array (elem : JType)

namespace JType

def descriptor : JType → List UInt8
  | .boolean => [0x5a]
  | .byte => [0x42]
  | .char => [0x43]
  | .short => [0x53]
  | .int => [0x49]
  | .long => [0x4a]
  | .float => [0x46]
  | .double => [0x44]
  | .clazz name => 0x4c :: (name.text ++ [0x3b])
  | .array elem => 0x5b :: elem.descriptor

def isRef : JType → Bool
  | .clazz _ | .array _ => true
  | _ => false

end JType

/-- The signature of a method with some parameters and a result. -/
def signature (params : List JType) (ret : List UInt8) : List UInt8 :=
  0x28 :: (params.flatMap JType.descriptor ++ 0x29 :: ret)

theorem skipName_append {x y : List UInt8} (h : 0x3b ∉ x) : skipName (x ++ 0x3b :: y) = y := by
  induction x with
  | nil => rfl
  | cons c x ih =>
    have hc : c ≠ 0x3b := fun heq => h (by simp [heq])
    rw [skipName, List.cons_append, List.dropWhile_cons_of_pos (by simpa using hc)]
    exact ih fun hx => h (by simp [hx])

/-- The name of a class is skipped with its semicolon. -/
theorem skipName_clazz (name : ClassName) (x : List UInt8) :
    skipName (0x4c :: (name.text ++ 0x3b :: x)) = x :=
  skipName_append (x := 0x4c :: name.text) (by simpa using name.noSemicolon)

/-- The element type of an array is skipped, however many dimensions it has. -/
theorem skipElement_descriptor (t : JType) (x : List UInt8) :
    skipElement ((t.descriptor ++ x).dropWhile (· = 0x5b)) = x := by
  induction t with
  | clazz name => simp [JType.descriptor, skipElement, skipName_clazz]
  | array elem ih => simpa [JType.descriptor] using ih
  | _ => rfl

theorem argObjectsLoop_descriptor (fuel : ℕ) (t : JType) (x : List UInt8) :
    argObjectsLoop (fuel + 1) (t.descriptor ++ x) = t.isRef :: argObjectsLoop fuel x := by
  cases t with
  | clazz name => simp [JType.descriptor, JType.isRef, argObjectsLoop, skipName_clazz]
  | array elem =>
    simp [JType.descriptor, JType.isRef, argObjectsLoop, skipElement_descriptor]
  | _ => rfl

theorem JType.length_descriptor_pos (t : JType) : 0 < t.descriptor.length := by
  cases t <;> simp [descriptor]

theorem length_le_flatMap_descriptor (params : List JType) :
    params.length ≤ (params.flatMap JType.descriptor).length := by
  induction params with
  | nil => simp
  | cons t params ih =>
    have hpos := t.length_descriptor_pos
    simp only [List.flatMap_cons, List.length_append, List.length_cons]
    omega

/-- The parser finds out which parameters are references. -/
theorem parseArgObjects_signature (params : List JType) (ret : List UInt8) :
    parseArgObjects (signature params ret) = params.map JType.isRef := by
  have hloop (fuel : ℕ) (hfuel : params.length ≤ fuel) :
      argObjectsLoop fuel (params.flatMap JType.descriptor ++ 0x29 :: ret) =
        params.map JType.isRef := by
    induction params generalizing fuel with
    | nil =>
      cases fuel with
      | zero => rfl
      | succ fuel => rfl
    | cons t params ih =>
      obtain ⟨fuel, rfl⟩ : ∃ n, fuel = n + 1 := ⟨fuel - 1, by simp at hfuel; omega⟩
      rw [List.flatMap_cons, List.append_assoc, argObjectsLoop_descriptor,
        ih fuel (by simpa using hfuel), List.map_cons]
  have hlength := length_le_flatMap_descriptor params
  exact hloop _ (by simp only [signature, List.length_cons, List.length_append]; omega)

/-! ## Java values and the slots that carry them -/

/-- A Java value that can be an argument of the calls in question. -/
inductive JavaArg
  | boolean (v : Bool)
  | byte (v : BitVec 8)
  | char (v : BitVec 16)
  | short (v : BitVec 16)
  | int (v : BitVec 32)
  | long (v : BitVec 64)
  | object (h : BitVec 64)
  deriving DecidableEq, Repr

namespace JavaArg

/-- The value is one of a type. -/
def HasType : JavaArg → JType → Prop
  | .boolean _, .boolean | .byte _, .byte | .char _, .char | .short _, .short | .int _, .int
  | .long _, .long | .object _, .clazz _ | .object _, .array _ => True
  | _, _ => False

/-- The number that a primitive is, or a handle. -/
def value : JavaArg → ℤ
  | .boolean v => if v then 1 else 0
  | .byte v => v.toInt
  | .char v => v.toNat
  | .short v => v.toInt
  | .int v => v.toInt
  | .long v => v.toInt
  | .object h => h.toNat

/-- The value as `call_method` should get it. -/
def toDvm : JavaArg → DvmValue
  | .object h => .O h
  | a => .I (BitVec.ofInt 64 a.value)

/-- The primitives that are passed as an `int`. -/
def narrow : JavaArg → Bool
  | .long _ | .object _ => false
  | _ => true

/-- A slot carries a value. An `int` fills the lower half of a 64-bit slot, and the rest of it is
not specified. -/
def CarriedBy (abi : Abi) (a : JavaArg) (w : BitVec 64) : Prop :=
  match abi, a with
  | .arm64, .object h => w = h
  | .arm64, .long v => w = v
  | .arm64, a => w.setWidth 32 = BitVec.ofInt 32 a.value
  | .arm32, .object h => w = h ∧ h.toNat < 2 ^ 32
  | .arm32, .long _ => False
  | .arm32, a => w = (BitVec.ofInt 32 a.value).setWidth 64
  | _, _ => False

/-- A primitive of at most 32 bits whose slot is filled with its sign: on ARM64 the caller has
extended it, on ARM32 it is not negative. -/
def Extended (abi : Abi) (a : JavaArg) (w : BitVec 64) : Prop :=
  a.narrow →
    if abi = .arm64 then
      w.extractLsb' 32 32 = if a.value < 0 then BitVec.allOnes 32 else 0
    else 0 ≤ a.value

instance (abi : Abi) (a : JavaArg) (w : BitVec 64) : Decidable (a.Extended abi w) :=
  inferInstanceAs (Decidable (_ → if abi = .arm64 then _ else _))

theorem value_of_narrow {a : JavaArg} (h : a.narrow) : -2 ^ 31 ≤ a.value ∧ a.value < 2 ^ 31 := by
  cases a with
  | boolean v => cases v <;> simp [value]
  | byte v =>
    have := v.toInt_lt
    have := v.le_toInt
    simp only [value]
    omega
  | char v =>
    have := v.isLt
    simp only [value]
    omega
  | short v =>
    have := v.toInt_lt
    have := v.le_toInt
    simp only [value]
    omega
  | int v =>
    have := v.toInt_lt
    have := v.le_toInt
    simp only [value]
    omega
  | long v => cases h
  | object v => cases h

/-- A slot whose lower half is a number of 32 bits is this number just if the upper half is filled
with its sign. -/
theorem eq_ofInt_iff {w : BitVec 64} {n : ℤ} (hn : -2 ^ 31 ≤ n ∧ n < 2 ^ 31)
    (hlow : w.setWidth 32 = BitVec.ofInt 32 n) :
    w = BitVec.ofInt 64 n ↔ w.extractLsb' 32 32 = if n < 0 then BitVec.allOnes 32 else 0 := by
  have hw := w.isLt
  have hlow : w.toNat % 2 ^ 32 = (n % 2 ^ 32).toNat := by
    simpa [BitVec.toNat_ofInt] using congrArg BitVec.toNat hlow
  have hhigh : (w.extractLsb' 32 32).toNat = w.toNat / 2 ^ 32 := by
    simp only [BitVec.extractLsb'_toNat, Nat.shiftRight_eq_div_pow]
    omega
  rw [← BitVec.toNat_inj, ← BitVec.toNat_inj, hhigh, BitVec.toNat_ofInt]
  split
  · rw [BitVec.toNat_allOnes]
    omega
  · rw [show (0 : BitVec 32).toNat = 0 from rfl]
    omega

/-- Whether a value is a reference. -/
def isRef : JavaArg → Bool
  | .object _ => true
  | _ => false

theorem HasType.isRef_eq {a : JavaArg} {t : JType} (h : a.HasType t) : t.isRef = a.isRef := by
  cases a <;> cases t <;> first | rfl | cases h

theorem carriedBy_arm64 {a : JavaArg} {w : BitVec 64} (h : a.narrow) :
    a.CarriedBy .arm64 w ↔ w.setWidth 32 = BitVec.ofInt 32 a.value := by
  cases a <;> first | rfl | cases h

theorem carriedBy_arm32 {a : JavaArg} {w : BitVec 64} (h : a.narrow) :
    a.CarriedBy .arm32 w ↔ w = (BitVec.ofInt 32 a.value).setWidth 64 := by
  cases a <;> first | rfl | cases h

theorem slotValue_of_narrow {a : JavaArg} (h : a.narrow) (w : BitVec 64) :
    slotValue a.isRef w = a.toDvm ↔ w = BitVec.ofInt 64 a.value := by
  have hI : DvmValue.I w = DvmValue.I (BitVec.ofInt 64 a.value) ↔ w = BitVec.ofInt 64 a.value := by
    simp [DvmValue.I]
  cases a <;> first | exact hI | cases h

/-- A slot that carries a value is handed on as this value just if it is filled with its sign. -/
theorem slotValue_iff {abi : Abi} {a : JavaArg} {w : BitVec 64} (h : a.CarriedBy abi w) :
    slotValue a.isRef w = a.toDvm ↔ a.Extended abi w := by
  by_cases hnarrow : a.narrow
  · have hrange := value_of_narrow hnarrow
    rw [slotValue_of_narrow hnarrow, Extended]
    simp only [hnarrow, true_implies]
    cases abi with
    | arm64 => exact eq_ofInt_iff hrange ((carriedBy_arm64 hnarrow).mp h)
    | arm32 =>
      rw [(carriedBy_arm32 hnarrow).mp h, if_neg (by decide), ← BitVec.toNat_inj]
      simp only [BitVec.toNat_setWidth, BitVec.toNat_ofInt]
      omega
    | x86 => cases h
    | x8664 => cases h
  · refine iff_of_true ?_ fun hn => absurd hn hnarrow
    cases a with
    | object v =>
      cases abi with
      | arm64 => exact congrArg DvmValue.O h
      | arm32 => exact congrArg DvmValue.O h.1
      | x86 => cases h
      | x8664 => cases h
    | long v =>
      cases abi with
      | arm64 =>
        obtain rfl : w = v := h
        exact congrArg DvmValue.I BitVec.ofInt_toInt.symm
      | arm32 => cases h
      | x86 => cases h
      | x8664 => cases h
    | _ => exact absurd rfl hnarrow

end JavaArg

end JniBridge

/-! ## Where the arguments of a call are -/

namespace Engine

/-- A word of mapped memory. -/
def word? (e : Engine) (bytes addr : ℕ) : Option (BitVec 64) :=
  if e.Accessible addr bytes then
    some (BitVec.ofNat 64 (LittleEndian.ofBytes (slice e.byte addr bytes)))
  else none

/-- An argument of a call: the first ones are in registers, the others in words on the stack. -/
def argument? (e : Engine) (j : ℕ) : Option (BitVec 64) :=
  match e.abi with
  | .arm64 =>
      if h : j < 8 then
        some (BitVec.ofNat 64 (e.reg (.arm64X ⟨j, Nat.lt_of_lt_of_le h (by decide)⟩)))
      else e.word? 8 (e.reg .arm64Sp + 8 * (j - 8))
  | .arm32 =>
      if h : j < 4 then some (BitVec.ofNat 64 (e.reg (.armR ⟨j, Nat.lt_of_lt_of_le h (by decide)⟩)))
      else e.word? 4 (e.reg .armSp + 4 * (j - 4))
  | .x86 | .x8664 => none

end Engine

/-- What a `va_list` of AArch64 describes: the arguments that were saved from registers, just below
`grTop`, and those behind them on the stack. -/
structure VaArea where
  stack : BitVec 64
  grTop : BitVec 64
  saved : Fin 9
  fits : 8 * saved.val ≤ grTop.toNat

namespace VaArea

def slot (v : VaArea) (e : Engine) (i : ℕ) : Option (BitVec 64) :=
  if i < v.saved.val then e.word? 8 (v.grTop.toNat - 8 * (v.saved.val - i))
  else e.word? 8 (v.stack.toNat + 8 * (i - v.saved.val))

/-- The structure in guest memory. -/
structure StandsAt (v : VaArea) (e : Engine) (addr : ℕ) : Prop where
  stack : e.word? 8 addr = some v.stack
  grTop : e.word? 8 (addr + 8) = some v.grTop
  vrTop : (e.word? 8 (addr + 16)).isSome
  grOffs : e.word? 4 (addr + 24) = some ((BitVec.ofInt 32 (-8 * v.saved.val)).setWidth 64)
  vrOffs : (e.word? 4 (addr + 28)).isSome

end VaArea

namespace JniBridge

/-- The slots of a `va_list` in an argument of the call. -/
def VaSlots (e : Engine) (j : ℕ) (words : List (BitVec 64)) : Prop :=
  ∃ vap, e.argument? j = some vap ∧
    if e.abi = .arm32 then ∀ i < words.length, e.word? 4 (vap.toNat + 4 * i) = words[i]?
    else ∃ v : VaArea, v.StandsAt e vap.toNat ∧
      ∀ i < words.length, v.slot e i = words[i]?

namespace Dispatcher

/-- The position of the method id among the arguments. -/
def midIndex : Dispatcher → ℕ
  | .call _ | .callV _ => 2
  | .nonvirtualV => 3

/-- The slots of the method's arguments. -/
def Slots (d : Dispatcher) (e : Engine) (words : List (BitVec 64)) : Prop :=
  match d with
  | .call _ => ∀ i < words.length, e.argument? (3 + i) = words[i]?
  | .callV _ => VaSlots e 3 words
  | .nonvirtualV => VaSlots e 4 words

end Dispatcher

/-! ## The readers -/

variable {e : Engine} {j bytes addr : ℕ} {w : BitVec 64}

theorem accessible_of_word (h : e.word? bytes addr = some w) : e.Accessible addr bytes := by
  by_contra hnot
  rw [Engine.word?, if_neg hnot] at h
  cases h

theorem readWord_eq {a : BitVec 64} (h : e.word? bytes a.toNat = some w) :
    e.readWord bytes a = .ok w := by
  have haccess := accessible_of_word h
  rw [Engine.word?, if_pos haccess] at h
  have hread : e.read a.toNat bytes = .ok (slice e.byte a.toNat bytes) := if_pos haccess
  rw [Engine.readWord, hread, ← Option.some.inj h]
  rfl

/-- The number of arguments in registers. -/
def argRegs (abi : Abi) : ℕ := if abi = .arm64 then 8 else 4

/-- The reader in front of an argument. -/
def argsAt (abi : Abi) (j : ℕ) : Args :=
  ⟨min j (argRegs abi), BitVec.ofNat 64 (abi.pointerSize * (j - argRegs abi))⟩

theorem regWord_arm64 (habi : e.abi = .arm64) (h : j < 8) :
    e.regWord (Args.reg j) =
      .ok (BitVec.ofNat 64 (e.reg (.arm64X ⟨j, Nat.lt_of_lt_of_le h (by decide)⟩))) := by
  simp only [Engine.regWord, Engine.readReg, habi]
  interval_cases j <;> rfl

theorem regWord_arm32 (habi : e.abi = .arm32) (h : j < 4) :
    e.regWord (Args.reg j) =
      .ok (BitVec.ofNat 64 (e.reg (.armR ⟨j, Nat.lt_of_lt_of_le h (by decide)⟩))) := by
  simp only [Engine.regWord, Engine.readReg, habi]
  interval_cases j <;> rfl

/-- A word on the stack, behind the arguments in registers. -/
theorem readWord_stack {sp k : ℕ} (h : e.word? bytes (sp + k) = some w) (hbytes : 0 < bytes) :
    e.readWord bytes (BitVec.ofNat 64 sp + BitVec.ofNat 64 k) = .ok w := by
  have hfits := (accessible_of_word h).1
  refine readWord_eq ?_
  rw [BitVec.toNat_add, BitVec.toNat_ofNat, BitVec.toNat_ofNat, Nat.mod_eq_of_lt (by omega),
    Nat.mod_eq_of_lt (by omega), Nat.mod_eq_of_lt (by omega)]
  exact h

theorem nextInt_register {a : Args} (h : a.regIdx < argRegs e.abi)
    (hreg : e.regWord (Args.reg a.regIdx) = .ok w) :
    a.nextInt e = .ok (w, { a with regIdx := a.regIdx + 1 }) := by
  rw [argRegs] at h
  simp only [Args.nextInt, if_pos h]
  rw [except_bind_ok hreg]
  rfl

theorem nextInt_stack {a : Args} {sp : BitVec 64} (h : ¬a.regIdx < argRegs e.abi)
    (hsp : e.regWord .sp = .ok sp)
    (hread : e.readWord e.abi.pointerSize (sp + a.stackOff) = .ok w) :
    a.nextInt e =
      .ok (w, { a with stackOff := a.stackOff + BitVec.ofNat 64 e.abi.pointerSize }) := by
  rw [argRegs] at h
  simp only [Args.nextInt, if_neg h]
  rw [except_bind_ok hsp, except_bind_ok hread]
  rfl

/-- Both ways of reading an argument lead to the next one. -/
theorem nextInt_of_register (h : j < argRegs e.abi) (hreg : e.regWord (Args.reg j) = .ok w) :
    (argsAt e.abi j).nextInt e = .ok (w, argsAt e.abi (j + 1)) := by
  have hat : argsAt e.abi j = ⟨j, 0⟩ := by
    rw [argsAt, Nat.min_eq_left (by omega), Nat.sub_eq_zero_of_le (by omega)]
    rfl
  have hnext : argsAt e.abi (j + 1) = ⟨j + 1, 0⟩ := by
    rw [argsAt, Nat.min_eq_left (by omega), Nat.sub_eq_zero_of_le (by omega)]
    rfl
  rw [hat, hnext]
  exact nextInt_register (a := ⟨j, 0⟩) h hreg

theorem nextInt_of_stack {sp : ℕ} (h : ¬j < argRegs e.abi)
    (hsp : e.regWord .sp = .ok (BitVec.ofNat 64 sp)) (hpos : 0 < e.abi.pointerSize)
    (hword : e.word? e.abi.pointerSize (sp + e.abi.pointerSize * (j - argRegs e.abi)) = some w) :
    (argsAt e.abi j).nextInt e = .ok (w, argsAt e.abi (j + 1)) := by
  have hat : argsAt e.abi j =
      ⟨argRegs e.abi, BitVec.ofNat 64 (e.abi.pointerSize * (j - argRegs e.abi))⟩ := by
    rw [argsAt, Nat.min_eq_right (by omega)]
  have hnext : argsAt e.abi (j + 1) = { argsAt e.abi j with
      stackOff := (argsAt e.abi j).stackOff + BitVec.ofNat 64 e.abi.pointerSize } := by
    rw [argsAt, hat, Nat.min_eq_right (by omega), ← BitVec.ofNat_add, ← Nat.mul_succ,
      show j + 1 - argRegs e.abi = j - argRegs e.abi + 1 by omega]
  rw [hnext]
  refine nextInt_stack (by rw [hat]; exact lt_irrefl _) hsp ?_
  rw [hat]
  exact readWord_stack hword hpos

/-- The reader returns the arguments one after the other. -/
theorem nextInt_argsAt (h : e.argument? j = some w) :
    (argsAt e.abi j).nextInt e = .ok (w, argsAt e.abi (j + 1)) := by
  have hsp (id : UcReg) (hid : regId e.abi .sp = .ok id) :
      e.regWord .sp = .ok (BitVec.ofNat 64 (e.reg id)) := by
    rw [Engine.regWord, Engine.readReg, hid]
    rfl
  cases habi : e.abi with
  | arm64 =>
    have hregs : argRegs e.abi = 8 := by rw [habi]; rfl
    have hsize : e.abi.pointerSize = 8 := by rw [habi]; rfl
    simp only [Engine.argument?, habi] at h
    rw [← habi]
    by_cases hj : j < 8
    · rw [dif_pos hj] at h
      have hreg := regWord_arm64 habi hj
      rw [Option.some.inj h] at hreg
      exact nextInt_of_register (by omega) hreg
    · rw [dif_neg hj] at h
      refine nextInt_of_stack (by omega) (hsp .arm64Sp (by rw [habi]; rfl)) (by omega) ?_
      rw [hsize, hregs]
      exact h
  | arm32 =>
    have hregs : argRegs e.abi = 4 := by rw [habi]; rfl
    have hsize : e.abi.pointerSize = 4 := by rw [habi]; rfl
    simp only [Engine.argument?, habi] at h
    rw [← habi]
    by_cases hj : j < 4
    · rw [dif_pos hj] at h
      have hreg := regWord_arm32 habi hj
      rw [Option.some.inj h] at hreg
      exact nextInt_of_register (by omega) hreg
    · rw [dif_neg hj] at h
      refine nextInt_of_stack (by omega) (hsp .armSp (by rw [habi]; rfl)) (by omega) ?_
      rw [hsize, hregs]
      exact h
  | x86 => simp [Engine.argument?, habi] at h
  | x8664 => simp [Engine.argument?, habi] at h

/-- A reader returns some words one after the other. -/
def Yields {α : Type} (next : α → Except Failure (BitVec 64 × α)) : α → List (BitVec 64) → Prop
  | _, [] => True
  | a, w :: ws => ∃ a', next a = .ok (w, a') ∧ Yields next a' ws

/-- The loop over the parameters hands on the words that the reader returns. -/
theorem readArgs_eq {α : Type} {next : α → Except Failure (BitVec 64 × α)} {a : α}
    {words : List (BitVec 64)} (h : Yields next a words) {objs : List Bool}
    (hlength : objs.length = words.length) :
    readArgs next objs a = .ok (List.zipWith slotValue objs words) := by
  induction words generalizing a objs with
  | nil =>
    obtain rfl := List.length_eq_zero_iff.mp hlength
    rfl
  | cons w words ih =>
    obtain ⟨a', hnext, hrest⟩ := h
    cases objs with
    | nil => cases hlength
    | cons isObj objs =>
      rw [readArgs, except_bind_ok hnext]
      simp only
      rw [except_bind_ok (ih hrest (by simpa using hlength))]
      rfl

theorem yields_argsAt {words : List (BitVec 64)}
    (h : ∀ i a, words[i]? = some a →
      (argsAt e.abi (j + i)).nextInt e = .ok (a, argsAt e.abi (j + i + 1))) :
    Yields (Args.nextInt e) (argsAt e.abi j) words := by
  induction words generalizing j with
  | nil => trivial
  | cons w words ih =>
    refine ⟨_, h 0 w rfl, ih fun i a ha => ?_⟩
    rw [Nat.add_assoc j 0, Nat.zero_add, Nat.add_assoc j 1, Nat.add_comm 1 i]
    exact h (i + 1) a ha

theorem yields_args {words : List (BitVec 64)}
    (h : ∀ i < words.length, e.argument? (j + i) = words[i]?) :
    Yields (Args.nextInt e) (argsAt e.abi j) words := by
  apply yields_argsAt
  intro i a ha
  obtain ⟨hi, -⟩ := List.getElem?_eq_some_iff.mp ha
  exact nextInt_argsAt ((h i hi).trans ha)

/-- A cursor reads consecutive words. -/
theorem yields_cursor (habi : e.abi = .arm32) {words : List (BitVec 64)} {v : VaList}
    (h : ∀ i < words.length, e.word? 4 (v.stack.toNat + 4 * i) = words[i]?) :
    Yields (VaList.nextInt e) v words := by
  induction words generalizing v with
  | nil => trivial
  | cons w words ih =>
    have hread := readWord_eq (h 0 (by simp))
    refine ⟨{ v with stack := v.stack + 4 }, ?_, ih fun i hi => ?_⟩
    · rw [VaList.nextInt, if_pos habi, except_bind_ok hread]
      rfl
    · have hi' := h (i + 1) (by simpa using hi)
      rw [List.getElem?_cons_succ, List.getElem?_eq_getElem hi] at hi'
      have hfits := (accessible_of_word hi').1
      have hstack : (v.stack + 4).toNat = v.stack.toNat + 4 := by
        rw [BitVec.toNat_add, show (4 : BitVec 64).toNat = 4 from rfl]
        exact Nat.mod_eq_of_lt (by omega)
      rw [hstack, Nat.add_assoc, Nat.add_comm 4, ← Nat.mul_succ, List.getElem?_eq_getElem hi]
      exact hi'

/-- The offset to the saved registers: its sign, its extension to 64 bits, and the next one. -/
theorem grOffs_facts : ∀ k : Fin 9,
    ((BitVec.ofInt 32 (-8 * (k.val : ℤ))).toInt < 0 ↔ 0 < k.val) ∧
      (BitVec.ofInt 32 (-8 * (k.val : ℤ))).signExtend 64 = BitVec.ofInt 64 (-8 * (k.val : ℤ)) ∧
      (0 < k.val → BitVec.ofInt 32 (-8 * (k.val : ℤ)) + 8 =
        BitVec.ofInt 32 (-8 * ((k.val - 1 : ℕ) : ℤ))) := by
  decide

theorem toNat_add_grOffs {top : BitVec 64} {k : ℕ} (hpos : 0 < k) (h : 8 * k ≤ top.toNat) :
    (top + BitVec.ofInt 64 (-8 * (k : ℤ))).toNat = top.toNat - 8 * k := by
  have htop := top.isLt
  rw [BitVec.toNat_add, BitVec.toNat_ofInt]
  omega

/-- The words that a `va_list` describes, one after the other. -/
theorem yields_vaList (habi : e.abi ≠ .arm32) {words : List (BitVec 64)} {v : VaArea} {l : VaList}
    (hstack : l.stack = v.stack) (htop : l.grTop = v.grTop)
    (hoffs : l.grOffs = BitVec.ofInt 32 (-8 * v.saved.val))
    (h : ∀ i < words.length, v.slot e i = words[i]?) : Yields (VaList.nextInt e) l words := by
  induction words generalizing v l with
  | nil => trivial
  | cons w words ih =>
    obtain ⟨hsign, hextend, hnext⟩ := grOffs_facts v.saved
    rw [← hoffs] at hsign hextend hnext
    have hfirst := h 0 (by simp)
    have hrest (i : ℕ) (hi : i < words.length) := h (i + 1) (by simpa using hi)
    by_cases hsaved : 0 < v.saved.val
    · -- The next argument was saved from a register.
      rw [VaArea.slot, if_pos hsaved] at hfirst
      have hread : e.readWord 8 (l.grTop + l.grOffs.signExtend 64) = .ok w := by
        refine readWord_eq ?_
        rw [hextend, htop, toNat_add_grOffs hsaved v.fits]
        exact hfirst
      let v' : VaArea := ⟨v.stack, v.grTop, ⟨v.saved.val - 1, by omega⟩,
        by have := v.fits; simp only; omega⟩
      refine ⟨{ l with grOffs := l.grOffs + 8 }, ?_, ih (v := v') hstack htop (hnext hsaved) ?_⟩
      · rw [VaList.nextInt, if_neg habi, if_pos (hsign.mpr hsaved), except_bind_ok hread]
        rfl
      · intro i hi
        have hslot : v'.slot e i = v.slot e (i + 1) := by
          simp only [VaArea.slot, v']
          by_cases hlt : i < v.saved.val - 1
          · rw [if_pos hlt, if_pos (by omega),
              show v.saved.val - 1 - i = v.saved.val - (i + 1) by omega]
          · rw [if_neg hlt, if_neg (by omega),
              show i - (v.saved.val - 1) = i + 1 - v.saved.val by omega]
        rw [hslot, hrest i hi, List.getElem?_cons_succ]
    · have hzero : v.saved.val = 0 := by omega
      rw [VaArea.slot, if_neg hsaved, hzero] at hfirst
      have hread : e.readWord 8 l.stack = .ok w := by
        rw [hstack]
        exact readWord_eq hfirst
      let v' : VaArea := { v with stack := v.stack + 8 }
      refine ⟨{ l with stack := l.stack + 8 }, ?_,
        ih (v := v') (congrArg (· + 8) hstack) htop hoffs ?_⟩
      · rw [VaList.nextInt, if_neg habi, if_neg (mt hsign.mp hsaved), except_bind_ok hread]
        rfl
      · intro i hi
        have hword := hrest i hi
        rw [VaArea.slot, if_neg (by omega), hzero, List.getElem?_cons_succ,
          List.getElem?_eq_getElem hi] at hword
        have hfits := (accessible_of_word hword).1
        have hstack' : (v.stack + 8).toNat = v.stack.toNat + 8 := by
          rw [BitVec.toNat_add, show (8 : BitVec 64).toNat = 8 from rfl]
          exact Nat.mod_eq_of_lt (by omega)
        rw [VaArea.slot, if_neg (by simp only [v']; omega), List.getElem?_eq_getElem hi, ← hword]
        simp only [v', hstack', hzero]
        congr 1
        omega

theorem readWord_field {vap : BitVec 64} (k : ℕ) (h : e.word? bytes (vap.toNat + k) = some w)
    (hbytes : 0 < bytes) : e.readWord bytes (vap + BitVec.ofNat 64 k) = .ok w := by
  have hread := readWord_stack h hbytes
  rwa [BitVec.ofNat_toNat, BitVec.setWidth_eq] at hread

/-- The structure is loaded as it stands. -/
theorem load_vaList (habi : e.abi ≠ .arm32) {v : VaArea} {vap : BitVec 64}
    (h : v.StandsAt e vap.toNat) :
    ∃ l, VaList.load e vap = .ok l ∧ l.stack = v.stack ∧ l.grTop = v.grTop ∧
      l.grOffs = BitVec.ofInt 32 (-8 * v.saved.val) := by
  obtain ⟨vrTop, hvrTop⟩ := Option.isSome_iff_exists.mp h.vrTop
  obtain ⟨vrOffs, hvrOffs⟩ := Option.isSome_iff_exists.mp h.vrOffs
  have hgrTop : e.readWord 8 (vap + 8) = .ok _ := readWord_field 8 h.grTop (by decide)
  have hvrTop : e.readWord 8 (vap + 16) = .ok _ := readWord_field 16 hvrTop (by decide)
  have hgrOffs : e.readWord 4 (vap + 24) = .ok _ := readWord_field 24 h.grOffs (by decide)
  have hvrOffs : e.readWord 4 (vap + 28) = .ok _ := readWord_field 28 hvrOffs (by decide)
  rw [VaList.load, if_neg habi, except_bind_ok (readWord_eq h.stack), except_bind_ok hgrTop,
    except_bind_ok hvrTop, except_bind_ok hgrOffs, except_bind_ok hvrOffs]
  refine ⟨_, rfl, rfl, rfl, ?_⟩
  simp only [BitVec.setWidth_setWidth_of_le _ (by decide : 32 ≤ 64), BitVec.setWidth_eq]

/-- Both forms of a `va_list` yield their words. -/
theorem VaSlots.yields {words : List (BitVec 64)} (h : VaSlots e j words) :
    ∃ vap l, e.argument? j = some vap ∧ VaList.load e vap = .ok l ∧
      Yields (VaList.nextInt e) l words := by
  obtain ⟨vap, hvap, hslots⟩ := h
  by_cases habi : e.abi = .arm32
  · rw [if_pos habi] at hslots
    refine ⟨vap, { stack := vap }, hvap, ?_, yields_cursor habi hslots⟩
    rw [VaList.load, if_pos habi]
    rfl
  · rw [if_neg habi] at hslots
    obtain ⟨v, hv, hslots⟩ := hslots
    obtain ⟨l, hload, hstack, htop, hoffs⟩ := load_vaList habi hv
    exact ⟨vap, l, hvap, hload, yields_vaList habi hstack htop hoffs hslots⟩

/-! ## Calls -/

/-- The first four arguments are in registers. -/
theorem exists_argument (habi : e.abi = .arm64 ∨ e.abi = .arm32) (h : j < 4) :
    ∃ w, e.argument? j = some w := by
  rcases habi with habi | habi
  · simp only [Engine.argument?, habi, dif_pos (show j < 8 by omega)]
    exact ⟨_, rfl⟩
  · simp only [Engine.argument?, habi, dif_pos h]
    exact ⟨_, rfl⟩

theorem nextInt_first (h : e.argument? 0 = some w) :
    Args.nextInt e {} = .ok (w, argsAt e.abi 1) := by
  have hat : argsAt e.abi 0 = {} := by
    rw [argsAt, Nat.zero_min, Nat.zero_sub, Nat.mul_zero]
    rfl
  rw [← hat]
  exact nextInt_argsAt h

variable {s : JavaRuntime} {mid : BitVec 64} {params : List JType} {ret : List UInt8}
  {words : List (BitVec 64)}

/-- Each of the functions hands on the words in the slots, with the kinds of the parameters. -/
theorem Dispatcher.request_eq (d : Dispatcher) (he : s.mem.engine = e)
    (habi : e.abi = .arm64 ∨ e.abi = .arm32) (hmid : e.argument? d.midIndex = some mid)
    (hsig : s.methodSig mid = signature params ret) (hslots : d.Slots e words)
    (hlength : params.length = words.length) :
    ∃ req, d.request s = .ok req ∧
      req.args = List.zipWith slotValue (params.map JType.isRef) words := by
  have hparse : parseArgObjects (s.methodSig mid) = params.map JType.isRef := by
    rw [hsig, parseArgObjects_signature]
  have hlength' : (params.map JType.isRef).length = words.length := by simpa using hlength
  obtain ⟨env, henv⟩ := exists_argument habi (show 0 < 4 by decide)
  obtain ⟨recv, hrecv⟩ := exists_argument habi (show 1 < 4 by decide)
  have hnext₀ : Args.nextInt e {} = .ok (env, argsAt e.abi 1) := nextInt_first henv
  have hnext₁ : Args.nextInt e (argsAt e.abi 1) = .ok (recv, argsAt e.abi 2) := nextInt_argsAt hrecv
  cases d with
  | call isStatic =>
    have hnext₂ : Args.nextInt e (argsAt e.abi 2) = .ok (mid, argsAt e.abi 3) := nextInt_argsAt hmid
    have hargs := readArgs_eq (yields_args hslots) hlength'
    simp only [request, he, except_bind_ok hnext₀, except_bind_ok hnext₁, except_bind_ok hnext₂,
      hparse, except_bind_ok hargs]
    exact ⟨_, rfl, rfl⟩
  | callV isStatic =>
    obtain ⟨vap, l, hvap, hload, hyields⟩ := VaSlots.yields hslots
    have hnext₂ : Args.nextInt e (argsAt e.abi 2) = .ok (mid, argsAt e.abi 3) := nextInt_argsAt hmid
    have hnext₃ : Args.nextInt e (argsAt e.abi 3) = .ok (vap, argsAt e.abi 4) := nextInt_argsAt hvap
    have hargs := readArgs_eq hyields hlength'
    simp only [request, he, except_bind_ok hnext₀, except_bind_ok hnext₁, except_bind_ok hnext₂,
      except_bind_ok hnext₃, except_bind_ok hload, hparse, except_bind_ok hargs]
    exact ⟨_, rfl, rfl⟩
  | nonvirtualV =>
    obtain ⟨vap, l, hvap, hload, hyields⟩ := VaSlots.yields hslots
    obtain ⟨cls, hcls⟩ := exists_argument habi (show 2 < 4 by decide)
    have hnext₂ : Args.nextInt e (argsAt e.abi 2) = .ok (cls, argsAt e.abi 3) := nextInt_argsAt hcls
    have hnext₃ : Args.nextInt e (argsAt e.abi 3) = .ok (mid, argsAt e.abi 4) := nextInt_argsAt hmid
    have hnext₄ : Args.nextInt e (argsAt e.abi 4) = .ok (vap, argsAt e.abi 5) := nextInt_argsAt hvap
    have hargs := readArgs_eq hyields hlength'
    simp only [request, he, except_bind_ok hnext₀, except_bind_ok hnext₁, except_bind_ok hnext₂,
      except_bind_ok hnext₃, except_bind_ok hnext₄, except_bind_ok hload, hparse,
      except_bind_ok hargs]
    exact ⟨_, rfl, rfl⟩

/-- The values handed on are the arguments just if every slot is filled with the sign of its
value. -/
theorem zipWith_slotValue_iff {abi : Abi} {args : List JavaArg}
    (htypes : List.Forall₂ JavaArg.HasType args params)
    (hcarried : List.Forall₂ (JavaArg.CarriedBy abi) args words) :
    List.zipWith slotValue (params.map JType.isRef) words = args.map JavaArg.toDvm ↔
      List.Forall₂ (JavaArg.Extended abi) args words := by
  induction htypes generalizing words with
  | nil =>
    cases hcarried
    simp
  | cons htype _ ih =>
    cases hcarried with
    | cons hfirst hrest =>
      simp only [List.map_cons, List.zipWith_cons_cons, List.cons.injEq, List.forall₂_cons,
        ih hrest, htype.isRef_eq, JavaArg.slotValue_iff hfirst]

/-- The functions that call a method hand its arguments on unchanged if and only if every primitive
of at most 32 bits fills its slot: on ARM64 the upper half is a copy of its sign, on ARM32 it is not
negative. -/
theorem Dispatcher.hands_on_iff (d : Dispatcher) (s : JavaRuntime) (params : List JType)
    (ret : List UInt8) (args : List JavaArg) (words : List (BitVec 64)) {mid : BitVec 64}
    (habi : s.mem.engine.abi = .arm64 ∨ s.mem.engine.abi = .arm32)
    (hmid : s.mem.engine.argument? d.midIndex = some mid)
    (hsig : s.methodSig mid = signature params ret)
    (htypes : List.Forall₂ JavaArg.HasType args params)
    (hslots : d.Slots s.mem.engine words)
    (hcarried : List.Forall₂ (JavaArg.CarriedBy s.mem.engine.abi) args words) :
    (∃ req, d.request s = .ok req ∧ req.args = args.map JavaArg.toDvm) ↔
      List.Forall₂ (JavaArg.Extended s.mem.engine.abi) args words := by
  have hlength : params.length = words.length := htypes.length_eq.symm.trans hcarried.length_eq
  obtain ⟨req, hreq, hargs⟩ := d.request_eq rfl habi hmid hsig hslots hlength
  rw [← zipWith_slotValue_iff htypes hcarried, ← hargs]
  constructor
  · rintro ⟨req', hreq', hargs'⟩
    obtain rfl := Except.ok.inj (hreq.symm.trans hreq')
    exact hargs'
  · exact fun h => ⟨req, hreq, h⟩

/-- A method with one `int` parameter, and a call of it with a word for the parameter. -/
def intCall (abi : Abi) (word : ℕ) : JavaRuntime where
  mem :=
    { Memory.init abi false false with
      engine :=
        { Engine.fresh abi with
          reg := fun r =>
            if r = .arm64X 2 ∨ r = .armR 2 then 0x30000100
            else if r = .arm64X 3 ∨ r = .armR 3 then word
            else 0 } }
  handles := fun h =>
    if h = 0x30000100 then some { kind := .method, sig := signature [.int] [0x56] } else none

/-- An `int` whose caller has extended it. -/
theorem Dispatcher.hands_on_iff_extended :
    let s := intCall .arm64 (2 ^ 64 - 1)
    let args : List JavaArg := [.int (-1)]
    let words : List (BitVec 64) := [-1]
    ((s.mem.engine.abi = .arm64 ∨ s.mem.engine.abi = .arm32) ∧
        s.mem.engine.argument? 2 = some 0x30000100 ∧
        s.methodSig 0x30000100 = signature [.int] [0x56] ∧
        List.Forall₂ JavaArg.HasType args [.int] ∧
        (Dispatcher.call false).Slots s.mem.engine words ∧
        List.Forall₂ (JavaArg.CarriedBy s.mem.engine.abi) args words) ∧
      ((∃ req, (Dispatcher.call false).request s = .ok req ∧ req.args = args.map JavaArg.toDvm) ↔
        List.Forall₂ (JavaArg.Extended s.mem.engine.abi) args words) := by
  intro s args words
  have hsig : s.methodSig 0x30000100 = signature [.int] [0x56] := rfl
  have htypes : List.Forall₂ JavaArg.HasType args [.int] := .cons trivial .nil
  have hslots : (Dispatcher.call false).Slots s.mem.engine words := by
    intro i hi
    obtain rfl : i = 0 := by simpa [words] using hi
    rfl
  have hcarried : List.Forall₂ (JavaArg.CarriedBy s.mem.engine.abi) args words := .cons rfl .nil
  exact ⟨⟨.inl rfl, rfl, hsig, htypes, hslots, hcarried⟩,
    hands_on_iff (.call false) s [.int] [0x56] args words (.inl rfl) rfl hsig htypes hslots
      hcarried⟩

/-- The `int` `-1` arrives as `4294967295`: on ARM64 if the upper half of its register is clear, and
on ARM32 always. -/
theorem Dispatcher.minus_one_arrives_positive :
    JavaArg.CarriedBy .arm64 (.int (-1)) 0xffffffff ∧
      JavaArg.CarriedBy .arm32 (.int (-1)) 0xffffffff ∧
      (JavaArg.int (-1)).toDvm = .I (-1) ∧
      ∀ abi ∈ [Abi.arm64, .arm32],
        ((Dispatcher.call false).request (intCall abi 0xffffffff)).toOption =
          some ⟨0x30000100, 0, [.I 4294967295]⟩ := by
  refine ⟨by rfl, by rfl, by decide, by decide +kernel⟩

end JniBridge

end Vardoger
