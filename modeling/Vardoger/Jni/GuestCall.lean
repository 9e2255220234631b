import Vardoger.Jni.CallArgs

/-!
# Calls into the guest

`Engine::call` lays out the arguments of a guest function by the conventions of four architectures,
and the handlers behind the trampoline read them back with `Args`. The reader knows two of the
conventions. The stack that a call takes for its arguments is never given back.
-/

namespace Vardoger

open Words Stateful LittleEndian Patches JniBridge

/-! ## Laying out the arguments -/

/-- The number of arguments that a call passes in registers. -/
def Abi.callRegs : Abi → ℕ
  | .arm64 => 8
  | .arm32 => 4
  | .x8664 => 6
  | .x86 => 0

namespace Engine

/-- Only the x86-64 convention has its stack aligned first. -/
def alignStack (e : Engine) : Except Failure Engine := do
  if e.abi = .x8664 then e.writeReg .sp (maskDown (← e.readReg .sp) 16) else return e

/-- The arguments in registers, from a position on. -/
def writeArgs : ℕ → List (BitVec 64) → Engine → Except Failure Engine
  | _, [], e => return e
  | i, a :: args, e => do writeArgs (i + 1) args (← e.writeReg (Args.reg i) a.toNat)

/-- The arguments on the stack, from an address on. -/
def writeWords (psz : ℕ) : ℕ → List (BitVec 64) → Engine → Except Failure Engine
  | _, [], e => return e
  | cur, a :: args, e => do
      writeWords psz (add64 cur psz) args (← e.write cur (toBytes psz a.toNat))

/-- The bytes that a number of arguments takes on the stack. -/
def blockBytes (abi : Abi) (n : ℕ) : ℕ :=
  let bytes := n * abi.pointerSize % 2 ^ 64
  if abi = .arm64 ∨ abi = .x8664 then maskUp bytes 16 else bytes

def pushArgs (args : List (BitVec 64)) (e : Engine) : Except Failure Engine := do
  if args = [] then return e
  else
    let sp := sub64 (← e.readReg .sp) (blockBytes e.abi args.length)
    let e ← writeWords e.abi.pointerSize sp args e
    e.writeReg .sp sp

def setArgs (args : List (BitVec 64)) (e : Engine) : Except Failure Engine := do
  let e ← e.alignStack
  let e ← writeArgs 0 (args.take e.abi.callRegs) e
  pushArgs (args.drop e.abi.callRegs) e

/-- The return address goes to the link register, or to the stack where there is none. -/
def setReturnAddress (magicReturn : BitVec 64) (e : Engine) : Except Failure Engine := do
  if e.abi = .arm64 ∨ e.abi = .arm32 then e.writeReg .lr magicReturn.toNat
  else
    let psz := e.abi.pointerSize
    let sp := sub64 (← e.readReg .sp) psz
    let e ← e.write sp (toBytes psz magicReturn.toNat)
    e.writeReg .sp sp

/-- The part of `call` in front of `run`. -/
def enterCall (args : List (BitVec 64)) (magicReturn : BitVec 64) (e : Engine) :
    Except Failure Engine := do
  let e ← e.setArgs args
  e.setReturnAddress magicReturn

/-! ## Registers -/

/-- Two states with the same memory. -/
structure SameMemory (e e' : Engine) : Prop where
  abi : e'.abi = e.abi
  prot : e'.prot = e.prot
  byte : e'.byte = e.byte

theorem SameMemory.refl (e : Engine) : SameMemory e e := ⟨rfl, rfl, rfl⟩

theorem SameMemory.trans {e e' e'' : Engine} (h : SameMemory e e') (h' : SameMemory e' e'') :
    SameMemory e e'' :=
  ⟨h'.abi.trans h.abi, h'.prot.trans h.prot, h'.byte.trans h.byte⟩

variable {e e' : Engine} {r : Reg} {id : UcReg} {v : ℕ}

theorem writeReg_eq (h : regId e.abi r = .ok id) (v : ℕ) :
    e.writeReg r v = .ok (e.writeUcReg id v) := by
  rw [writeReg, h]
  rfl

theorem readReg_writeUcReg (h : regId e.abi r = .ok id) :
    (e.writeUcReg id v).readReg r = .ok (v % 2 ^ id.bits) := by
  have hid : regId (e.writeUcReg id v).abi r = .ok id := h
  rw [readReg, hid]
  exact congrArg Except.ok (Function.update_self ..)

theorem readReg_writeUcReg_of_ne (h : regId e.abi r ≠ .ok id) :
    (e.writeUcReg id v).readReg r = e.readReg r := by
  have hid : regId (e.writeUcReg id v).abi r = regId e.abi r := rfl
  rw [readReg, readReg, hid]
  cases hr : regId e.abi r with
  | error err => rfl
  | ok other =>
    rw [hr] at h
    have hne : other ≠ id := fun heq => h (congrArg Except.ok heq)
    exact congrArg Except.ok (Function.update_of_ne hne ..)

/-- The registers of the arguments are as wide as a pointer, and none is another one. -/
theorem exists_argReg (abi : Abi) {j : ℕ} (hj : j < abi.callRegs) :
    ∃ id, regId abi (Args.reg j) = .ok id ∧ id.bits = abi.bits ∧ regId abi .sp ≠ .ok id ∧
      regId abi .lr ≠ .ok id ∧ ∀ k < abi.callRegs, k ≠ j → regId abi (Args.reg k) ≠ .ok id := by
  cases abi with
  | arm64 =>
    change j < 8 at hj
    interval_cases j <;> exact ⟨_, rfl, rfl, by simp [regId], by simp [regId], by decide⟩
  | arm32 =>
    change j < 4 at hj
    interval_cases j <;> exact ⟨_, rfl, rfl, by simp [regId], by simp [regId], by decide⟩
  | x8664 =>
    change j < 6 at hj
    interval_cases j <;> exact ⟨_, rfl, rfl, by simp [regId], by simp [regId], by decide⟩
  | x86 => exact absurd hj (Nat.not_lt_zero j)

/-- What the loop over the arguments in registers leaves. -/
structure Passed (e e' : Engine) (i : ℕ) (args : List (BitVec 64)) : Prop where
  memory : SameMemory e e'
  others : ∀ r, (∀ j < args.length, ∀ id, regId e.abi (Args.reg (i + j)) = .ok id →
    regId e.abi r ≠ .ok id) → e'.readReg r = e.readReg r
  regs : ∀ j a, args[j]? = some a →
    e'.readReg (Args.reg (i + j)) = .ok (a.toNat % 2 ^ e.abi.bits)

theorem writeArgs_spec (i : ℕ) (args : List (BitVec 64)) (h : i + args.length ≤ e.abi.callRegs) :
    ∃ e', writeArgs i args e = .ok e' ∧ Passed e e' i args := by
  induction args generalizing i e with
  | nil => exact ⟨e, rfl, .refl e, fun _ _ => rfl, by simp⟩
  | cons a args ih =>
    rw [List.length_cons] at h
    obtain ⟨id, hid, hbits, -, -, hothers⟩ := exists_argReg e.abi (j := i) (by omega)
    obtain ⟨e', hrun, hpassed⟩ := ih (e := e.writeUcReg id a.toNat) (i + 1)
      (by rw [Nat.add_assoc, Nat.add_comm 1]; exact h)
    have hmemory : SameMemory e (e.writeUcReg id a.toNat) := ⟨rfl, rfl, rfl⟩
    refine ⟨e', ?_, hmemory.trans hpassed.memory, ?_, ?_⟩
    · rw [writeArgs, except_bind_ok (writeReg_eq hid _)]
      exact hrun
    · intro r hr
      rw [hpassed.others r fun j hj => by
        rw [Nat.add_assoc, Nat.add_comm 1]
        exact hr (j + 1) (by simpa using hj)]
      exact readReg_writeUcReg_of_ne (hr 0 (by simp) id hid)
    · intro j b hb
      cases j with
      | zero =>
        obtain rfl : a = b := by simpa using hb
        rw [Nat.add_zero, hpassed.others, readReg_writeUcReg hid, hbits]
        intro j hj other hother heq
        have hsame : regId e.abi (Args.reg (i + 1 + j)) = .ok id :=
          hother.trans (heq.symm.trans hid)
        exact hothers (i + 1 + j) (by omega) (by omega) hsame
      | succ j =>
        rw [Nat.add_comm j, ← Nat.add_assoc]
        exact hpassed.regs j b (by simpa using hb)

theorem Passed.sp {args : List (BitVec 64)} (h : Passed e e' 0 args)
    (hfits : args.length ≤ e.abi.callRegs) : e'.readReg .sp = e.readReg .sp := by
  apply h.others
  intro j hj id hid
  obtain ⟨other, hother, -, hsp, -⟩ := exists_argReg e.abi (j := j) (by omega)
  rw [Nat.zero_add, hother] at hid
  exact hid ▸ hsp

/-! ## The block on the stack -/

theorem word_congr (hprot : e'.prot = e.prot) {n a : ℕ}
    (hbyte : slice e'.byte a n = slice e.byte a n) : e'.word? n a = e.word? n a := by
  have haccess : e'.Accessible a n ↔ e.Accessible a n := by
    simp only [Accessible, Mapped, hprot]
  simp only [word?, haccess, hbyte]

theorem word_setBytes {n addr : ℕ} {a : BitVec 64} (haccess : e.Accessible addr n)
    (ha : a.toNat < 256 ^ n) : (e.setBytes addr (toBytes n a.toNat)).word? n addr = some a := by
  rw [word?, if_pos (accessible_setBytes.mpr haccess), slice_setBytes_toBytes, ofBytes_toBytes,
    Nat.mod_eq_of_lt ha, BitVec.ofNat_toNat, BitVec.setWidth_eq]

/-- What the loop over the arguments on the stack leaves. -/
structure Stacked (psz : ℕ) (e e' : Engine) (cur : ℕ) (args : List (BitVec 64)) : Prop where
  abi : e'.abi = e.abi
  prot : e'.prot = e.prot
  reg : e'.reg = e.reg
  below : ∀ x < cur, e'.byte x = e.byte x
  words : ∀ k a, args[k]? = some a → e'.word? psz (cur + psz * k) = some a

theorem writeWords_spec (psz cur : ℕ) (args : List (BitVec 64))
    (haccess : e.Accessible cur (psz * args.length)) (hfits : cur + psz * args.length < 2 ^ 64)
    (hargs : ∀ a ∈ args, a.toNat < 256 ^ psz) :
    ∃ e', writeWords psz cur args e = .ok e' ∧ Stacked psz e e' cur args := by
  induction args generalizing cur e with
  | nil => exact ⟨e, rfl, rfl, rfl, rfl, fun _ _ => rfl, by simp⟩
  | cons a args ih =>
    rw [List.length_cons, Nat.mul_succ] at haccess hfits
    have hfirst : e.Accessible cur psz := haccess.mono (by omega)
    set e₁ := e.setBytes cur (toBytes psz a.toNat)
    have hwrite : e.write cur (toBytes psz a.toNat) = .ok e₁ := by
      rw [write, length_toBytes, if_pos hfirst]
    have hrest : e₁.Accessible (cur + psz) (psz * args.length) := by
      rw [Nat.add_comm] at haccess
      rcases (accessible_add.mp haccess).2 with hzero | hrest
      · rw [hzero]
        exact ⟨by omega, by simp⟩
      · exact hrest
    obtain ⟨e', hrun, hstacked⟩ := ih _ hrest (by omega)
      (fun b hb => hargs b (List.mem_cons_of_mem _ hb))
    refine ⟨e', ?_, hstacked.abi, hstacked.prot, hstacked.reg, ?_, ?_⟩
    · rw [writeWords, except_bind_ok hwrite, add64_of_lt (by omega)]
      exact hrun
    · intro x hx
      rw [hstacked.below x (by omega), byte_setBytes]
      exact put_of_not_covers fun hcovers => Nat.not_le.mpr hx hcovers.1
    · intro k b hb
      cases k with
      | zero =>
        obtain rfl : a = b := by simpa using hb
        rw [Nat.mul_zero, Nat.add_zero, ← word_setBytes hfirst (hargs a (by simp))]
        exact word_congr hstacked.prot (slice_congr fun i hi => hstacked.below _ (by omega))
      | succ k =>
        rw [Nat.mul_succ, Nat.add_comm (psz * k), ← Nat.add_assoc]
        exact hstacked.words k b (by simpa using hb)

/-- Some bytes below the stack pointer are mapped. -/
def StackRoom (e : Engine) (n : ℕ) : Prop :=
  ∃ sp, e.readReg .sp = .ok sp ∧ sp < 2 ^ e.abi.bits ∧ n ≤ sp ∧ e.Accessible (sp - n) n

theorem exists_spReg (abi : Abi) : ∃ id, regId abi .sp = .ok id ∧ id.bits = abi.bits := by
  cases abi <;> exact ⟨_, rfl, rfl⟩

theorem bits_le (abi : Abi) : abi.bits ≤ 64 := by cases abi <;> decide

/-- The stack pointer moves down by less than the room. -/
theorem writeReg_sp {n sp : ℕ} (sp' : ℕ) (hsp : sp < 2 ^ e.abi.bits) (hn : n ≤ sp) (hsp' : sp' ≤ sp)
    (haccess : e.Accessible (sp - n) n) {k : ℕ} (hk : k + (sp - sp') ≤ n) :
    ∃ e', e.writeReg .sp sp' = .ok e' ∧ SameMemory e e' ∧ StackRoom e' k ∧
      e'.readReg .sp = .ok sp' ∧
      ∀ r, regId e.abi r ≠ regId e.abi .sp → e'.readReg r = e.readReg r := by
  obtain ⟨id, hid, hbits⟩ := exists_spReg e.abi
  have hvalue : (e.writeUcReg id sp').readReg .sp = .ok sp' := by
    rw [readReg_writeUcReg hid, hbits, Nat.mod_eq_of_lt (by omega)]
  refine ⟨e.writeUcReg id sp', writeReg_eq hid _, ⟨rfl, rfl, rfl⟩, ?_, hvalue, ?_⟩
  · refine ⟨sp', hvalue, show sp' < 2 ^ e.abi.bits by omega, by omega, ?_⟩
    have hpart : e.Accessible (sp' - k) k := haccess.within (by omega) (by omega)
    exact hpart
  · intro r hr
    exact readReg_writeUcReg_of_ne (by rwa [hid] at hr)

theorem alignStack_spec {n : ℕ} (h : e.StackRoom (n + 16)) :
    ∃ e', e.alignStack = .ok e' ∧ SameMemory e e' ∧ StackRoom e' n ∧
      ∀ r, regId e.abi r ≠ regId e.abi .sp → e'.readReg r = e.readReg r := by
  obtain ⟨sp, hsp, hlt, hroom, haccess⟩ := h
  by_cases habi : e.abi = .x8664
  · have hmask := maskDown_two_pow (a := sp) (k := 4) (by decide)
      (hlt.trans_le (Nat.pow_le_pow_right (by decide) (bits_le e.abi)))
    norm_num at hmask
    obtain ⟨e', hrun, hmemory, hroom, -, hothers⟩ := writeReg_sp (k := n)
      (maskDown sp 16) hlt hroom (maskDown_le _ _) haccess (by omega)
    refine ⟨e', ?_, hmemory, hroom, hothers⟩
    rw [alignStack, if_pos habi, except_bind_ok hsp]
    exact hrun
  · refine ⟨e, ?_, .refl e, ⟨sp, hsp, hlt, by omega, haccess.within (by omega) (by omega)⟩,
      fun _ _ => rfl⟩
    rw [alignStack, if_neg habi]
    rfl

/-- A number of arguments takes little more than eight bytes for each. -/
theorem blockBytes_bounds (abi : Abi) {n : ℕ} (hn : 8 * n + 16 < 2 ^ 64) :
    abi.pointerSize * n ≤ blockBytes abi n ∧ blockBytes abi n ≤ 8 * n + 16 := by
  have hmask := maskUp_two_pow (a := n * 8) (k := 4) (by decide) (by omega)
  norm_num at hmask
  have hwide : 8 * n ≤ maskUp (n * 8 % 2 ^ 64) 16 ∧ maskUp (n * 8 % 2 ^ 64) 16 ≤ 8 * n + 16 := by
    rw [Nat.mod_eq_of_lt (by omega), hmask]
    omega
  have hnarrow : 4 * n ≤ n * 4 % 2 ^ 64 ∧ n * 4 % 2 ^ 64 ≤ 8 * n + 16 := by omega
  cases abi with
  | arm64 => exact hwide
  | x8664 => exact hwide
  | arm32 => exact hnarrow
  | x86 => exact hnarrow

theorem lt_of_bits {abi : Abi} {a : BitVec 64} (h : a.toNat < 2 ^ abi.bits) :
    a.toNat < 256 ^ abi.pointerSize := by
  cases abi <;> exact h

theorem pushArgs_spec {n : ℕ} {args : List (BitVec 64)}
    (h : e.StackRoom (n + (8 * args.length + 16))) (hargs : ∀ a ∈ args, a.toNat < 2 ^ e.abi.bits) :
    ∃ e', pushArgs args e = .ok e' ∧ e'.abi = e.abi ∧ e'.prot = e.prot ∧ StackRoom e' n ∧
      (∀ r, regId e.abi r ≠ regId e.abi .sp → e'.readReg r = e.readReg r) ∧
      ∃ sp, e'.readReg .sp = .ok sp ∧ ∀ k a, args[k]? = some a →
        e'.word? e.abi.pointerSize (sp + e.abi.pointerSize * k) = some a := by
  obtain ⟨sp, hsp, hlt, hroom, haccess⟩ := h
  by_cases hnil : args = []
  · refine ⟨e, ?_, rfl, rfl, ⟨sp, hsp, hlt, by omega, haccess.within (by omega) (by omega)⟩,
      fun _ _ => rfl, sp, hsp, by simp [hnil]⟩
    rw [pushArgs, if_pos hnil]
    rfl
  · have hsize := hlt.trans_le (Nat.pow_le_pow_right (by decide) (bits_le e.abi))
    obtain ⟨hlow, hhigh⟩ := blockBytes_bounds e.abi (n := args.length) (by omega)
    set bytes := blockBytes e.abi args.length
    obtain ⟨e₁, hwords, hstacked⟩ := writeWords_spec (e := e) e.abi.pointerSize
      (sp - bytes) args (haccess.within (by omega) (by omega)) (by omega)
      (fun a ha => lt_of_bits (hargs a ha))
    have haccess₁ : e₁.Accessible (sp - (n + (8 * args.length + 16)))
        (n + (8 * args.length + 16)) := by
      simp only [Accessible, Mapped, hstacked.prot]
      exact haccess
    obtain ⟨e', hrun, hmemory, hroom', hsp', hothers⟩ := writeReg_sp (k := n)
      (sp - bytes) (hstacked.abi ▸ hlt) hroom (Nat.sub_le _ _) haccess₁ (by omega)
    refine ⟨e', ?_, hmemory.abi.trans hstacked.abi, hmemory.prot.trans hstacked.prot, hroom', ?_,
      sp - bytes, hsp', ?_⟩
    · rw [pushArgs, if_neg hnil, except_bind_ok hsp, sub64_of_le hsize (by omega)]
      dsimp only
      rw [except_bind_ok hwords]
      exact hrun
    · intro r hr
      rw [← hstacked.abi] at hr
      rw [hothers r hr, readReg, readReg, hstacked.abi]
      have hsame : e₁.readUcReg = e.readUcReg := funext fun id => congrFun hstacked.reg id
      rw [hsame]
    · intro k a ha
      rw [← hstacked.words k a ha]
      exact word_congr hmemory.prot (by rw [hmemory.byte])

/-! ## What the handler reads -/

/-- The arguments are where the convention has them. -/
structure Laid (e : Engine) (args : List (BitVec 64)) : Prop where
  regs : ∀ j a, j < e.abi.callRegs → args[j]? = some a → e.readReg (Args.reg j) = .ok a.toNat
  stack : ∃ sp, e.readReg .sp = .ok sp ∧ ∀ k a, args[e.abi.callRegs + k]? = some a →
    e.word? e.abi.pointerSize (sp + e.abi.pointerSize * k) = some a

theorem setArgs_spec {args : List (BitVec 64)} (h : e.StackRoom (8 * args.length + 64))
    (hargs : ∀ a ∈ args, a.toNat < 2 ^ e.abi.bits) :
    ∃ e', e.setArgs args = .ok e' ∧ e'.abi = e.abi ∧ StackRoom e' 8 ∧ Laid e' args := by
  obtain ⟨e₁, halign, hmemory, hroom, -⟩ := alignStack_spec (n := 8 * args.length + 48) h
  have habi := hmemory.abi
  obtain ⟨e₂, hregs, hpassed⟩ := writeArgs_spec (e := e₁) 0 (args.take e₁.abi.callRegs)
    (by simp)
  have habi₂ := hpassed.memory.abi
  have hsp := hpassed.sp (by simp)
  have hroom₂ : e₂.StackRoom (8 + (8 * (args.drop e₁.abi.callRegs).length + 16)) := by
    obtain ⟨sp, hread, hlt, hn, haccess⟩ := hroom
    have hle : (args.drop e₁.abi.callRegs).length ≤ args.length := by simp
    refine ⟨sp, hsp.trans hread, habi₂ ▸ hlt, by omega, ?_⟩
    simp only [Accessible, Mapped, hpassed.memory.prot]
    exact haccess.within (by omega) (by omega)
  obtain ⟨e', hpush, habi', -, hroom', hothers, sp, hread, hwords⟩ := pushArgs_spec hroom₂
    (fun a ha => by rw [habi₂, habi]; exact hargs a (List.mem_of_mem_drop ha))
  refine ⟨e', ?_, habi'.trans (habi₂.trans habi), hroom', ?_, sp, hread, ?_⟩
  · rw [setArgs, except_bind_ok halign, except_bind_ok hregs, habi₂]
    exact hpush
  · intro j a hj ha
    rw [habi', habi₂] at hj
    obtain ⟨id, hid, -, hne, -⟩ := exists_argReg e₁.abi hj
    rw [hothers (Args.reg j) (by rw [habi₂, hid]; exact hne.symm)]
    have hpass := hpassed.regs j a (by rw [List.getElem?_take_of_lt hj, ha])
    rwa [Nat.zero_add, habi, Nat.mod_eq_of_lt (hargs a (List.mem_of_getElem? ha))] at hpass
  · intro k a ha
    rw [habi', habi₂] at ha
    rw [habi']
    exact hwords k a (by rw [List.getElem?_drop]; exact ha)

/-- A handler behind a stub sees the state with which the stub was entered, apart from the program
counter. -/
structure StubEntered (e e' : Engine) : Prop where
  memory : SameMemory e e'
  regs : ∀ r, r ≠ .pc → e'.readReg r = e.readReg r

/-- The handler of a stub reads the arguments of a call in order, whatever the return address. -/
def ReadsInOrder (e : Engine) (args : List (BitVec 64)) : Prop :=
  ∀ magicReturn, ∃ entered, e.enterCall args magicReturn = .ok entered ∧
    ∀ e', StubEntered entered e' → Yields (Args.nextInt e') {} args

theorem argReg_ne_pc (j : ℕ) : Args.reg j ≠ .pc := by
  unfold Args.reg
  split <;> simp

theorem Laid.of_regs {args : List (BitVec 64)} (h : Laid e args) (hmemory : SameMemory e e')
    (hregs : ∀ j < e.abi.callRegs, e'.readReg (Args.reg j) = e.readReg (Args.reg j))
    (hsp : e'.readReg .sp = e.readReg .sp) : Laid e' args := by
  obtain ⟨sp, hread, hwords⟩ := h.stack
  refine ⟨fun j a hj ha => ?_, sp, hsp.trans hread, fun k a ha => ?_⟩
  · rw [hmemory.abi] at hj
    rw [hregs j hj]
    exact h.regs j a hj ha
  · rw [hmemory.abi] at ha ⊢
    rw [word_congr hmemory.prot (by rw [hmemory.byte])]
    exact hwords k a ha

theorem regWord_of_readReg {a : BitVec 64} (h : e.readReg r = .ok a.toNat) :
    e.regWord r = .ok a := by
  rw [regWord, except_bind_ok h, BitVec.ofNat_toNat, BitVec.setWidth_eq]
  rfl

/-- Where the reader and the writer have the same number of registers, the reader finds what the
writer laid out. -/
theorem Laid.yields {args : List (BitVec 64)} (h : Laid e args)
    (habi : argRegs e.abi = e.abi.callRegs) : Yields (Args.nextInt e) {} args := by
  have hstart : argsAt e.abi 0 = {} := by simp [argsAt]
  rw [← hstart]
  apply yields_argsAt
  intro j a ha
  rw [Nat.zero_add]
  by_cases hj : j < argRegs e.abi
  · exact nextInt_of_register hj (regWord_of_readReg (h.regs j a (habi ▸ hj) ha))
  · obtain ⟨sp, hread, hwords⟩ := h.stack
    have hsp : e.regWord .sp = .ok (BitVec.ofNat 64 sp) := by
      rw [regWord, except_bind_ok hread]
      rfl
    have hpos : 0 < e.abi.pointerSize := by cases e.abi <;> decide
    refine nextInt_of_stack hj hsp hpos ?_
    rw [habi] at hj ⊢
    exact hwords _ a (by rwa [Nat.add_sub_cancel' (by omega)])

/-- On ARM the arguments stay where they are. -/
theorem setReturnAddress_arm (habi : e.abi = .arm64 ∨ e.abi = .arm32) (magicReturn : BitVec 64) :
    ∃ e', e.setReturnAddress magicReturn = .ok e' ∧ SameMemory e e' ∧
      (∀ j < e.abi.callRegs, e'.readReg (Args.reg j) = e.readReg (Args.reg j)) ∧
      e'.readReg .sp = e.readReg .sp := by
  obtain ⟨id, hid, hsp⟩ : ∃ id, regId e.abi .lr = .ok id ∧ regId e.abi .sp ≠ .ok id := by
    rcases habi with habi | habi <;> rw [habi] <;> exact ⟨_, rfl, by simp [regId]⟩
  refine ⟨e.writeUcReg id magicReturn.toNat, ?_, ⟨rfl, rfl, rfl⟩, fun j hj => ?_, ?_⟩
  · rw [setReturnAddress, if_pos habi]
    exact writeReg_eq hid _
  · obtain ⟨other, hother, -, -, hlr, -⟩ := exists_argReg e.abi hj
    apply readReg_writeUcReg_of_ne
    rw [hother]
    exact fun heq => hlr (hid.trans heq.symm)
  · exact readReg_writeUcReg_of_ne hsp

/-- Elsewhere it goes below them. -/
theorem setReturnAddress_x86 (habi : e.abi = .x8664 ∨ e.abi = .x86) (h : e.StackRoom 8)
    (magicReturn : BitVec 64) :
    ∃ e', e.setReturnAddress magicReturn = .ok e' ∧ e'.abi = e.abi ∧
      ∀ r, regId e.abi r ≠ regId e.abi .sp → e'.readReg r = e.readReg r := by
  obtain ⟨sp, hsp, hlt, hroom, haccess⟩ := h
  have hsize := hlt.trans_le (Nat.pow_le_pow_right (by decide) (bits_le e.abi))
  have hpsz : e.abi.pointerSize ≤ 8 := by cases e.abi <;> decide
  have harm : ¬(e.abi = .arm64 ∨ e.abi = .arm32) := by
    rcases habi with habi | habi <;> rw [habi] <;> decide
  set x := toBytes e.abi.pointerSize magicReturn.toNat
  have hwrite : e.write (sp - e.abi.pointerSize) x =
      .ok (e.setBytes (sp - e.abi.pointerSize) x) := by
    apply write_eq
    rw [length_toBytes]
    exact haccess.within (by omega) (by omega)
  obtain ⟨e', hrun, hmemory, -, -, hothers⟩ := writeReg_sp
    (e := e.setBytes (sp - e.abi.pointerSize) x) (k := 0) _ hlt hroom
    (Nat.sub_le _ e.abi.pointerSize) haccess (by omega)
  refine ⟨e', ?_, hmemory.abi, fun r hr => hothers r hr⟩
  rw [setReturnAddress, if_neg harm]
  dsimp only
  rw [except_bind_ok hsp, sub64_of_le hsize (by omega), except_bind_ok hwrite]
  exact hrun

/-- On x86-64 the word at the stack pointer is the return address. -/
theorem readWord_setReturnAddress {magicReturn : BitVec 64} (habi : e.abi = .x8664)
    (h : e.setReturnAddress magicReturn = .ok e') :
    ∃ sp, e'.regWord .sp = .ok sp ∧ e'.readWord 8 sp = .ok magicReturn := by
  have hid : regId e.abi .sp = .ok .x86Rsp := by rw [habi]; rfl
  obtain ⟨sp, hsp, hcall⟩ : ∃ sp < 2 ^ 64, e.setReturnAddress magicReturn =
      (do (← e.write sp (toBytes 8 magicReturn.toNat)).writeReg .sp sp) := by
    have hread : e.readReg .sp = .ok (e.reg .x86Rsp) := by rw [readReg, hid]; rfl
    have hpsz : e.abi.pointerSize = 8 := by rw [habi]; rfl
    refine ⟨sub64 (e.reg .x86Rsp) 8, Nat.mod_lt _ (by decide), ?_⟩
    rw [setReturnAddress, if_neg (by rw [habi]; decide), hpsz, except_bind_ok hread]
  rw [hcall] at h
  by_cases haccess : e.Accessible sp 8
  · set x := toBytes 8 magicReturn.toNat
    have hwrite : e.write sp x = .ok (e.setBytes sp x) := write_eq (by rwa [length_toBytes])
    have hset : (e.setBytes sp x).writeReg .sp sp =
        .ok ((e.setBytes sp x).writeUcReg .x86Rsp sp) := writeReg_eq (e := e.setBytes sp x) hid sp
    rw [except_bind_ok hwrite, hset] at h
    obtain rfl := Except.ok.inj h
    have hvalue : ((e.setBytes sp x).writeUcReg .x86Rsp sp).readReg .sp =
        .ok (BitVec.ofNat 64 sp).toNat := by
      rw [BitVec.toNat_ofNat]
      exact readReg_writeUcReg (e := e.setBytes sp x) hid
    refine ⟨BitVec.ofNat 64 sp, regWord_of_readReg hvalue, readWord_eq ?_⟩
    have hword : (e.setBytes sp x).word? 8 sp = some magicReturn :=
      word_setBytes haccess magicReturn.isLt
    rw [BitVec.toNat_ofNat, Nat.mod_eq_of_lt hsp]
    exact hword
  · rw [write, length_toBytes, if_neg haccess] at h
    cases h

theorem StubEntered.refl (e : Engine) : StubEntered e e := ⟨.refl e, fun _ _ => rfl⟩

/-- The fifth argument is read from the stack, except on ARM64. -/
theorem nextInt_of_yields (habi : e.abi ≠ .arm64) {args : List (BitVec 64)} {i k : ℕ}
    {a : BitVec 64} (h : Yields (Args.nextInt e) ⟨i, 0⟩ args) (hk : i + k = 4)
    (ha : args[k]? = some a) : ∃ a', Args.nextInt e ⟨4, 0⟩ = .ok (a, a') := by
  induction k generalizing i args with
  | zero =>
    obtain ⟨rest, rfl⟩ : ∃ rest, args = a :: rest := by
      cases args with
      | nil => cases ha
      | cons b rest => exact ⟨rest, by simpa using ha⟩
    obtain ⟨a', hnext, -⟩ := h
    obtain rfl : i = 4 := hk
    exact ⟨a', hnext⟩
  | succ k ih =>
    cases args with
    | nil => cases ha
    | cons b rest =>
      obtain ⟨a', hnext, hrest⟩ := h
      have hregs : i < argRegs e.abi := by
        rw [argRegs, if_neg habi]
        omega
      cases hreg : e.regWord (Args.reg i) with
      | error err =>
        have hnreg : i < if e.abi = .arm64 then 8 else 4 := hregs
        rw [Args.nextInt, if_pos hnreg, hreg] at hnext
        cases hnext
      | ok w =>
        rw [nextInt_register (a := ⟨i, 0⟩) hregs hreg] at hnext
        obtain ⟨-, rfl⟩ := Prod.mk.inj (Except.ok.inj hnext)
        exact ih hrest (by rw [Nat.add_assoc, Nat.add_comm 1]; exact hk) ha

theorem readsInOrder_of_arm {args : List (BitVec 64)} (habi : e.abi = .arm64 ∨ e.abi = .arm32)
    (h : e.StackRoom (8 * args.length + 64)) (hargs : ∀ a ∈ args, a.toNat < 2 ^ e.abi.bits) :
    e.ReadsInOrder args := by
  intro magicReturn
  obtain ⟨e₁, hset, habi₁, -, hlaid⟩ := setArgs_spec h hargs
  obtain ⟨e₂, hreturn, hmemory, hregs, hsp⟩ := setReturnAddress_arm (habi₁ ▸ habi) magicReturn
  refine ⟨e₂, by rw [enterCall, except_bind_ok hset]; exact hreturn, fun e' he' => ?_⟩
  have hlaid' : Laid e' args := by
    refine (hlaid.of_regs hmemory hregs hsp).of_regs he'.memory (fun j _ => ?_) ?_
    · exact he'.regs _ (argReg_ne_pc j)
    · exact he'.regs _ (by simp)
  apply hlaid'.yields
  rw [he'.memory.abi, hmemory.abi, habi₁]
  rcases habi with habi | habi <;> rw [habi] <;> rfl

section X86

variable {args : List (BitVec 64)} (habi : e.abi = .x8664 ∨ e.abi = .x86)
  (h : e.StackRoom (8 * args.length + 64)) (hargs : ∀ a ∈ args, a.toNat < 2 ^ e.abi.bits)

include habi h hargs

/-- The call pushes its return address below the arguments. -/
theorem enterCall_x86 (magicReturn : BitVec 64) :
    ∃ e₁ e₂, e₁.abi = e.abi ∧ Laid e₁ args ∧ e₁.setReturnAddress magicReturn = .ok e₂ ∧
      e.enterCall args magicReturn = .ok e₂ ∧ e₂.abi = e.abi ∧
      ∀ r, regId e₁.abi r ≠ regId e₁.abi .sp → e₂.readReg r = e₁.readReg r := by
  obtain ⟨e₁, hset, habi₁, hroom, hlaid⟩ := setArgs_spec h hargs
  obtain ⟨e₂, hreturn, habi₂, hothers⟩ := setReturnAddress_x86 (habi₁ ▸ habi) hroom magicReturn
  refine ⟨e₁, e₂, habi₁, hlaid, hreturn, ?_, habi₂.trans habi₁, hothers⟩
  rw [enterCall, except_bind_ok hset]
  exact hreturn

theorem readsInOrder_of_x86 (hfew : args.length ≤ min 4 e.abi.callRegs) : e.ReadsInOrder args := by
  intro magicReturn
  obtain ⟨e₁, e₂, habi₁, hlaid, -, hrun, -, hothers⟩ := enterCall_x86 habi h hargs magicReturn
  refine ⟨e₂, hrun, fun e' he' => ?_⟩
  have hstart : argsAt e'.abi 0 = {} := by simp [argsAt]
  rw [← hstart]
  apply yields_argsAt
  intro j a ha
  have hj := (List.getElem?_eq_some_iff.mp ha).1
  have hregs : j < e₁.abi.callRegs := by
    rw [habi₁]
    omega
  obtain ⟨id, hid, -, hsp, -⟩ := exists_argReg e₁.abi hregs
  have hread : e'.readReg (Args.reg j) = .ok a.toNat := by
    rw [he'.regs _ (argReg_ne_pc j), hothers _ (by rw [hid]; exact hsp.symm)]
    exact hlaid.regs j a hregs ha
  have hfour : 4 ≤ argRegs e'.abi := by cases e'.abi <;> decide
  rw [Nat.zero_add]
  exact nextInt_of_register (by omega) (regWord_of_readReg hread)

/-- The fifth argument on x86-64 is taken for the return address. -/
theorem length_le_of_readsInOrder (hwide : e.abi = .x8664) (hreads : e.ReadsInOrder args) :
    args.length ≤ 4 := by
  by_contra hmany
  have hfifth := List.getElem?_eq_getElem (l := args) (i := 4) (by omega)
  set a := args[4]
  -- a return address that is not the fifth argument
  obtain ⟨e₁, e₂, habi₁, -, hreturn, hrun, habi₂, -⟩ := enterCall_x86 habi h hargs (a + 1)
  obtain ⟨entered, hrun', hyields⟩ := hreads (a + 1)
  obtain rfl := Except.ok.inj (hrun.symm.trans hrun')
  obtain ⟨sp, hsp, hword⟩ := readWord_setReturnAddress (habi₁.trans hwide) hreturn
  have hnot : e₂.abi ≠ .arm64 := by
    rw [habi₂, hwide]
    decide
  have hpsz : e₂.abi.pointerSize = 8 := by
    rw [habi₂, hwide]
    rfl
  obtain ⟨a', hnext⟩ := nextInt_of_yields hnot (hyields _ (.refl _)) (Nat.zero_add 4) hfifth
  have hread := nextInt_stack (a := ⟨4, 0⟩) (w := a + 1) (by simp [argRegs, hnot]) hsp
    (by rw [hpsz]; simpa using hword)
  have hsame : a + 1 = a := congrArg Prod.fst (Except.ok.inj (hread.symm.trans hnext))
  simp at hsame

/-- There is no register to read on x86. -/
theorem eq_nil_of_readsInOrder (hnarrow : e.abi = .x86) (hreads : e.ReadsInOrder args) :
    args = [] := by
  by_contra hne
  obtain ⟨e₁, e₂, -, -, -, hrun, habi₂, -⟩ := enterCall_x86 habi h hargs 0
  obtain ⟨entered, hrun', hyields⟩ := hreads 0
  obtain rfl := Except.ok.inj (hrun.symm.trans hrun')
  obtain ⟨a, rest, rfl⟩ := List.exists_cons_of_ne_nil hne
  obtain ⟨a', hnext, -⟩ := hyields _ (.refl _)
  obtain ⟨err, hreg⟩ : ∃ err, e₂.regWord (Args.reg 0) = .error err := by
    rw [regWord, readReg, habi₂, hnarrow]
    exact ⟨_, rfl⟩
  rw [Args.nextInt, if_pos (by rw [habi₂, hnarrow]; decide), hreg] at hnext
  cases hnext

end X86

/-- The handler of a stub reads back the arguments of a call exactly on ARM, and on x86-64 up to the
fourth. -/
theorem readsInOrder_iff {args : List (BitVec 64)} (h : e.StackRoom (8 * args.length + 64))
    (hargs : ∀ a ∈ args, a.toNat < 2 ^ e.abi.bits) :
    e.ReadsInOrder args ↔
      args = [] ∨ e.abi = .arm64 ∨ e.abi = .arm32 ∨ e.abi = .x8664 ∧ args.length ≤ 4 := by
  cases habi : e.abi with
  | arm64 => simpa using readsInOrder_of_arm (.inl habi) h hargs
  | arm32 => simpa using readsInOrder_of_arm (.inr habi) h hargs
  | x8664 =>
    have hregs : e.abi.callRegs = 6 := by rw [habi]; rfl
    constructor
    · intro hreads
      simpa using Or.inr (length_le_of_readsInOrder (.inl habi) h hargs habi hreads)
    · intro hfew
      have hle : args.length ≤ 4 := by
        rcases hfew with rfl | hfew
        · exact Nat.zero_le 4
        · simpa using hfew
      exact readsInOrder_of_x86 (.inl habi) h hargs (by omega)
  | x86 =>
    constructor
    · intro hreads
      exact .inl (eq_nil_of_readsInOrder (.inr habi) h hargs habi hreads)
    · intro hnil
      have hnil : args = [] := by simpa using hnil
      exact readsInOrder_of_x86 (.inr habi) h hargs (by simp [hnil])

/-- An emulator whose memory is all mapped and whose registers all hold an address. -/
def flat (abi : Abi) : Engine := ⟨abi, fun _ => some 7, fun _ => 0, fun _ => 0x10000⟩

theorem stackRoom_flat (abi : Abi) {n : ℕ} (hn : n ≤ 0x10000) : (flat abi).StackRoom n := by
  obtain ⟨id, hid, -⟩ := exists_spReg abi
  have hpow : 2 ^ 32 ≤ 2 ^ abi.bits := Nat.pow_le_pow_right (by decide) (by cases abi <;> decide)
  have hread : (flat abi).readReg .sp = .ok 0x10000 := by
    rw [readReg, show regId (flat abi).abi .sp = .ok id from hid]
    rfl
  refine ⟨0x10000, hread, show 0x10000 < 2 ^ abi.bits by omega, hn, by omega, fun _ _ => rfl⟩

theorem fits_flat (args : List (BitVec 64)) :
    ∀ a ∈ args, a.toNat < 2 ^ (flat .x8664).abi.bits :=
  fun a _ => a.isLt

theorem readsInOrder_iff_two : (flat .x8664).ReadsInOrder [1, 2] :=
  (readsInOrder_iff (stackRoom_flat _ (by decide)) (fits_flat _)).mpr (by decide)

/-- With five arguments on x86-64, the handler takes the return address for the last one. -/
theorem fifth_argument_lost : (flat .x8664).StackRoom (8 * 5 + 64) ∧
    ¬(flat .x8664).ReadsInOrder [1, 2, 3, 4, 5] := by
  have hroom := stackRoom_flat .x8664 (n := 8 * 5 + 64) (by decide)
  refine ⟨hroom, fun hreads => ?_⟩
  exact absurd (length_le_of_readsInOrder (.inl rfl) hroom (fits_flat _) rfl hreads) (by decide)

end Engine

/-! ## The stack pointer over many calls -/

/-- The alignment of the stack at a call. -/
def Abi.stackAlign : Abi → ℕ
  | .arm64 | .x8664 => 16
  | .arm32 => 8
  | .x86 => 4

/-- A call, with the emulator in front of it, at the first instruction of the callee, and behind
it. -/
structure GuestCall where
  args : List (BitVec 64)
  magicReturn : BitVec 64
  before : Engine
  entered : Engine
  after : Engine

/-- The callee returns with the stack pointer it was entered with. -/
structure GuestCall.Returns (c : GuestCall) : Prop where
  enters : c.before.enterCall c.args c.magicReturn = .ok c.entered
  abi : c.after.abi = c.entered.abi
  sp : c.after.readReg .sp = c.entered.readReg .sp

/-- Calls one after the other. -/
inductive CallRun : Engine → List GuestCall → Prop
  | nil (e : Engine) : CallRun e []
  | cons {c : GuestCall} {calls : List GuestCall} :
      c.Returns → CallRun c.after calls → CallRun c.before (c :: calls)

namespace Engine

variable {e : Engine}

def StackAligned (e : Engine) : Prop := ∃ sp, e.readReg .sp = .ok sp ∧ e.abi.stackAlign ∣ sp

/-- In a run of calls each one gives its stack back, and the callees are entered with an aligned
stack if it was aligned at first. -/
def StackKept (e : Engine) (calls : List GuestCall) : Prop :=
  ∀ c ∈ calls, c.after.readReg .sp = c.before.readReg .sp ∧
    (e.StackAligned → c.entered.StackAligned)

/-- Arguments in registers leave the stack alone. -/
theorem enterCall_of_fits (habi : e.abi = .arm64 ∨ e.abi = .arm32) {args : List (BitVec 64)}
    (hfits : args.length ≤ e.abi.callRegs) (magicReturn : BitVec 64) :
    ∃ e', e.enterCall args magicReturn = .ok e' ∧ e'.abi = e.abi ∧
      e'.readReg .sp = e.readReg .sp := by
  obtain ⟨e₁, hregs, hpassed⟩ := writeArgs_spec (e := e) 0 args (by omega)
  have habi₁ := hpassed.memory.abi
  have hset : e.setArgs args = .ok e₁ := by
    have halign : e.alignStack = .ok e := by
      rw [alignStack, if_neg (by rcases habi with habi | habi <;> rw [habi] <;> decide)]
      rfl
    rw [setArgs, except_bind_ok halign, List.take_of_length_le hfits, except_bind_ok hregs, habi₁,
      List.drop_eq_nil_of_le hfits]
    rfl
  obtain ⟨e', hreturn, hmemory, -, hsp⟩ := setReturnAddress_arm (habi₁ ▸ habi) magicReturn
  refine ⟨e', ?_, hmemory.abi.trans habi₁, hsp.trans (hpassed.sp hfits)⟩
  rw [enterCall, except_bind_ok hset]
  exact hreturn

/-- On ARM no stack is lost as long as all arguments are in registers. -/
theorem stack_kept_of_registers {calls : List GuestCall} (habi : e.abi = .arm64 ∨ e.abi = .arm32)
    (hrun : CallRun e calls) (hfits : ∀ c ∈ calls, c.args.length ≤ e.abi.callRegs) :
    e.StackKept calls := by
  induction hrun with
  | nil e => simp [StackKept]
  | @cons c calls hreturns _ ih =>
    obtain ⟨entered, henters, habi', hsp⟩ :=
      enterCall_of_fits habi (hfits c (by simp)) c.magicReturn
    obtain rfl := Except.ok.inj (hreturns.enters.symm.trans henters)
    have hafter : c.after.abi = c.before.abi := hreturns.abi.trans habi'
    have hkept : c.after.readReg .sp = c.before.readReg .sp := hreturns.sp.trans hsp
    have haligned : c.before.StackAligned → c.after.StackAligned := by
      rintro ⟨sp, hread, hdvd⟩
      exact ⟨sp, hkept.trans hread, hafter ▸ hdvd⟩
    intro d hd
    rcases List.mem_cons.mp hd with rfl | hd
    · refine ⟨hkept, ?_⟩
      rintro ⟨sp, hread, hdvd⟩
      exact ⟨sp, hsp.trans hread, habi' ▸ hdvd⟩
    · obtain ⟨hd₁, hd₂⟩ := ih (hafter ▸ habi)
        (fun c' hc' => hafter ▸ hfits c' (List.mem_cons_of_mem _ hc')) d hd
      exact ⟨hd₁, fun h => hd₂ (haligned h)⟩

theorem stack_kept_of_registers_one :
    ∃ c : GuestCall, c.Returns ∧ c.args = [1] ∧ (flat .arm64).StackKept [c] := by
  have hfits : [(1 : BitVec 64)].length ≤ (flat .arm64).abi.callRegs := by decide
  obtain ⟨e', henters, -⟩ := enterCall_of_fits (.inl rfl) hfits 0
  have hreturns : GuestCall.Returns ⟨[1], 0, flat .arm64, e', e'⟩ := ⟨henters, rfl, rfl⟩
  have hrun : CallRun (flat .arm64) [⟨[1], 0, flat .arm64, e', e'⟩] := .cons hreturns (.nil _)
  exact ⟨_, hreturns, rfl, stack_kept_of_registers (.inl rfl) hrun (by simp [flat, Abi.callRegs])⟩

/-- A fifth argument on ARM32 costs four bytes of stack, and its alignment. -/
theorem stack_lost : ∃ c : GuestCall, CallRun (flat .arm32) [c] ∧ (flat .arm32).StackAligned ∧
    c.after.readReg .sp ≠ c.before.readReg .sp ∧ ¬c.entered.StackAligned := by
  obtain ⟨e', henters, hsp, habi⟩ : ∃ e', (flat .arm32).enterCall [1, 2, 3, 4, 5] 0 = .ok e' ∧
      e'.readReg .sp = .ok 0xfffc ∧ e'.abi = .arm32 := ⟨_, rfl, rfl, rfl⟩
  have hreturns : GuestCall.Returns ⟨[1, 2, 3, 4, 5], 0, flat .arm32, e', e'⟩ :=
    ⟨henters, rfl, rfl⟩
  have hbefore : (flat .arm32).readReg .sp = .ok 0x10000 := rfl
  refine ⟨_, .cons hreturns (.nil _), ⟨0x10000, hbefore, by decide⟩, ?_, ?_⟩
  · rw [hsp, hbefore]
    intro heq
    exact absurd (Except.ok.inj heq) (by decide)
  · rintro ⟨sp, hread, hdvd⟩
    obtain rfl := Except.ok.inj (hread.symm.trans hsp)
    rw [habi] at hdvd
    exact absurd hdvd (by decide)

end Engine

end Vardoger
