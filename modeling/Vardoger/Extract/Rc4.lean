import Mathlib.Logic.Equiv.Basic
import Vardoger.Base.Keystream
import Vardoger.Base.Patches
import Vardoger.Engine.Strings

/-!
# RC4 at native speed

The packer decrypts with RC4, byte by byte in guest code. Two hooks take the place of its two loops:
at their entry they compute the result on the host, keep the state in the guest's own record of
`0x102` bytes, and return to the caller. We show that a text in pieces, through these hooks, is
decrypted as by one call, and that the S-box stays a permutation.
-/

namespace Vardoger.Extractor

open Bytes Patches

/-- The S-box and the two indices. -/
structure Rc4 where
  S : UInt8 → UInt8
  i : UInt8
  j : UInt8

namespace Rc4

/-- Exchange two entries of the S-box. -/
def swap (S : UInt8 → UInt8) (a b : UInt8) : UInt8 → UInt8 :=
  Function.update (Function.update S a (S b)) b (S a)

/-- Round `k` of the key schedule; the index `jj` goes along. -/
def ksaRound (key : List UInt8) (p : (UInt8 → UInt8) × UInt8) (k : ℕ) :
    (UInt8 → UInt8) × UInt8 :=
  let jj := p.2 + p.1 (UInt8.ofNat k) +
    if key.length ≠ 0 then key.getD (k % key.length) 0 else 0
  (swap p.1 (UInt8.ofNat k) jj, jj)

/-- The key schedule after some of its rounds. -/
def ksaRounds (key : List UInt8) (rounds : ℕ) : (UInt8 → UInt8) × UInt8 :=
  (List.range rounds).foldl (ksaRound key) (id, 0)

/-- The state for a key. -/
def ksa (key : List UInt8) : Rc4 := ⟨(ksaRounds key 256).1, 0, 0⟩

/-- The indices and the S-box at the next byte. -/
def next (r : Rc4) : Rc4 :=
  let i := r.i + 1
  let j := r.j + r.S i
  ⟨swap r.S i j, i, j⟩

/-- The byte of the key stream. -/
def out (r : Rc4) : UInt8 := r.S (r.S r.i + r.S r.j)

/-- Mask a buffer in place. -/
def crypt (r : Rc4) (buf : List UInt8) : List UInt8 × Rc4 := Keystream.crypt next out r buf

/-- The record of the guest: the S-box, then the indices. -/
def saveState (r : Rc4) : List UInt8 :=
  (List.range 256).map (fun k => r.S (UInt8.ofNat k)) ++ [r.i, r.j]

def loadState (g : List UInt8) : Rc4 :=
  ⟨fun k => g.getD k.toNat 0, g.getD 0x100 0, g.getD 0x101 0⟩

end Rc4

/-- One call with a fresh state. -/
def rc4 (key data : List UInt8) : List UInt8 := ((Rc4.ksa key).crypt data).1

/-- The hooks on the guest's record: the state behind the key schedule, then each masked chunk with
the state behind it. -/
def interceptedRc4 (key : List UInt8) (chunks : List (List UInt8)) :
    List UInt8 × List (List UInt8 × List UInt8) :=
  let st := (Rc4.ksa key).saveState
  (st, Keystream.cryptStored Rc4.next Rc4.out Rc4.saveState Rc4.loadState st chunks)

/-! ## The state -/

namespace Rc4

theorem swap_eq (S : UInt8 → UInt8) (a b : UInt8) : swap S a b = S ∘ Equiv.swap a b := by
  rw [Equiv.swap_comm, Equiv.comp_swap_eq_update]
  rfl

theorem bijective_swap {S : UInt8 → UInt8} (hS : S.Bijective) (a b : UInt8) :
    (swap S a b).Bijective := by
  rw [swap_eq]
  exact hS.comp (Equiv.swap a b).bijective

/-- The key schedule keeps a permutation in every round. -/
theorem bijective_ksaRounds (key : List UInt8) (rounds : ℕ) :
    (ksaRounds key rounds).1.Bijective := by
  induction rounds with
  | zero => exact Function.bijective_id
  | succ rounds ih =>
    rw [ksaRounds, List.range_succ, List.foldl_append]
    exact bijective_swap ih _ _

theorem bijective_next {r : Rc4} (hr : r.S.Bijective) : (next r).S.Bijective :=
  bijective_swap hr _ _

theorem length_saveState (r : Rc4) : r.saveState.length = 0x102 := by
  rw [saveState, List.length_append, List.length_map, List.length_range]
  rfl

/-- What was saved is loaded. -/
theorem loadState_saveState (r : Rc4) : loadState r.saveState = r := by
  have hbox : ((List.range 256).map fun k => r.S (UInt8.ofNat k)).length = 256 := by
    rw [List.length_map, List.length_range]
  have hS : (fun k : UInt8 => r.saveState.getD k.toNat 0) = r.S := by
    funext k
    have hk := k.toNat_lt
    rw [saveState, List.getD_append _ _ _ _ (by rw [hbox]; exact hk),
      List.getD_eq_getElem _ _ (by rw [hbox]; exact hk), List.getElem_map, List.getElem_range,
      UInt8.ofNat_toNat]
  have hi : r.saveState.getD 0x100 0 = r.i := by
    rw [saveState, List.getD_append_right _ _ _ _ (by rw [hbox]), hbox]
    rfl
  have hj : r.saveState.getD 0x101 0 = r.j := by
    rw [saveState, List.getD_append_right _ _ _ _ (by rw [hbox]; decide), hbox]
    rfl
  rw [loadState, hS, hi, hj]

end Rc4

/-- In every split, the chunks are masked as the whole text is by one call; every S-box on the way,
in the rounds of the key schedule and in all saved states, is a permutation; and masking twice gives
the text back. -/
theorem intercepted_rc4 (key : List UInt8) (chunks : List (List UInt8)) :
    ((interceptedRc4 key chunks).2.map Prod.fst).flatten = rc4 key chunks.flatten ∧
      (∀ rounds, (Rc4.ksaRounds key rounds).1.Bijective) ∧
      (∀ st ∈ (interceptedRc4 key chunks).1 :: (interceptedRc4 key chunks).2.map Prod.snd,
        st.length = 0x102 ∧ (Rc4.loadState st).S.Bijective) ∧
      ∀ data, rc4 key (rc4 key data) = data := by
  have hksa : (Rc4.ksa key).S.Bijective := Rc4.bijective_ksaRounds key 256
  refine ⟨?_, Rc4.bijective_ksaRounds key, fun st hst => ?_, Keystream.crypt_crypt _⟩
  · exact Keystream.cryptStored_flatten Rc4.loadState_saveState (Rc4.ksa key) chunks
  · obtain ⟨r, hr, rfl⟩ : ∃ r : Rc4, r.S.Bijective ∧ st = r.saveState := by
      rcases List.mem_cons.mp hst with rfl | hst
      · exact ⟨Rc4.ksa key, hksa, rfl⟩
      · obtain ⟨p, hp, rfl⟩ := List.mem_map.mp hst
        exact Keystream.cryptStored_keeps Rc4.loadState_saveState
          (P := fun r : Rc4 => r.S.Bijective) (fun _ => Rc4.bijective_next) hksa hp
    rw [Rc4.loadState_saveState]
    exact ⟨r.length_saveState, hr⟩

/-! ## The hooks -/

/-- `uc_mem_read` into a buffer, whose result the hooks ignore. -/
def memRead (e : Engine) (addr : ℕ) (buf : List UInt8) : List UInt8 :=
  if e.Accessible addr buf.length then slice e.byte addr buf.length else buf

/-- `uc_mem_write`, whose result the hooks ignore. -/
def memWrite (e : Engine) (addr : ℕ) (x : List UInt8) : Engine :=
  if e.Accessible addr x.length then e.setBytes addr x else e

/-- The hook at the entry of the key schedule. -/
def rc4KsaIntercept (ksaPc : ℕ) (e : Engine) (addr : ℕ) : Engine :=
  if addr ≠ ksaPc then e
  else
    let kptr := e.readUcReg (.arm64X 0)
    let klen := e.readUcReg (.arm64X 1)
    let state := e.readUcReg (.arm64X 2)
    let lr := e.readUcReg (.arm64X 30)
    -- other calls are left to the guest
    if klen = 0 ∨ 4096 < klen then e
    else
      let key := memRead e kptr (List.replicate klen 0)
      (memWrite e state (Rc4.ksa key).saveState).writeUcReg .arm64Pc lr

/-- The hook at the entry of the masking loop. The record on its stack starts with what stands
there. -/
def rc4PrgaIntercept (prgaPc : ℕ) (stack : List UInt8) (e : Engine) (addr : ℕ) : Engine :=
  if addr ≠ prgaPc then e
  else
    let buf := e.readUcReg (.arm64X 0)
    let len := e.readUcReg (.arm64X 1)
    let state := e.readUcReg (.arm64X 2)
    let lr := e.readUcReg (.arm64X 30)
    if 0x2000000 < len then e
    else
      let r := Rc4.loadState (memRead e state stack)
      let data := if len ≠ 0 then memRead e buf (List.replicate len 0) else []
      let masked := r.crypt data
      let e := if len ≠ 0 then memWrite e buf masked.1 else e
      (memWrite e state masked.2.saveState).writeUcReg .arm64Pc lr

variable {e : Engine} {addr : ℕ}

theorem memRead_of_holds {x : List UInt8} (h : e.Holds addr x) {buf : List UInt8}
    (hlength : buf.length = x.length) : memRead e addr buf = x := by
  rw [memRead, hlength, if_pos h.1, h.2]

/-- The key schedule leaves the state in the guest's record. -/
theorem rc4KsaIntercept_holds {pc : ℕ} {key : List UInt8}
    (hkey : e.Holds (e.readUcReg (.arm64X 0)) key)
    (hlen : e.readUcReg (.arm64X 1) = key.length) (hshort : 0 < key.length ∧ key.length ≤ 4096)
    (hstate : e.Accessible (e.readUcReg (.arm64X 2)) 0x102) :
    (rc4KsaIntercept pc e pc).Holds (e.readUcReg (.arm64X 2)) (Rc4.ksa key).saveState := by
  have hread : memRead e (e.readUcReg (.arm64X 0)) (List.replicate key.length 0) = key :=
    memRead_of_holds hkey List.length_replicate
  have haccess : e.Accessible (e.readUcReg (.arm64X 2)) (Rc4.ksa key).saveState.length := by
    rwa [Rc4.length_saveState]
  rw [rc4KsaIntercept, if_neg (not_not.mpr rfl)]
  simp only
  rw [hlen, if_neg (by omega), hread, memWrite, if_pos haccess]
  exact Engine.holds_setBytes haccess

/-- A call of the masking loop for a buffer beside the record. -/
structure PrgaCall (e : Engine) (state buf : ℕ) (data : List UInt8) : Prop where
  buf_eq : e.readUcReg (.arm64X 0) = buf
  len_eq : e.readUcReg (.arm64X 1) = data.length
  state_eq : e.readUcReg (.arm64X 2) = state
  short : data.length ≤ 0x2000000
  holds : e.Holds buf data
  apart : buf + data.length ≤ state ∨ state + 0x102 ≤ buf

/-- A call masks the buffer and leaves the state behind it in the record. -/
theorem rc4PrgaIntercept_holds (pc : ℕ) {state buf : ℕ} {stack data : List UInt8} {r : Rc4}
    (hstack : stack.length = 0x102) (h : PrgaCall e state buf data)
    (hstate : e.Holds state r.saveState) :
    (rc4PrgaIntercept pc stack e pc).Holds buf (r.crypt data).1 ∧
      (rc4PrgaIntercept pc stack e pc).Holds state (r.crypt data).2.saveState := by
  have hload : Rc4.loadState (memRead e state stack) = r := by
    rw [memRead_of_holds hstate (by rw [hstack, Rc4.length_saveState]), Rc4.loadState_saveState]
  have hlength : (r.crypt data).1.length = data.length := Keystream.length_crypt r data
  have haccess : e.Accessible buf (r.crypt data).1.length := by
    rw [hlength]
    exact h.holds.1
  -- an empty buffer is neither read nor written
  have hdata : (if data.length ≠ 0 then memRead e buf (List.replicate data.length 0) else []) =
      data := by
    split
    · exact memRead_of_holds h.holds List.length_replicate
    next hempty => exact (List.length_eq_zero_iff.mp (not_not.mp hempty)).symm
  have hwrite : (if data.length ≠ 0 then memWrite e buf (r.crypt data).1 else e) =
      e.setBytes buf (r.crypt data).1 := by
    split
    · exact if_pos haccess
    next hempty =>
      rw [not_not] at hempty
      rw [List.length_eq_zero_iff.mp (hlength.trans hempty), Engine.setBytes_nil]
  have hrecord : (e.setBytes buf (r.crypt data).1).Accessible state
      (r.crypt data).2.saveState.length := by
    rw [Rc4.length_saveState, ← r.length_saveState]
    exact hstate.1
  rw [rc4PrgaIntercept, if_neg (not_not.mpr rfl)]
  simp only [h.buf_eq, h.len_eq, h.state_eq]
  rw [if_neg (Nat.not_lt.mpr h.short), hload, hdata, hwrite, memWrite, if_pos hrecord]
  constructor
  · refine (Engine.holds_setBytes haccess).setBytes ?_
    rw [Rc4.length_saveState, hlength]
    exact h.apart.symm
  · exact Engine.holds_setBytes hrecord

/-- Calls of the masking loop, one after the other, with what stood in their buffers before and
behind each. Between the calls the guest may do anything that keeps the record. -/
inductive Decrypts (pc : ℕ) (stack : List UInt8) (state : ℕ) :
    Engine → List (List UInt8) → List (List UInt8) → Prop
  | nil (e : Engine) : Decrypts pc stack state e [] []
  | cons {e e' : Engine} {buf : ℕ} {data masked : List UInt8} {chunks outputs : List (List UInt8)}
      (hguest : ∀ x : List UInt8, x.length = 0x102 → e.Holds state x → e'.Holds state x)
      (hcall : PrgaCall e' state buf data) (hlength : masked.length = data.length)
      (hmasked : (rc4PrgaIntercept pc stack e' pc).Holds buf masked)
      (hrest : Decrypts pc stack state (rc4PrgaIntercept pc stack e' pc) chunks outputs) :
      Decrypts pc stack state e (data :: chunks) (masked :: outputs)

/-- The calls mask their buffers as one call would mask all of them together. -/
theorem Decrypts.flatten_eq {pc state : ℕ} {stack : List UInt8} {chunks outputs : List (List UInt8)}
    (h : Decrypts pc stack state e chunks outputs) (hstack : stack.length = 0x102) {r : Rc4}
    (hstate : e.Holds state r.saveState) : outputs.flatten = (r.crypt chunks.flatten).1 := by
  induction h generalizing r with
  | nil => rfl
  | @cons e e' buf data masked chunks outputs hguest hcall hlength hmasked _ ih =>
    obtain ⟨hbuf, hrecord⟩ := rc4PrgaIntercept_holds pc hstack hcall
      (hguest _ r.length_saveState hstate)
    have hsame : masked = (r.crypt data).1 := by
      have hsizes : (r.crypt data).1.length = data.length := Keystream.length_crypt r data
      rw [← hmasked.2, ← hbuf.2, hlength, hsizes]
    rw [List.flatten_cons, List.flatten_cons, ih hrecord, hsame]
    exact (congrArg Prod.fst (Keystream.crypt_append r data chunks.flatten)).symm

/-- The key schedule, then any calls of the masking loop: together they mask as one call with the
key, so that a masked text comes out in the clear. -/
theorem hooks_decrypt {ksaPc prgaPc state : ℕ} {key stack : List UInt8}
    {chunks outputs : List (List UInt8)} (hkey : e.Holds (e.readUcReg (.arm64X 0)) key)
    (hlen : e.readUcReg (.arm64X 1) = key.length) (hshort : 0 < key.length ∧ key.length ≤ 4096)
    (hstate : e.readUcReg (.arm64X 2) = state) (haccess : e.Accessible state 0x102)
    (hstack : stack.length = 0x102)
    (h : Decrypts prgaPc stack state (rc4KsaIntercept ksaPc e ksaPc) chunks outputs) :
    outputs.flatten = rc4 key chunks.flatten ∧
      ∀ text, chunks.flatten = rc4 key text → outputs.flatten = text := by
  subst hstate
  have hmasked := h.flatten_eq hstack (rc4KsaIntercept_holds hkey hlen hshort haccess)
  refine ⟨hmasked, fun text htext => ?_⟩
  rw [hmasked, htext]
  exact Keystream.crypt_crypt _ text

/-- A key and a text of one zero, in one buffer. -/
theorem hooks_decrypt_zero :
    let e := ((((Engine.fresh .arm64).mapPages 0 0x1000 3).writeUcReg (.arm64X 1) 1).writeUcReg
      (.arm64X 2) 0x100)
    ∃ outputs, Decrypts 8 (List.replicate 0x102 0) 0x100 (rc4KsaIntercept 4 e 4) [[0]] outputs ∧
      outputs.flatten = rc4 [0] [0] := by
  intro e
  have hkey : e.Holds 0 [0] := by decide +kernel
  have haccess : e.Accessible 0x100 0x102 := by decide +kernel
  have hstack : (List.replicate 0x102 (0 : UInt8)).length = 0x102 := List.length_replicate
  have hstate : (rc4KsaIntercept 4 e 4).Holds 0x100 (Rc4.ksa [0]).saveState :=
    rc4KsaIntercept_holds hkey rfl (by decide) haccess
  have hcall : PrgaCall (rc4KsaIntercept 4 e 4) 0x100 0 [0] := by
    constructor <;> decide +kernel
  obtain ⟨hbuf, -⟩ := rc4PrgaIntercept_holds 8 hstack hcall hstate
  have hrun := Decrypts.cons (fun _ _ hx => hx) hcall (Keystream.length_crypt _ _) hbuf (.nil _)
  exact ⟨_, hrun, (hooks_decrypt hkey rfl (by decide) rfl haccess hstack hrun).1⟩

end Vardoger.Extractor
