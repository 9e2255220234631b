import Vardoger.Android.AllocStubs
import Vardoger.Base.Runs
import Vardoger.Engine.HeapReady

/-!
# Allocation failure

A guest that asks for memory should get a null result, an error code or usable memory, and the
handler should return in any case. The handlers meet this as long as each request fits: the sums of
the heap do not wrap, and the range a dedicated mapping would get is free. A request that does not
fit makes the allocator throw, or makes it hand out less than was asked for.
-/

namespace Vardoger

open Stateful Words Runs

namespace Memory

variable {m : Memory} {n : ℕ}

/-! ## The entry points -/

/-- A `malloc` that can be answered. A small request that finds neither room nor a free arena is
mapped on its own. -/
def MallocFits (cfg : AllocConfig) (m : Memory) (n : ℕ) : Prop :=
  if cfg.legacyMalloc then HeapServes m n kHeapAlign
  else if n ≥ kBigAlloc then BigFits m n
  else HeapServes m n kHeapAlign ∧ (NoRoom m.heapMapped n kHeapAlign →
    if ArenaFree m.heapMapped n then
      nextArena m.heapMapped n ≠ 0 ∧ nextArena m.heapMapped n + arenaSize n ≠ 2 ^ 64
    else BigFits m.heapMapped (if n = 0 then 1 else n))

instance (cfg : AllocConfig) : Decidable (MallocFits cfg m n) :=
  inferInstanceAs (Decidable (ite _ _ _))

/-- A small request that the current arena can hold is one of them. -/
theorem mallocFits_of_room (cfg : AllocConfig) (hsmall : n < kBigAlloc)
    (hserves : HeapServes m n kHeapAlign) (hroom : ¬NoRoom m.heapMapped n kHeapAlign) :
    MallocFits cfg m n := by
  unfold MallocFits
  split
  · exact hserves
  · rw [if_neg (not_le.mpr hsmall)]
    exact ⟨hserves, fun hfull => absurd hfull hroom⟩

theorem HeapReady.bigOrHeap_hands (cfg : AllocConfig) (h : HeapReady m) (hn : n < 2 ^ 64)
    (hfits : MallocFits cfg m n) : Hands m n (Stubs.bigOrHeap cfg n m) := by
  unfold MallocFits at hfits
  unfold Stubs.bigOrHeap
  by_cases hlegacy : cfg.legacyMalloc
  · rw [if_pos hlegacy] at hfits ⊢
    exact h.heapAlloc_hands (k := 4) (by decide) hfits
  rw [if_neg hlegacy] at hfits ⊢
  by_cases hbig : n ≥ kBigAlloc
  · rw [if_pos hbig] at hfits ⊢
    exact h.bigAlloc_hands _ hn hfits
  rw [if_neg hbig] at hfits ⊢
  obtain ⟨hserves, hfallback⟩ := hfits
  obtain ⟨hready, -, habi⟩ := h.mapped hserves.1
  have hcarved := h.carved (k := 4) (by decide) hserves
  cases hresult : heapAlloc n kHeapAlign m with
  | error err m' =>
    rw [show kHeapAlign = 2 ^ 4 from rfl] at hresult
    rw [hresult] at hcarved
    cases hcarved
  | ok p m' =>
    rw [bind_ok hresult]
    rw [show kHeapAlign = 2 ^ 4 from rfl] at hresult
    rw [hresult] at hcarved
    cases hcarved with
    | block hne hready' habi' hlow hlends =>
      rw [habi] at habi' hlow
      rw [if_pos hne]
      exact ⟨hready', habi', hlow, .inr hlends⟩
    | full hfull harena =>
      have hbigfits := hfallback hfull
      rw [if_neg harena] at hbigfits
      rw [if_neg (by decide)]
      have hhands := hready.bigAlloc_hands "malloc-of" (by split <;> omega) hbigfits
      unfold Hands at hhands ⊢
      rw [habi] at hhands
      refine Hands.mono hhands (?_ : n ≤ if n = 0 then 1 else n)
      split
      · omega
      · exact le_refl _
    | lost hfull harena hplace =>
      have hgood := hfallback hfull
      rw [if_pos harena] at hgood
      rcases hplace with hnull | htop
      · exact absurd hnull hgood.1
      · exact absurd htop hgood.2

/-- The handler returned, with null, an error code or the address of `n` usable bytes. -/
def Served (n : ℕ) : EStateM.Result Failure Memory Unit → Prop
  | .ok _ m => m.engine.ret = 0 ∨ 2 ^ m.engine.abi.bits - 4095 ≤ m.engine.ret ∨
      m.engine.Lends m.engine.ret n
  | .error _ _ => False

/-- The result of an allocator becomes the result of the handler. -/
theorem Hands.served {x : MemM ℕ} (h : Hands m n (x m)) :
    HeapReady (final ((x >>= fun r => writeReg .ret0 r) m)) ∧
      Served n ((x >>= fun r => writeReg .ret0 r) m) := by
  cases hx : x m with
  | error err m' =>
    rw [hx] at h
    exact h.elim
  | ok p m' =>
    rw [hx] at h
    obtain ⟨hready, habi, hlow, hlends⟩ := h
    rw [bind_ok hx, writeReg_ret0]
    refine ⟨hready, ?_⟩
    have hret : (m'.setRet p).engine.ret = p := by
      rw [setRet, Engine.ret_setRet, habi, Nat.mod_eq_of_lt hlow]
    change (m'.setRet p).engine.ret = 0 ∨ _ ∨ (m'.setRet p).engine.Lends _ n
    rw [hret]
    rcases hlends with rfl | hlends
    · exact .inl rfl
    · exact .inr (.inr hlends)

/-! ## Moving a block -/

/-- Copying `n` bytes to a block, and returning it. -/
def copyTo (src n np : ℕ) : MemM Unit := do
  if n ≠ 0 ∧ np ≠ 0 then
    let b ← Memory.read src n
    write np b
  writeReg .ret0 np

theorem realloc_null {cfg : AllocConfig} (habi : m.engine.abi ≠ .x86) (hnull : m.engine.arg 0 = 0) :
    Stubs.realloc cfg m = (Stubs.bigOrHeap cfg (m.engine.arg 1) >>= writeReg .ret0) m := by
  rw [Stubs.realloc, bind_ok (readReg_a0 habi), bind_ok (readReg_a1 habi), if_pos hnull]

theorem realloc_eq {cfg : AllocConfig} (habi : m.engine.abi ≠ .x86)
    (hnull : m.engine.arg 0 ≠ 0) :
    Stubs.realloc cfg m =
      (Stubs.bigOrHeap cfg (m.engine.arg 1) >>= copyTo (m.engine.arg 0) (m.engine.arg 1)) m := by
  rw [Stubs.realloc, bind_ok (readReg_a0 habi), bind_ok (readReg_a1 habi), if_neg hnull]
  rfl

end Memory

namespace AllocEntry

open Memory

variable {m : Memory}

/-- The number of bytes an entry asks for; a block that is moved is not considered. -/
def requested (e : Engine) : AllocEntry → Option ℕ
  | .malloc => some (e.arg 0)
  | .calloc => some (e.arg 0 * e.arg 1)
  | .realloc => if e.arg 0 = 0 then some (e.arg 1) else none
  | .opNew => some (e.arg 0)
  | .mmap len _ => some len.toNat

/-- The conditions under which an entry is served. The stubs need argument registers; a product must
not wrap; a mapping must ask for reading and writing, or for nothing. -/
def Fits (cfg : AllocConfig) (m : Memory) : AllocEntry → Prop
  | .malloc => m.engine.abi ≠ .x86 ∧ MallocFits cfg m (m.engine.arg 0)
  | .calloc => m.engine.abi ≠ .x86 ∧ m.engine.arg 0 * m.engine.arg 1 < 2 ^ 64 ∧
      MallocFits cfg m (m.engine.arg 0 * m.engine.arg 1)
  | .realloc => m.engine.abi ≠ .x86 ∧ MallocFits cfg m (m.engine.arg 1)
  | .opNew => m.engine.abi ≠ .x86 ∧
      HeapServes m (if m.engine.arg 0 = 0 then 1 else m.engine.arg 0) kHeapAlign
  | .mmap len prot =>
      (prot.toNat % 2 ^ 32 = 0 ∨ prot.toNat % 2 ^ 32 = ucProtRw ∨
        prot.toNat % 2 ^ 32 = ucProtAll) ∧ MmapFits m len.toNat

instance (cfg : AllocConfig) (m : Memory) : (entry : AllocEntry) → Decidable (entry.Fits cfg m)
  | .malloc => inferInstanceAs (Decidable (_ ∧ _))
  | .calloc => inferInstanceAs (Decidable (_ ∧ _ ∧ _))
  | .realloc => inferInstanceAs (Decidable (_ ∧ _))
  | .opNew => inferInstanceAs (Decidable (_ ∧ _))
  | .mmap _ _ => inferInstanceAs (Decidable ((_ ∨ _ ∨ _) ∧ _))

/-- The protections considered give both rights, whether or not execution is stripped. -/
theorem mmapProt_rw (cfg : AllocConfig) {prot : ℕ} (h : prot % 2 ^ 32 = 0 ∨
    prot % 2 ^ 32 = ucProtRw ∨ prot % 2 ^ 32 = ucProtAll) :
    Syscalls.mmapProt cfg prot &&& ucProtRw = ucProtRw := by
  unfold Syscalls.mmapProt
  generalize cfg.wx = wx
  generalize prot % 2 ^ 32 = low at h
  rcases h with rfl | rfl | rfl
  · revert wx
    decide
  · revert wx
    decide
  · revert wx
    decide

/-- Moving a block after the allocation touches neither protections nor the heap. -/
theorem copyTo_moves (p n np : ℕ) : Moves (KeepsRw fun _ => True) (copyTo p n np) := by
  have hread : Moves (KeepsRw fun _ => True) (Memory.read p n) := by
    intro m
    unfold Memory.read
    cases m.engine.read p n with
    | ok bytes => exact refl_of (KeepsRw _) m
    | error err => exact refl_of (KeepsRw _) m
  have hwrite (b : List UInt8) : Moves (KeepsRw fun _ => True) (write np b) :=
    (keepsRw_primitive _).onEngine _ fun e e' h => Engine.prot_write h
  have hret : Moves (KeepsRw fun _ => True) (writeReg .ret0 np) :=
    (keepsRw_primitive _).onEngine _ fun e e' h => Engine.prot_writeReg h
  refine moves_ite ?_ hret
  exact moves_bind hread fun b => moves_bind (hwrite b) fun _ => hret

/-- An entry that fits is served and keeps the heap in order. -/
theorem run_served {cfg : AllocConfig} {entry : AllocEntry} (h : HeapReady m)
    (hargs : m.engine.abi ≠ .x86 → ∀ i, m.engine.arg i < 2 ^ 64) (hfits : entry.Fits cfg m) :
    HeapReady (final (entry.run cfg m)) ∧
      ∀ n, entry.requested m.engine = some n → Served n (entry.run cfg m) := by
  cases entry with
  | malloc =>
    obtain ⟨habi, hfits⟩ := hfits
    simp only [run, Stubs.malloc, requested, Option.some.injEq]
    rw [bind_ok (readReg_a0 habi)]
    have hserved := (h.bigOrHeap_hands cfg (hargs habi 0) hfits).served
    exact ⟨hserved.1, fun n hn => hn ▸ hserved.2⟩
  | calloc =>
    obtain ⟨habi, hsmall, hfits⟩ := hfits
    simp only [run, Stubs.calloc, requested, Option.some.injEq]
    rw [bind_ok (readReg_a0 habi), bind_ok (readReg_a1 habi), Nat.mod_eq_of_lt hsmall]
    have hserved := (h.bigOrHeap_hands cfg hsmall hfits).served
    exact ⟨hserved.1, fun n hn => hn ▸ hserved.2⟩
  | realloc =>
    obtain ⟨habi, hfits⟩ := hfits
    have hhands := h.bigOrHeap_hands cfg (hargs habi 1) hfits
    by_cases hnull : m.engine.arg 0 = 0
    · simp only [run, requested, realloc_null habi hnull, if_pos hnull, Option.some.injEq]
      exact ⟨hhands.served.1, fun n hn => hn ▸ hhands.served.2⟩
    · simp only [run, requested, realloc_eq habi hnull, if_neg hnull]
      refine ⟨?_, fun n hn => by cases hn⟩
      cases hx : Stubs.bigOrHeap cfg (m.engine.arg 1) m with
      | error err m' =>
        rw [hx] at hhands
        exact hhands.elim
      | ok np m' =>
        rw [hx] at hhands
        rw [bind_ok hx]
        exact hhands.1.keep (copyTo_moves _ _ np m') fun _ _ _ => trivial
  | opNew =>
    obtain ⟨habi, hfits⟩ := hfits
    simp only [run, Stubs.opNew, requested, Option.some.injEq]
    rw [bind_ok (readReg_a0 habi)]
    have hserved := (h.heapAlloc_hands (k := 4) (by decide) hfits).mono
      (n := m.engine.arg 0) (by split <;> omega)
    exact ⟨hserved.served.1, fun n hn => hn ▸ hserved.served.2⟩
  | mmap len prot =>
    obtain ⟨hprot, hfits⟩ := hfits
    simp only [run, Syscalls.mmap, requested, Option.some.injEq]
    have hserved := (h.mmapAlloc_hands "mmap (syscall)" (mmapProt_rw cfg hprot) hfits).served
    exact ⟨hserved.1, fun n hn => hn ▸ hserved.2⟩

end AllocEntry

/-! ## Whole runs -/

namespace Memory

variable {m : Memory}

/-- The steps considered: entries that fit, and calls that leave the heap in order. -/
def StepFits (cfg : AllocConfig) (m : Memory) : AllocStep → Prop
  | .call call => call.Orderly m
  | .enter byte regs entry => entry.Fits cfg (m.guest byte regs)

/-- What a step owes the guest: an entry that asks for memory is served. -/
def StepServed (cfg : AllocConfig) (m : Memory) : AllocStep → Prop
  | .call _ => True
  | .enter byte regs entry => ∀ n, entry.requested (m.guest byte regs).engine = some n →
      Served n (entry.run cfg (m.guest byte regs))

theorem arg_guest_lt (m : Memory) (byte : ℕ → UInt8) (regs : UcReg → UInt64)
    (habi : m.engine.abi ≠ .x86) (i : Fin 2) : (m.guest byte regs).engine.arg i < 2 ^ 64 := by
  have hreg (r : UcReg) : (regs r).toNat % 2 ^ r.bits < 2 ^ 64 :=
    lt_of_le_of_lt (Nat.mod_le _ _) (regs r).toNat_lt
  cases habi' : m.engine.abi with
  | arm64 =>
    simp only [Engine.arg, guest, habi']
    exact hreg _
  | arm32 =>
    simp only [Engine.arg, guest, habi']
    exact hreg _
  | x86 => exact absurd habi' habi
  | x8664 =>
    simp only [Engine.arg, guest, habi']
    split
    · exact hreg _
    · exact hreg _

/-- One step that fits is served and keeps the heap in order. -/
theorem HeapReady.step {cfg : AllocConfig} {step : AllocStep} (h : HeapReady m)
    (hfits : StepFits cfg m step) :
    HeapReady (allocStep cfg m step) ∧ StepServed cfg m step := by
  cases step with
  | call call => exact ⟨h.call hfits, trivial⟩
  | enter byte regs entry =>
    exact AllocEntry.run_served (m := m.guest byte regs) h (arg_guest_lt m byte regs) hfits

/-- In every run whose steps fit, from a fresh memory, every entry of the guest returns normally,
with null, an error code or the address of as many usable bytes as it asked for. -/
theorem allocations_served (cfg : AllocConfig) (abi : Abi) (lowLibBase tight : Bool)
    (steps : List AllocStep)
    (hfits : Steps (fun m step => some (allocStep cfg m step)) (StepFits cfg)
      (init abi lowLibBase tight) steps) :
    Steps (fun m step => some (allocStep cfg m step)) (StepServed cfg)
      (init abi lowLibBase tight) steps := by
  have hinit : HeapReady (init abi lowLibBase tight) := fun h => absurd rfl h
  refine Steps.imp (I := HeapReady) (fun m step m' hm hstep hnext => ?_) hinit hfits
  obtain rfl := Option.some.inj hnext
  exact hm.step hstep

/-- Registers that pass `n` as the first argument of an arm64 call. -/
def firstArg (n : UInt64) : UcReg → UInt64 := fun r => if r = .arm64X 0 then n else 0

/-- A small request to a fresh memory is one such run. -/
theorem allocations_served_small :
    let steps : List AllocStep := [.enter (fun _ => 0) (firstArg 24) .malloc]
    Steps (fun m step => some (allocStep ⟨false, false⟩ m step)) (StepFits ⟨false, false⟩)
        (init .arm64 false false) steps ∧
      Steps (fun m step => some (allocStep ⟨false, false⟩ m step)) (StepServed ⟨false, false⟩)
        (init .arm64 false false) steps := by
  intro steps
  have husable : HeapUsable ((init .arm64 false false).guest (fun _ => 0) (firstArg 24)) := by
    intro _
    refine Engine.mappable_of_not_mapped (by decide) (by decide) (by decide) (by decide) ?_
    simp [init, guest, Engine.fresh, Engine.Mapped]
  have hfits : Steps (fun m step => some (allocStep ⟨false, false⟩ m step))
      (StepFits ⟨false, false⟩) (init .arm64 false false) steps := by
    refine ⟨⟨by decide, ?_⟩, _, rfl, trivial⟩
    have harg : ((init .arm64 false false).guest (fun _ => 0) (firstArg 24)).engine.arg 0 = 24 := by
      decide
    rw [harg]
    exact mallocFits_of_room ⟨false, false⟩ (by decide) ⟨husable, by decide, by decide⟩ (by decide)
  exact ⟨hfits, allocations_served ⟨false, false⟩ .arm64 false false steps hfits⟩

/-- An absurd length makes `malloc` throw if the area of the large requests cannot hold it. -/
theorem malloc_throws (cfg : AllocConfig) (habi : m.engine.abi ≠ .x86)
    (hlegacy : cfg.legacyMalloc = false) (hlen : 2 ^ 32 < m.engine.arg 0)
    (hover : add64 m.bigNext (mapSize (m.engine.arg 0)) > kMmapBase) :
    ∃ err, Stubs.malloc cfg m = .error err m := by
  have hbig : m.engine.arg 0 ≥ kBigAlloc := le_trans (by decide) hlen.le
  obtain ⟨-, -, -, -, ⟨-, err, hthrow⟩ | ⟨hle, -⟩⟩ :=
    mmapAlloc_cases (m.engine.arg 0) ucProtRw "malloc-big" m
  · refine ⟨err, (bind_ok (readReg_a0 habi)).trans (bind_error ?_)⟩
    rw [Stubs.bigOrHeap, if_neg (by simp [hlegacy]), if_pos hbig, bigAlloc_over hover, hthrow]
  · omega

/-- A request for eight gibibytes makes the handler throw. -/
theorem malloc_of_absurd_size :
    ¬Steps (fun m step => some (allocStep ⟨false, false⟩ m step)) (StepServed ⟨false, false⟩)
      (init .arm64 false false) [.enter (fun _ => 0) (firstArg 0x200000000) .malloc] := by
  rintro ⟨hserved, -⟩
  obtain ⟨err, hthrow⟩ := malloc_throws ⟨false, false⟩
    (m := (init .arm64 false false).guest (fun _ => 0) (firstArg 0x200000000))
    (by decide) rfl (by decide) (by decide)
  have hresult := hserved _ rfl
  change Served _ (Stubs.malloc _ _) at hresult
  rw [hthrow] at hresult
  exact hresult

end Memory

end Vardoger
