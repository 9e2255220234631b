import Vardoger.Android.StringStubs

/-!
# The allocation stubs

`malloc`, `calloc`, `realloc` and `operator new` pass their size to the heap or, above a threshold,
to a region of its own; an anonymous `mmap` passes it to `mmap_alloc`. The handlers run inside the
emulator and catch nothing. `free` and `munmap` do nothing and are left out.
-/

namespace Vardoger

open Words

/-- The environment variables that change an allocation. -/
structure AllocConfig where
  /-- Whether `VARDOGER_LEGACY_MALLOC` is set. -/
  legacyMalloc : Bool
  /-- Whether `VARDOGER_WX` is set. -/
  wx : Bool

/-- From this size on, `malloc` maps a dedicated region. -/
def kBigAlloc : ℕ := 0x400000

namespace Memory

/-- The default alignment of `heap_alloc`. -/
def kHeapAlign : ℕ := 16

end Memory

namespace Stubs

open Memory

def bigOrHeap (cfg : AllocConfig) (n : ℕ) : MemM ℕ := do
  if cfg.legacyMalloc then
    heapAlloc n kHeapAlign
  else if n ≥ kBigAlloc then
    bigAlloc n ucProtRw "malloc-big"
  else
    let r ← heapAlloc n kHeapAlign
    if r ≠ 0 then
      return r
    else
      bigAlloc (if n = 0 then 1 else n) ucProtRw "malloc-of"

def malloc (cfg : AllocConfig) : MemM Unit := do
  let n ← readReg .a0
  let r ← bigOrHeap cfg n
  writeReg .ret0 r

/-- The product of the two arguments is taken in 64 bits. -/
def calloc (cfg : AllocConfig) : MemM Unit := do
  let count ← readReg .a0
  let size ← readReg .a1
  let r ← bigOrHeap cfg (count * size % 2 ^ 64)
  writeReg .ret0 r

/-- The old size is not known, so as many bytes are copied as the new block has. -/
def realloc (cfg : AllocConfig) : MemM Unit := do
  let p ← readReg .a0
  let n ← readReg .a1
  if p = 0 then
    let r ← bigOrHeap cfg n
    writeReg .ret0 r
  else
    let np ← bigOrHeap cfg n
    if n ≠ 0 ∧ np ≠ 0 then
      let b ← read p n
      write np b
    writeReg .ret0 np

/-- `_Znwm` and `_Znam`. -/
def opNew : MemM Unit := do
  let n ← readReg .a0
  let r ← heapAlloc (if n = 0 then 1 else n) kHeapAlign
  writeReg .ret0 r

end Stubs

namespace Syscalls

open Memory

/-- The protection of a fresh mapping: the low word of the argument, or read and write if it is
zero, without the right to execute if that is to be kept apart from writing. -/
def mmapProt (cfg : AllocConfig) (prot : ℕ) : ℕ :=
  let mp := if prot % 2 ^ 32 ≠ 0 then prot % 2 ^ 32 else 3
  if cfg.wx ∧ mp &&& ucProtWrite ≠ 0 ∧ mp &&& ucProtExec ≠ 0 then
    mp &&& (2 ^ 32 - 1 - ucProtExec)
  else mp

/-- The case of an anonymous `mmap` without `MAP_FIXED`. -/
def mmap (cfg : AllocConfig) (len prot : ℕ) : MemM Unit := do
  let addr ← mmapAlloc len (mmapProt cfg prot) "mmap (syscall)"
  writeReg .ret0 addr

end Syscalls

/-! ## Runs of a guest that allocates -/

/-- The entry points by which a guest allocates. -/
inductive AllocEntry
  | malloc | calloc | realloc | opNew
  | mmap (len prot : UInt64)
  deriving DecidableEq

def AllocEntry.run (cfg : AllocConfig) : AllocEntry → MemM Unit
  | .malloc => Stubs.malloc cfg
  | .calloc => Stubs.calloc cfg
  | .realloc => Stubs.realloc cfg
  | .opNew => Stubs.opNew
  | .mmap len prot => Syscalls.mmap cfg len.toNat prot.toNat

/-- One step of a run: a call of the runtime to the memory manager, or an entry of the guest, which
has before changed its memory and registers at will. -/
inductive AllocStep
  | call (call : Memory.Call)
  | enter (byte : ℕ → UInt8) (regs : UcReg → UInt64) (entry : AllocEntry)

namespace Memory

/-- The state after guest code ran: other bytes and other registers. -/
def guest (m : Memory) (byte : ℕ → UInt8) (regs : UcReg → UInt64) : Memory :=
  { m with
    engine := { m.engine with byte, reg := fun r => (regs r).toNat % 2 ^ r.bits } }

/-- The state after one step, whether or not it threw. -/
def allocStep (cfg : AllocConfig) (m : Memory) : AllocStep → Memory
  | .call call => Stateful.final (call.run m)
  | .enter byte regs entry => Stateful.final (entry.run cfg (m.guest byte regs))

end Memory

end Vardoger
