import Vardoger.Base.Bytes
import Vardoger.Base.Stateful
import Vardoger.Engine.Engine
import Mathlib.Data.List.Sort

/-!
# The virtual memory manager

`Memory` adds bump allocators and a tagged region table to the engine. Its operations run in
`EStateM`: a C++ exception ends the call but keeps what was done before it, and so does an
`error` result here. Each operation maps pages through the engine first and records the region
afterwards, so the two can only differ if one of the two steps is skipped.
-/

namespace Vardoger

open Words

def ucProtRead : ℕ := 1
def ucProtWrite : ℕ := 2
def ucProtExec : ℕ := 4

/-- `UC_PROT_READ | UC_PROT_WRITE`. -/
def ucProtRw : ℕ := ucProtRead ||| ucProtWrite

/-- `UC_PROT_ALL`. -/
def ucProtAll : ℕ := ucProtRead ||| ucProtWrite ||| ucProtExec

/-- What a region is for. -/
inductive Kind
  | lib | stack | heap | mmap | trampoline | java | tls | kuser | fini | other
  deriving DecidableEq, Repr

/-- One entry of the region table. -/
structure Region where
  base : ℕ
  size : ℕ
  prot : ℕ
  kind : Kind
  label : String
  deriving DecidableEq, Repr

/-- The memory manager: the engine below it, the region table and the allocation cursors. -/
structure Memory where
  engine : Engine
  regions : List Region
  libNext : ℕ
  mmapNext : ℕ
  bigNext : ℕ
  /-- `0` until the heap is first mapped. -/
  heapNext : ℕ
  heapEnd : ℕ
  /-- `0` until the Java region is first mapped. -/
  javaNext : ℕ
  javaEnd : ℕ
  /-- Whether `VARDOGER_HEAP_TIGHT` is set. -/
  tight : Bool

abbrev MemM := EStateM Failure Memory

namespace Memory

/-- The state a constructor leaves: nothing mapped, every cursor at its base. -/
def init (abi : Abi) (lowLibBase tight : Bool) : Memory where
  engine := .fresh abi
  regions := []
  libNext := if (abi = .arm64 ∨ abi = .x8664) ∧ lowLibBase = false then kLibBase64 else kLibBase
  mmapNext := kMmapBase
  bigNext := kBigMallocBase
  heapNext := 0
  heapEnd := 0
  javaNext := 0
  javaEnd := 0
  tight := tight


end Memory

/-- The end of a region as the code computes it, in 64 bits. -/
def Region.limit (r : Region) : ℕ := add64 r.base r.size

/-- The overlap test of the allocators against the range from `base` to `stop`. -/
def Region.clashes (base stop : ℕ) (r : Region) : Bool := base < r.limit && r.base < stop

/-- The first region that holds an address. -/
def regionOf (regions : List Region) (addr : ℕ) : Option Region :=
  regions.find? fun r => r.base ≤ addr && addr < r.limit

/-- Whether the region table has an entry for an address. -/
def isMapped (regions : List Region) (addr : ℕ) : Bool := (regionOf regions addr).isSome

namespace Memory

/-- Run an engine operation inside the memory manager. -/
def onEngine (f : Engine → Except Failure Engine) : MemM Unit := fun m =>
  match f m.engine with
  | .ok e => .ok () { m with engine := e }
  | .error err => .error err m

/-- The state after mapping and recording a range. -/
def addRegion (m : Memory) (r : Region) : Memory :=
  { m with
    engine := m.engine.mapPages r.base r.size r.prot
    regions := m.regions.orderedInsert (fun a b => a.base < b.base) r }

/-- Insert a region after the entries whose base is not larger (`std::upper_bound`). -/
def insertRegion (r : Region) : MemM Unit :=
  modify fun m => { m with regions := m.regions.orderedInsert (fun a b => a.base < b.base) r }

/-- The step all allocators share: map the range, then record it. -/
def mapRegion (r : Region) : MemM Unit := do
  onEngine (·.map r.base r.size r.prot)
  insertRegion r

/-- Either the engine refuses the range and nothing happens, or it is mapped and recorded. -/
theorem mapRegion_apply (r : Region) (m : Memory) :
    mapRegion r m = if m.engine.Mappable r.base r.size then .ok () (m.addRegion r)
      else .error (.engine "uc_mem_map") m := by
  by_cases h : m.engine.Mappable r.base r.size
  · have hmap : onEngine (·.map r.base r.size r.prot) m =
        .ok () { m with engine := m.engine.mapPages r.base r.size r.prot } := by
      simp only [onEngine, Engine.map, if_pos h]
    rw [if_pos h, mapRegion, Stateful.bind_ok hmap]
    rfl
  · have hmap : onEngine (·.map r.base r.size r.prot) m = .error (.engine "uc_mem_map") m := by
      simp only [onEngine, Engine.map, if_neg h]
    rw [if_neg h, mapRegion, Stateful.bind_error hmap]

def mapFixed (addr len prot : ℕ) (kind : Kind) (label : String) : MemM ℕ := do
  let base := pageAlignDown addr
  let stop := pageAlignUp (add64 addr len)
  let size := sub64 stop base
  let m ← get
  match m.regions.find? (Region.clashes base stop) with
  | some r =>
      throw (.runtime ("map_fixed: [" ++ label ++ "] overlaps existing region [" ++ r.label ++ "]"))
  | none =>
      mapRegion ⟨base, size, prot, kind, label⟩
      return base

/-- The search of `mmap_alloc`: while some region overlaps, retry behind the first such region. -/
def skipClashes (regions : List Region) (size : ℕ) : ℕ → ℕ → ℕ
  | 0, base => base
  | tries + 1, base =>
      match regions.find? (Region.clashes base (add64 base size)) with
      | some r => skipClashes regions size tries r.limit
      | none => base

def mmapAlloc (len prot : ℕ) (label : String) : MemM ℕ := do
  if len > 2 ^ 32 then
    throw (.runtime "mmap_alloc: absurd len (bogus/mis-resolved call)")
  let size := pageAlignUp (if len = 0 then 1 else len)
  let m ← get
  let base := skipClashes m.regions size 4096 m.mmapNext
  mapRegion ⟨base, size, prot, .mmap, label⟩
  modify fun m => { m with mmapNext := add64 base size }
  return base

def bigAlloc (len prot : ℕ) (label : String) : MemM ℕ := do
  let size := pageAlignUp (if len = 0 then 1 else len)
  let m ← get
  if add64 m.bigNext size > kMmapBase then
    mmapAlloc len prot label
  else
    let base := m.bigNext
    mapRegion ⟨base, size, prot, .mmap, label⟩
    modify fun m => { m with bigNext := add64 base size }
    return base

def mapLib (total prot : ℕ) (label : String) : MemM ℕ := do
  let m ← get
  let base := m.libNext
  let size := pageAlignUp total
  mapRegion ⟨base, size, prot, .lib, label⟩
  modify fun m => { m with libNext := add64 (add64 base size) kPageSize }
  return base

def setupStack (len : ℕ) : MemM ℕ := do
  let size := pageAlignUp len
  let base := sub64 kStackTop size
  mapRegion ⟨base, size, ucProtRw, .stack, "stack"⟩
  let sp := maskDown (kStackTop - 16) 16
  onEngine (·.writeReg .sp sp)
  return sp

def setupTls : MemM ℕ := do
  mapRegion ⟨kTlsBase, kTlsSize, ucProtRw, .tls, "tls"⟩
  onEngine (·.write kTlsBase (LittleEndian.toBytes 8 kTlsBase))
  onEngine (·.write (kTlsBase + 0x28) (LittleEndian.toBytes 8 0x1122334455667788))
  onEngine fun e =>
    .ok (e.writeUcReg (if e.abi = .arm64 then .arm64TpidrEl0 else .armC13C03) kTlsBase)
  return kTlsBase

/-- Map the heap region on first use. -/
def heapInit : MemM Unit := do
  let m ← get
  if m.heapNext = 0 then
    mapRegion ⟨kHeapBase, kHeapSize, ucProtRw, .heap, "heap"⟩
    modify fun m => { m with heapNext := kHeapBase, heapEnd := kHeapBase + kHeapSize }

/-- Advance the heap cursor past a block: exactly, or with its size-class rounding and gap. -/
def heapTake (p len : ℕ) : MemM ℕ := do
  modify fun m =>
    { m with
      heapNext :=
        if m.tight then add64 p len else add64 (add64 p (maskDown (add64 len 0x1f) 0x20)) 16 }
  return p

/-- The size of an arena mapped for a block of `len` bytes. -/
def arenaSize (len : ℕ) : ℕ := pageAlignUp (if len > kHeapExtent then len else kHeapExtent)

/-- Map a further arena that holds the block and take the block from its start. A failure of
`mmap_alloc` is caught and reported as a null result. -/
def heapExtend (len align : ℕ) : MemM ℕ := do
  let want := arenaSize len
  let ext ← tryCatch (mmapAlloc want ucProtRw "heap-extent") fun _ => pure 0
  if ext = 0 then
    return 0
  modify fun m => { m with heapNext := ext, heapEnd := add64 ext want }
  let p := maskUp ext align
  if add64 p len > add64 ext want then
    return 0
  heapTake p len

/-- Bump-allocate from the mapped heap, growing it when the current arena is full. -/
def heapCarve (len align : ℕ) : MemM ℕ := do
  let m ← get
  let p := maskUp m.heapNext align
  if add64 p len > m.heapEnd then
    heapExtend len align
  else
    heapTake p len

def heapAlloc (len align : ℕ) : MemM ℕ := do
  heapInit
  heapCarve len align

/-- Map the Java region on first use. -/
def javaInit : MemM Unit := do
  let m ← get
  if m.javaNext = 0 then
    mapRegion ⟨kJavaBase, kJavaSize, ucProtRw, .java, "java"⟩
    modify fun m => { m with javaNext := kJavaBase, javaEnd := kJavaBase + kJavaSize }

def javaAlloc (len align : ℕ) : MemM ℕ := do
  javaInit
  let m ← get
  let p := maskUp m.javaNext align
  if add64 p len > m.javaEnd then
    throw (.runtime "java region exhausted")
  modify fun m => { m with javaNext := add64 p len }
  return p

/-- The pages visited by `for (p = base; p < base + size; p += 0x1000)`. -/
def pagesOf (base size : ℕ) : List ℕ :=
  (List.range ((add64 base size - base + 0xfff) / 0x1000)).map fun i => base + i * 0x1000

/-- Treat one page of a range with holes: change its protection, or map it. -/
def protectPage (prot p : ℕ) : MemM Unit := do
  let m ← get
  if isMapped m.regions p then
    onEngine (·.protect p 0x1000 prot)
  else
    let _ ← mapFixed p 0x1000 (if prot = 0 then ucProtRw else prot) .other "mprotect-fill"

/-- Record the new protection in the first region that is exactly the range. -/
def markProt (base size prot : ℕ) : List Region → List Region
  | [] => []
  | r :: rs =>
      if r.base = base ∧ r.size = size then { r with prot := prot } :: rs
      else r :: markProt base size prot rs

def protect (addr len prot : ℕ) : MemM Unit := do
  let base := pageAlignDown addr
  let size := sub64 (pageAlignUp (add64 addr len)) base
  let m ← get
  if (pagesOf base size).all fun p => isMapped m.regions p then
    onEngine (·.protect base size prot)
  else
    (pagesOf base size).forM (protectPage prot)
  modify fun m => { m with regions := markProt base size prot m.regions }

def unmap (addr len : ℕ) : MemM Unit := do
  let base := pageAlignDown addr
  let size := sub64 (pageAlignUp (add64 addr len)) base
  onEngine (·.unmap base size)
  modify fun m => { m with regions := m.regions.filter fun r => !(r.base = base && r.size = size) }

/-! ## Sequences of calls -/

/-- One call to the memory manager, with its arguments. -/
inductive Call
  | mapFixed (addr len prot : ℕ) (kind : Kind) (label : String)
  | mmapAlloc (len prot : ℕ) (label : String)
  | bigAlloc (len prot : ℕ) (label : String)
  | mapLib (total prot : ℕ) (label : String)
  | setupStack (len : ℕ)
  | setupTls
  | heapAlloc (len align : ℕ)
  | javaAlloc (len align : ℕ)
  | protect (addr len prot : ℕ)
  deriving DecidableEq, Repr

/-- Make one call; `protect` returns nothing, reported here as `0`. -/
def Call.run : Call → MemM ℕ
  | .mapFixed addr len prot kind label => Memory.mapFixed addr len prot kind label
  | .mmapAlloc len prot label => Memory.mmapAlloc len prot label
  | .bigAlloc len prot label => Memory.bigAlloc len prot label
  | .mapLib total prot label => Memory.mapLib total prot label
  | .setupStack len => Memory.setupStack len
  | .setupTls => Memory.setupTls
  | .heapAlloc len align => Memory.heapAlloc len align
  | .javaAlloc len align => Memory.javaAlloc len align
  | .protect addr len prot => do
      Memory.protect addr len prot
      return 0

/-- The state after a sequence of calls, each of which may have thrown. -/
def runCalls (m : Memory) (calls : List Call) : Memory :=
  calls.foldl (fun m call => Stateful.final (call.run m)) m

end Memory

end Vardoger
