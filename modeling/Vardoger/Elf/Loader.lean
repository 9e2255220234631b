import Vardoger.Android.StringStubs
import Vardoger.Base.Sleb128
import Vardoger.Elf.Format
import Vardoger.Engine.Strings

/-!
# The ELF loader

`load_bytes` maps an image, writes the segments of a file into it, reads the dynamic section,
applies the relocations in place and collects exports, constructors and sections. Everything
behind the segments is read back from guest memory. A load ends with a library or with an
exception; it may also never end, if the dynamic section or a hash chain has no end, and it may
read a host buffer out of bounds.
-/

namespace Vardoger.Elf

open Words Stateful LittleEndian

/-! ## Reading the file -/

/-- The bytes of a file in a host vector. The reads of the loader are not all checked, so the model
has the bytes that the host finds outside of the vector, among them a NUL somewhere behind it. -/
structure Buffer where
  data : List UInt8
  /-- The byte at an offset from the start of the vector that is outside of it. -/
  outside : ℕ → UInt8
  fits : data.length < 2 ^ 63
  /-- The distance of a NUL behind the vector. -/
  nul : ℕ
  outside_nul : outside (data.length + nul) = 0

namespace Buffer

variable (b : Buffer)

def byte (k : ℕ) : UInt8 := b.data.getD k (b.outside k)

/-- Bytes of the host memory at an offset from the start of the vector. -/
def bytes (off n : ℕ) : List UInt8 := (List.range n).map fun i => b.byte (add64 off i)

/-- The C string at an offset. -/
def cstr (off : ℕ) : List UInt8 :=
  (b.bytes off (b.data.length + b.nul - off)).takeWhile (· ≠ 0)

/-- The check of `read_at`, in which the sum may wrap. -/
def readAt (n off : ℕ) : Except Failure (List UInt8) :=
  if add64 off n > b.data.length then .error (.runtime "ELF: read past end of file")
  else .ok (b.bytes off n)

end Buffer

def pfToUc (pf : ℕ) : ℕ :=
  (if pf &&& pfR ≠ 0 then ucProtRead else 0) ||| (if pf &&& pfW ≠ 0 then ucProtWrite else 0) |||
    (if pf &&& pfX ≠ 0 then ucProtExec else 0)

/-! ## Guest memory and the import resolver -/

/-- The guest and the state of the import resolver. -/
structure LoadState (τ : Type) where
  mem : Memory
  env : τ

/-- How a load can end without a result. -/
inductive Halt
  | thrown (err : Failure)
  /-- A loop without an end. -/
  | hangs
  /-- A host buffer is read out of bounds. -/
  | undefined
  deriving DecidableEq, Repr

abbrev LoadM (τ : Type) := EStateM Halt (LoadState τ)

section Guest

variable {τ : Type}

def onMem {α : Type} (x : MemM α) : LoadM τ α := fun s =>
  match x s.mem with
  | .ok a m => .ok a { s with mem := m }
  | .error err m => .error (.thrown err) { s with mem := m }

def onEngine (f : Engine → Except Failure Engine) : LoadM τ Unit := onMem (Memory.onEngine f)

def liftExcept {α : Type} (x : Except Failure α) : LoadM τ α := fun s =>
  match x with
  | .ok a => .ok a s
  | .error err => .error (.thrown err) s

def readBytes (addr n : ℕ) : LoadM τ (List UInt8) := fun s =>
  match s.mem.engine.read addr n with
  | .ok x => .ok x s
  | .error err => .error (.thrown err) s

def readWord (n addr : ℕ) : LoadM τ ℕ := do
  return ofBytes (← readBytes addr n)

def writeWord (n addr v : ℕ) : LoadM τ Unit := onEngine (·.write addr (toBytes n v))

def readCstr (addr : ℕ) : LoadM τ (List UInt8) := do
  return (← get).mem.engine.readCstr addr kCstrMax

end Guest

/-! ## The dynamic section -/

/-- The local variables that `load_impl` fills from the dynamic section; `init` and `fini` are those
of the result. -/
structure Dynamic where
  strtab : ℕ := 0
  symtab : ℕ := 0
  rela : ℕ := 0
  relasz : ℕ := 0
  jmprel : ℕ := 0
  pltrelsz : ℕ := 0
  rel : ℕ := 0
  relsz : ℕ := 0
  relr : ℕ := 0
  relrsz : ℕ := 0
  androidRela : ℕ := 0
  androidRelasz : ℕ := 0
  pltrel : ℕ := 0
  initArray : ℕ := 0
  initArraysz : ℕ := 0
  preinitArray : ℕ := 0
  preinitArraysz : ℕ := 0
  finiArray : ℕ := 0
  finiArraysz : ℕ := 0
  hash : ℕ := 0
  gnuHash : ℕ := 0
  init : ℕ := 0
  fini : ℕ := 0
  neededOffsets : List ℕ := []
  deriving DecidableEq, Repr

namespace Dynamic

/-- What an entry with a known tag sets: an address is biased, a size is not. -/
def set (bias : ℕ) (d : Dynamic) (val : ℕ) : DynTag → Dynamic
  | .strtab => { d with strtab := add64 bias val }
  | .symtab => { d with symtab := add64 bias val }
  | .rela => { d with rela := add64 bias val }
  | .relasz => { d with relasz := val }
  | .rel => { d with rel := add64 bias val }
  | .relsz => { d with relsz := val }
  | .jmprel => { d with jmprel := add64 bias val }
  | .pltrelsz => { d with pltrelsz := val }
  | .pltrel => { d with pltrel := val }
  | .init => { d with init := add64 bias val }
  | .initArray => { d with initArray := add64 bias val }
  | .initArraysz => { d with initArraysz := val }
  | .preinitArray => { d with preinitArray := add64 bias val }
  | .preinitArraysz => { d with preinitArraysz := val }
  | .finiArray => { d with finiArray := add64 bias val }
  | .finiArraysz => { d with finiArraysz := val }
  | .fini => { d with fini := add64 bias val }
  | .hash => { d with hash := add64 bias val }
  | .gnuHash => { d with gnuHash := add64 bias val }
  | .relr => { d with relr := add64 bias val }
  | .relrsz => { d with relrsz := val }
  | .androidRela => { d with androidRela := add64 bias val }
  | .androidRelasz => { d with androidRelasz := val }
  | .needed => { d with neededOffsets := d.neededOffsets ++ [val] }

/-- An entry with an unknown tag is ignored. -/
def add (bias : ℕ) (d : Dynamic) (e : Dyn) : Dynamic :=
  match DynTag.ofCode e.tag with
  | some t => d.set bias e.val t
  | none => d

def ofEntries (bias : ℕ) (entries : List Dyn) : Dynamic := entries.foldl (add bias) {}

end Dynamic

section Load

variable {τ : Type} (c : ElfClass)

/-- The entries up to `DT_NULL`. A loop that has seen every address and no end goes on for ever. -/
def dynLoop : (fuel a : ℕ) → LoadM τ (List Dyn)
  | 0, _ => throw .hangs
  | fuel + 1, a => do
      let d := Dyn.decode (← readBytes a c.dynSize) c
      if d.tag = 0 then
        return []
      else
        return d :: (← dynLoop fuel (add64 a c.dynSize))

/-- A file without `PT_DYNAMIC`, or with one at address `0`, has no dynamic section. -/
def parseDynamic (bias dynVaddr : ℕ) : LoadM τ Dynamic := do
  if dynVaddr ≠ 0 then
    return .ofEntries bias (← dynLoop c (2 ^ 64 / c.dynSize) (add64 bias dynVaddr))
  else
    return {}

/-! ## Symbols and relocations -/

/-- What the lambdas of `load_impl` for symbols and relocations capture. -/
structure LinkContext (τ : Type) where
  kinds : RelocKinds
  bias : ℕ
  symtab : ℕ
  strtab : ℕ
  resolveImport : Option (List UInt8 → LoadM τ ℕ)

variable (k : LinkContext τ)

def symAt (idx : ℕ) : LoadM τ Sym := do
  return Sym.decode (← readBytes (add64 k.symtab (idx * c.symSize)) c.symSize) c

def resolveSym (idx : ℕ) : LoadM τ ℕ := do
  let s ← symAt c k idx
  if s.shndx = shnUndef then
    let nm ← readCstr (add64 k.strtab s.name)
    match k.resolveImport with
    | some resolve => resolve nm
    | none => return 0
  else
    return add64 k.bias s.value

/-- Apply one relocation with addend; a type that is not known is reported and skipped. -/
def applyEntry (r : Rela) : LoadM τ Unit := do
  let type := relType r.info c
  let sym := relSym r.info c
  let slot := add64 k.bias r.offset
  if type = k.kinds.relative then
    writeWord c.word slot (add64 k.bias r.addend)
  else if type = k.kinds.globDat ∨ type = k.kinds.jumpSlot then
    writeWord c.word slot (← resolveSym c k sym)
  else if type = k.kinds.abs then
    writeWord c.word slot (add64 (← resolveSym c k sym) r.addend)

/-- The offsets of the entries of a table: as many as fit. -/
def entryOffsets (size bytes : ℕ) : List ℕ := (List.range (bytes / size)).map (· * size)

def applyRela (table bytes : ℕ) : LoadM τ Unit :=
  (entryOffsets c.relaSize bytes).forM fun o => do
    applyEntry c k (Rela.decode (← readBytes (add64 table o) c.relaSize) c)

/-- The addend of a `Rel` entry is in its slot. -/
def applyRelEntry (r : Rel) : LoadM τ Unit := do
  let type := relType r.info c
  let sym := relSym r.info c
  let slot := add64 k.bias r.offset
  let cur ← readWord c.word slot
  if type = k.kinds.relative then
    writeWord c.word slot (add64 cur k.bias)
  else if type = k.kinds.globDat ∨ type = k.kinds.jumpSlot then
    writeWord c.word slot (← resolveSym c k sym)
  else if type = k.kinds.abs then
    writeWord c.word slot (add64 cur (← resolveSym c k sym))

def applyRel (table bytes : ℕ) : LoadM τ Unit :=
  (entryOffsets c.relSize bytes).forM fun o => do
    applyRelEntry c k (Rel.decode (← readBytes (add64 table o) c.relSize) c)

/-- Add the load bias to a slot. -/
def biasSlot (bias addr : ℕ) : LoadM τ Unit := do
  writeWord 8 addr (add64 (← readWord 8 addr) bias)

/-- The slots of a bitmap. The loop stops when no bit is left; an entry has 63 of them. -/
def relrBits (bias start bits : ℕ) : LoadM τ Unit :=
  (List.range 63).forM fun i => do
    if bits.testBit i then
      biasSlot bias (add64 start (i * 8))

/-- One entry of the `RELR` stream, and the position of the cursor behind it. -/
def relrEntry (bias cursor entry : ℕ) : LoadM τ ℕ := do
  if entry % 2 = 0 then
    biasSlot bias (add64 bias entry)
    return add64 (add64 bias entry) 8
  else
    relrBits bias cursor (entry / 2)
    return add64 cursor (63 * 8)

def relrLoop (bias table : ℕ) : (offsets : List ℕ) → (cursor : ℕ) → LoadM τ Unit
  | [], _ => return
  | o :: offsets, cursor => do
      let entry ← readWord 8 (add64 table o)
      relrLoop bias table offsets (← relrEntry bias cursor entry)

/-- The compressed relative relocations, which only 64-bit files have. -/
def applyRelr (bias table bytes : ℕ) : LoadM τ Unit := relrLoop bias table (entryOffsets 8 bytes) 0

/-! ## Packed relocations -/

/-- A word as a signed number. -/
def signed (v : ℕ) : ℤ := if v < 2 ^ 63 then v else v - 2 ^ 64

/-- The number at a position of the packed table and the position behind it. -/
def sleb (buf : List UInt8) (p : ℕ) : LoadM τ (ℕ × ℕ) :=
  match Sleb128.read 64 10 buf p with
  | some r => return r
  | none => throw .undefined

def groupedByInfo : ℕ := 1
def groupedByDelta : ℕ := 2
def groupedByAddend : ℕ := 4
def groupHasAddend : ℕ := 8

/-- The variables of the decoder that live across groups. -/
structure PackedState where
  p : ℕ
  offset : ℕ
  addend : ℕ
  deriving DecidableEq, Repr

/-- The variables of a group. -/
structure PackedGroup where
  flags : ℕ
  delta : ℕ
  info : ℕ
  deriving DecidableEq, Repr

def PackedGroup.has (g : PackedGroup) (flag : ℕ) : Bool := g.flags &&& flag ≠ 0

/-- Decode one relocation of a group. -/
def packedEntry (buf : List UInt8) (g : PackedGroup) (s : PackedState) :
    LoadM τ (Rela × PackedState) := do
  let (delta, p) ← if g.has groupedByDelta then pure (g.delta, s.p) else sleb buf s.p
  let offset := add64 s.offset delta
  let (info, p) ← if g.has groupedByInfo then pure (g.info, p) else sleb buf p
  let (more, p) ←
    if g.has groupHasAddend && !g.has groupedByAddend then sleb buf p else pure (0, p)
  let addend := add64 s.addend more
  return (⟨offset, info, if g.has groupHasAddend then addend else 0⟩, ⟨p, offset, addend⟩)

/-- The relocations of a group, each applied as soon as it is decoded. -/
def packedEntries (buf : List UInt8) (g : PackedGroup) :
    (n : ℕ) → (s : PackedState) → LoadM τ PackedState
  | 0, s => return s
  | n + 1, s => do
      let (r, s) ← packedEntry buf g s
      applyEntry c k r
      packedEntries buf g n s

/-- The head of a group: its size, its variables and the state in front of its relocations. -/
def packedHead (buf : List UInt8) (s : PackedState) :
    LoadM τ (ℕ × PackedGroup × PackedState) := do
  let (size, p) ← sleb buf s.p
  let (flags, p) ← sleb buf p
  let (delta, p) ← if flags &&& groupedByDelta ≠ 0 then sleb buf p else pure (0, p)
  let (info, p) ← if flags &&& groupedByInfo ≠ 0 then sleb buf p else pure (0, p)
  let g : PackedGroup := ⟨flags, delta, info⟩
  let (more, p) ←
    if g.has groupedByAddend && g.has groupHasAddend then sleb buf p else pure (0, p)
  return (size, g, { s with p, addend := add64 s.addend more })

/-- The groups. Each takes at least two bytes, so there are fewer than there are bytes. -/
def packedGroups (buf : List UInt8) (count : ℕ) :
    (fuel : ℕ) → (done : ℕ) → (s : PackedState) → LoadM τ Unit
  | 0, _, _ => return
  | fuel + 1, done, s => do
      if signed done < signed count ∧ s.p < buf.length then
        let (size, g, s) ← packedHead buf s
        let s ← packedEntries c k buf g (signed size).toNat s
        packedGroups buf count fuel (add64 done size)
          (if g.has groupHasAddend then s else { s with addend := 0 })

def applyAndroidRela (table bytes : ℕ) : LoadM τ Unit := do
  let buf ← readBytes table bytes
  if buf.take 4 = Bytes.ascii "APS2" then
    let (count, p) ← sleb buf 4
    let (offset, p) ← sleb buf p
    packedGroups c k buf count bytes 0 ⟨p, offset, 0⟩

/-- All tables of the file, in the order of the loader. -/
def applyRelocations (d : Dynamic) : LoadM τ Unit := do
  match c with
  | .elf64 =>
      if d.rela ≠ 0 then
        applyRela .elf64 k d.rela d.relasz
      if d.androidRela ≠ 0 then
        applyAndroidRela .elf64 k d.androidRela d.androidRelasz
      if d.relr ≠ 0 then
        applyRelr k.bias d.relr d.relrsz
      if d.jmprel ≠ 0 then
        applyRela .elf64 k d.jmprel d.pltrelsz
  | .elf32 =>
      if d.rel ≠ 0 then
        applyRel .elf32 k d.rel d.relsz
      if d.jmprel ≠ 0 then
        if d.pltrel = DynTag.rela.code then
          applyRela .elf32 k d.jmprel d.pltrelsz
        else
          applyRel .elf32 k d.jmprel d.pltrelsz

/-! ## Exports -/

/-- Walk a hash chain to its end. The index is a 32-bit word, so a chain without an end is walked
for ever. -/
def chainLoop (chain symoffset : ℕ) : (fuel idx : ℕ) → LoadM τ ℕ
  | 0, _ => throw .hangs
  | fuel + 1, idx => do
      let h ← readWord 4 (add64 chain ((idx + (2 ^ 32 - symoffset)) % 2 ^ 32 * 4))
      if h % 2 = 1 then
        return idx
      else
        chainLoop chain symoffset fuel ((idx + 1) % 2 ^ 32)

def gnuHashNsyms (gh ptrSize : ℕ) : LoadM τ ℕ := do
  let nbuckets ← readWord 4 gh
  let symoffset ← readWord 4 (add64 gh 4)
  let bloomSize ← readWord 4 (add64 gh 8)
  let buckets := add64 (add64 gh 16) (bloomSize * ptrSize)
  let last ← (List.range nbuckets).foldlM (fun last i => do
    return max last (← readWord 4 (add64 buckets (i * 4)))) 0
  if last < symoffset then
    return symoffset
  else
    return (← chainLoop (add64 buckets (nbuckets * 4)) symoffset (2 ^ 32) last) + 1

/-- The number of symbols, from the hash table if there is one. -/
def symbolCount (d : Dynamic) : LoadM τ ℕ := do
  if d.hash ≠ 0 then
    readWord 4 (add64 d.hash 4)
  else if d.gnuHash ≠ 0 then
    gnuHashNsyms d.gnuHash c.word
  else if d.strtab > d.symtab then
    return (d.strtab - d.symtab) / c.symSize
  else
    return 0

/-- A map from names. -/
abbrev NameMap (α : Type) := List UInt8 → Option α

/-- One round of the loop over the symbols. -/
def addExport (exports : NameMap ℕ) (i : ℕ) : LoadM τ (NameMap ℕ) := do
  let s ← symAt c k (i % 2 ^ 32)
  if s.shndx = shnUndef ∨ s.name = 0 then
    return exports
  else
    let nm ← readCstr (add64 k.strtab s.name)
    if nm ≠ [] then
      return Function.update exports nm (some (add64 k.bias s.value))
    else
      return exports

def collectExports (d : Dynamic) : LoadM τ (NameMap ℕ) := do
  if d.symtab ≠ 0 then
    let nsyms ← symbolCount c d
    (List.range' 1 (nsyms - 1)).foldlM (addExport c k) fun _ => none
  else
    return fun _ => none

/-! ## Constructors -/

/-- An entry of an array of functions: `0` and `-1` are skipped, and an address below the bias that
would lie in the span is taken for one that was not relocated. -/
def arrayEntry (bias size fn : ℕ) : Option ℕ :=
  if fn ≠ 0 ∧ fn ≠ 256 ^ c.word - 1 then
    some (if fn < bias ∧ fn < size then c.add fn bias else fn)
  else none

def collectArray (bias size array bytes : ℕ) : LoadM τ (List ℕ) := do
  let fns ← (entryOffsets c.word bytes).mapM fun o => readWord c.word (add64 array o)
  return fns.filterMap (arrayEntry c bias size)

/-! ## Sections -/

structure Section where
  addr : ℕ := 0
  size : ℕ := 0
  deriving DecidableEq, Repr

/-- Record one section under its name, unless the name is empty or starts behind the file. -/
def addSection (b : Buffer) (bias : ℕ) (shstr sh : Shdr) (sections : NameMap Section) :
    NameMap Section :=
  let nameoff := c.add shstr.offset sh.name
  if nameoff ≥ b.data.length then sections
  else
    let nm := b.cstr nameoff
    if nm = [] then sections
    else Function.update sections nm
      (some ⟨if sh.addr ≠ 0 then add64 bias sh.addr else 0, sh.size⟩)

/-- The file has a table of section headers that passes the check, in which the sum may wrap. -/
def hasSections (b : Buffer) (eh : Ehdr) : Bool :=
  eh.shoff ≠ 0 && eh.shnum ≠ 0 && eh.shstrndx < eh.shnum &&
    add64 eh.shoff (eh.shnum * c.shdrSize) ≤ b.data.length

def readShdr (b : Buffer) (eh : Ehdr) (i : ℕ) : Except Failure Shdr := do
  return Shdr.decode (← b.readAt c.shdrSize (add64 eh.shoff (i * c.shdrSize))) c

def collectSections (b : Buffer) (eh : Ehdr) (bias : ℕ) : Except Failure (NameMap Section) := do
  if hasSections c b eh then
    let shstr ← readShdr c b eh eh.shstrndx
    let headers ← (List.range eh.shnum).mapM (readShdr c b eh)
    return headers.foldl (fun sections sh => addSection c b bias shstr sh sections) fun _ => none
  else
    return fun _ => none

/-! ## Segments -/

def readPhdr (b : Buffer) (eh : Ehdr) (i : ℕ) : Except Failure Phdr := do
  return Phdr.decode (← b.readAt c.phdrSize (add64 eh.phoff (i * eh.phentsize))) c

/-- The file header and the program headers. -/
def readHeaders (b : Buffer) : Except Failure (Ehdr × List Phdr) := do
  let eh := Ehdr.decode (← b.readAt c.ehdrSize 0) c
  return (eh, ← (List.range eh.phnum).mapM (readPhdr c b eh))

/-- The `PT_LOAD` headers. -/
def loadsOf (headers : List Phdr) : List Phdr := headers.filter fun ph => ph.type = ptLoad

/-- The address of the last `PT_DYNAMIC`, `0` if there is none. -/
def dynVaddrOf (headers : List Phdr) : ℕ :=
  headers.foldl (fun v ph => if ph.type = ptDynamic then ph.vaddr else v) 0

def minVaddr (loads : List Phdr) : ℕ :=
  loads.foldl (fun v ph => min v (pageAlignDown ph.vaddr)) (2 ^ 64 - 1)

def maxVaddr (loads : List Phdr) : ℕ :=
  loads.foldl (fun v ph => max v (pageAlignUp (c.add ph.vaddr ph.memsz))) 0

/-- The bytes of a segment are copied without a check against the size of the file. -/
def writeSegment (b : Buffer) (bias : ℕ) (ph : Phdr) : LoadM τ Unit :=
  onEngine (·.write (add64 bias ph.vaddr) (b.bytes ph.offset ph.filesz))

/-- Give the pages of a segment their protection. -/
def tighten (bias : ℕ) (ph : Phdr) : LoadM τ Unit :=
  let seg := pageAlignDown (add64 bias ph.vaddr)
  let stop := pageAlignUp (add64 (add64 bias ph.vaddr) ph.memsz)
  onEngine (·.protect seg (sub64 stop seg) (pfToUc ph.flags))

/-! ## The load -/

structure SoInfo where
  name : String
  is64 : Bool
  loadBias : ℕ
  base : ℕ
  size : ℕ
  jniOnload : ℕ
  init : ℕ
  fini : ℕ
  preinitArray : List ℕ
  initArray : List ℕ
  finiArray : List ℕ
  needed : List (List UInt8)
  exports : NameMap ℕ
  sections : NameMap Section

def SoInfo.lookup (so : SoInfo) (sym : List UInt8) : ℕ := (so.exports sym).getD 0

/-- The image of the segments: where it is, how long it is, and its bias. -/
structure Placed where
  base : ℕ
  size : ℕ
  bias : ℕ
  deriving DecidableEq, Repr

/-- Map the span of the segments. -/
def place (name : String) (loads : List Phdr) : LoadM τ Placed := do
  let span := sub64 (maxVaddr c loads) (minVaddr loads)
  let base ← onMem (Memory.mapLib span ucProtAll name)
  return ⟨base, pageAlignUp span, sub64 base (minVaddr loads)⟩

/-- What the loader does with the dynamic section: names, relocations, exports and constructors. -/
def linkImage (resolveImport : Option (List UInt8 → LoadM τ ℕ)) (name : String) (machine : ℕ)
    (im : Placed) (dynVaddr : ℕ) : LoadM τ SoInfo := do
  let d ← parseDynamic c im.bias dynVaddr
  let needed ← d.neededOffsets.mapM fun off => readCstr (add64 d.strtab off)
  let k : LinkContext τ := ⟨relocKinds machine, im.bias, d.symtab, d.strtab, resolveImport⟩
  applyRelocations c k d
  let exports ← collectExports c k d
  let preinitArray ← collectArray c im.bias im.size d.preinitArray d.preinitArraysz
  let initArray ← collectArray c im.bias im.size d.initArray d.initArraysz
  let finiArray ← collectArray c im.bias im.size d.finiArray d.finiArraysz
  return {
    name := name
    is64 := c = .elf64
    loadBias := im.bias
    base := im.base
    size := im.size
    jniOnload := (exports (Bytes.ascii "JNI_OnLoad")).getD 0
    init := d.init
    fini := d.fini
    preinitArray := preinitArray
    initArray := initArray
    finiArray := finiArray
    needed := needed
    exports := exports
    sections := fun _ => none }

/-- The load of a file with `PT_LOAD` headers. -/
def loadImage (resolveImport : Option (List UInt8 → LoadM τ ℕ)) (b : Buffer) (name : String)
    (eh : Ehdr) (headers : List Phdr) : LoadM τ SoInfo := do
  let loads := loadsOf headers
  let im ← place c name loads
  loads.forM (writeSegment b im.bias)
  let so ← linkImage c resolveImport name eh.machine im (dynVaddrOf headers)
  loads.forM (tighten im.bias)
  return { so with sections := ← liftExcept (collectSections c b eh im.bias) }

def loadImpl (resolveImport : Option (List UInt8 → LoadM τ ℕ)) (b : Buffer) (name : String) :
    LoadM τ SoInfo := do
  let (eh, headers) ← liftExcept (readHeaders c b)
  if loadsOf headers = [] then
    throw (.thrown (.runtime ("ELF: no PT_LOAD in " ++ name)))
  else
    loadImage c resolveImport b name eh headers

end Load

/-- The class of a file with a valid identification, or the exception of `load_bytes`. -/
def identify (data : List UInt8) (name : String) : Except Failure ElfClass :=
  if data.length < 16 ∨ data.take 4 ≠ 0x7f :: Bytes.ascii "ELF" then
    .error (.runtime ("ELF: bad magic in " ++ name))
  else if data.getD 5 0 ≠ 1 then .error (.runtime ("ELF: not little-endian: " ++ name))
  else if data.getD 4 0 = 2 then .ok .elf64
  else if data.getD 4 0 = 1 then .ok .elf32
  else .error (.runtime ("ELF: unknown class in " ++ name))

def loadBytes {τ : Type} (resolveImport : Option (List UInt8 → LoadM τ ℕ)) (b : Buffer)
    (name : String) : LoadM τ SoInfo := do
  loadImpl (← liftExcept (identify b.data name)) resolveImport b name

end Vardoger.Elf
