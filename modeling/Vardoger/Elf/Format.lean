import Vardoger.Base.Bytes
import Vardoger.Base.Words

/-!
# The structures of an ELF file

The headers and table entries that the loader reads, for both classes of files. An entry is read
from as many bytes as the structure has; the fields that the loader does not use are left out.
-/

namespace Vardoger.Elf

open LittleEndian

/-- `ELFCLASS32` and `ELFCLASS64`. -/
inductive ElfClass
  | elf32 | elf64
  deriving DecidableEq, Repr

namespace ElfClass

/-- The bytes of an address. -/
def word : ElfClass → ℕ
  | elf32 => 4
  | elf64 => 8

/-- The wrapping sum of two addresses. -/
def add (c : ElfClass) (a b : ℕ) : ℕ := (a + b) % 256 ^ c.word

def ehdrSize : ElfClass → ℕ
  | elf32 => 52
  | elf64 => 64

def phdrSize : ElfClass → ℕ
  | elf32 => 32
  | elf64 => 56

def shdrSize : ElfClass → ℕ
  | elf32 => 40
  | elf64 => 64

def dynSize : ElfClass → ℕ
  | elf32 => 8
  | elf64 => 16

def symSize : ElfClass → ℕ
  | elf32 => 16
  | elf64 => 24

def relSize : ElfClass → ℕ
  | elf32 => 8
  | elf64 => 16

def relaSize : ElfClass → ℕ
  | elf32 => 12
  | elf64 => 24

end ElfClass

structure Ehdr where
  machine : ℕ
  phoff : ℕ
  shoff : ℕ
  phentsize : ℕ
  phnum : ℕ
  shnum : ℕ
  shstrndx : ℕ
  deriving DecidableEq, Repr

def Ehdr.decode (x : List UInt8) : ElfClass → Ehdr
  | .elf64 => ⟨wordAt 2 x 18, wordAt 8 x 32, wordAt 8 x 40, wordAt 2 x 54, wordAt 2 x 56,
      wordAt 2 x 60, wordAt 2 x 62⟩
  | .elf32 => ⟨wordAt 2 x 18, wordAt 4 x 28, wordAt 4 x 32, wordAt 2 x 42, wordAt 2 x 44,
      wordAt 2 x 48, wordAt 2 x 50⟩

def emArm : ℕ := 40
def emAarch64 : ℕ := 183
def em386 : ℕ := 3
def emX8664 : ℕ := 62

/-- A program header: its fields `p_type`, `p_flags`, `p_offset` and so on. -/
structure Phdr where
  type : ℕ
  flags : ℕ
  offset : ℕ
  vaddr : ℕ
  filesz : ℕ
  memsz : ℕ
  deriving DecidableEq, Repr

def Phdr.decode (x : List UInt8) : ElfClass → Phdr
  | .elf64 => ⟨wordAt 4 x 0, wordAt 4 x 4, wordAt 8 x 8, wordAt 8 x 16, wordAt 8 x 32,
      wordAt 8 x 40⟩
  | .elf32 => ⟨wordAt 4 x 0, wordAt 4 x 24, wordAt 4 x 4, wordAt 4 x 8, wordAt 4 x 16,
      wordAt 4 x 20⟩

def ptLoad : ℕ := 1
def ptDynamic : ℕ := 2

def pfX : ℕ := 1
def pfW : ℕ := 2
def pfR : ℕ := 4

/-- A section header: its fields `sh_name`, `sh_addr`, `sh_offset` and `sh_size`. -/
structure Shdr where
  name : ℕ
  addr : ℕ
  offset : ℕ
  size : ℕ
  deriving DecidableEq, Repr

def Shdr.decode (x : List UInt8) : ElfClass → Shdr
  | .elf64 => ⟨wordAt 4 x 0, wordAt 8 x 16, wordAt 8 x 24, wordAt 8 x 32⟩
  | .elf32 => ⟨wordAt 4 x 0, wordAt 4 x 12, wordAt 4 x 16, wordAt 4 x 20⟩

/-- An entry of the dynamic section. -/
structure Dyn where
  tag : ℕ
  val : ℕ
  deriving DecidableEq, Repr

def Dyn.decode (x : List UInt8) (c : ElfClass) : Dyn := ⟨wordAt c.word x 0, wordAt c.word x c.word⟩

/-- The tags that the loader knows. -/
inductive DynTag
  | needed | pltrelsz | hash | strtab | symtab | rela | relasz | init | fini | rel | relsz | pltrel
  | jmprel | initArray | finiArray | initArraysz | finiArraysz | preinitArray | preinitArraysz
  | relrsz | relr | androidRela | androidRelasz | gnuHash
  deriving DecidableEq, Repr

namespace DynTag

/-- The number of a tag. -/
def code : DynTag → ℕ
  | needed => 1
  | pltrelsz => 2
  | hash => 4
  | strtab => 5
  | symtab => 6
  | rela => 7
  | relasz => 8
  | init => 12
  | fini => 13
  | rel => 17
  | relsz => 18
  | pltrel => 20
  | jmprel => 23
  | initArray => 25
  | finiArray => 26
  | initArraysz => 27
  | finiArraysz => 28
  | preinitArray => 32
  | preinitArraysz => 33
  | relrsz => 0x23
  | relr => 0x24
  | androidRela => 0x60000011
  | androidRelasz => 0x60000012
  | gnuHash => 0x6ffffef5

def all : List DynTag :=
  [needed, pltrelsz, hash, strtab, symtab, rela, relasz, init, fini, rel, relsz, pltrel, jmprel,
    initArray, finiArray, initArraysz, finiArraysz, preinitArray, preinitArraysz, relrsz, relr,
    androidRela, androidRelasz, gnuHash]

/-- The tag with a number. -/
def ofCode (n : ℕ) : Option DynTag := all.find? fun t => t.code = n

end DynTag

/-- A symbol: its fields `st_name`, `st_shndx` and `st_value`. -/
structure Sym where
  name : ℕ
  shndx : ℕ
  value : ℕ
  deriving DecidableEq, Repr

def Sym.decode (x : List UInt8) : ElfClass → Sym
  | .elf64 => ⟨wordAt 4 x 0, wordAt 2 x 6, wordAt 8 x 8⟩
  | .elf32 => ⟨wordAt 4 x 0, wordAt 2 x 14, wordAt 4 x 4⟩

def shnUndef : ℕ := 0

/-- A relocation with addend; the addend is a two's complement word. -/
structure Rela where
  offset : ℕ
  info : ℕ
  addend : ℕ
  deriving DecidableEq, Repr

def Rela.decode (x : List UInt8) (c : ElfClass) : Rela :=
  ⟨wordAt c.word x 0, wordAt c.word x c.word, wordAt c.word x (2 * c.word)⟩

/-- A relocation whose addend is in its slot. -/
structure Rel where
  offset : ℕ
  info : ℕ
  deriving DecidableEq, Repr

def Rel.decode (x : List UInt8) (c : ElfClass) : Rel := ⟨wordAt c.word x 0, wordAt c.word x c.word⟩

/-- `R64_TYPE` and `R32_TYPE`. -/
def relType (info : ℕ) : ElfClass → ℕ
  | .elf64 => info % 2 ^ 32
  | .elf32 => info % 2 ^ 8

/-- `R64_SYM` and `R32_SYM`. -/
def relSym (info : ℕ) : ElfClass → ℕ
  | .elf64 => info / 2 ^ 32 % 2 ^ 32
  | .elf32 => info % 2 ^ 32 / 2 ^ 8

/-- The numbers of the relocation types of a machine. -/
structure RelocKinds where
  relative : ℕ
  globDat : ℕ
  jumpSlot : ℕ
  abs : ℕ
  deriving DecidableEq, Repr

def relocKinds (machine : ℕ) : RelocKinds :=
  if machine = emAarch64 then ⟨1027, 1025, 1026, 257⟩
  else if machine = emX8664 then ⟨8, 6, 7, 1⟩
  else if machine = em386 then ⟨8, 6, 7, 1⟩
  else ⟨23, 21, 22, 2⟩

end Vardoger.Elf
