import Vardoger.Base.Uleb128

/-!
# The DEX parser

`DexFile::parse` reads the header, then every class definition with its class data. Offsets and
counts are `uint32_t`, kept here as natural numbers with the wraparound of the source written out.
The readers are lenient: a word or a number that runs past the end of the file reads as what is
there. Strings are byte strings.
-/

namespace Vardoger.Dex

open Bytes LittleEndian

def kNoIndex : ℕ := 0xffffffff

/-- A method of a class, or the method of a `method_id` with the last two fields zero. -/
structure Method where
  cls : List UInt8 := []
  name : List UInt8 := []
  sig : List UInt8 := []
  access : ℕ := 0
  codeOff : ℕ := 0
  deriving DecidableEq, Repr

structure ClassDef where
  descriptor : List UInt8
  superclass : List UInt8
  access : ℕ
  classDataOff : ℕ
  directMethods : List Method
  virtualMethods : List Method
  deriving DecidableEq, Repr

structure Code where
  registersSize : ℕ := 0
  insSize : ℕ := 0
  outsSize : ℕ := 0
  insnsOff : ℕ := 0
  insnsSize : ℕ := 0
  valid : Bool := false
  deriving DecidableEq, Repr

structure Field where
  cls : List UInt8 := []
  name : List UInt8 := []
  type : List UInt8 := []
  deriving DecidableEq, Repr

/-- The place of an id table: its number of entries and its offset. -/
structure Table where
  size : ℕ
  off : ℕ
  deriving DecidableEq, Repr

/-- A file with the tables its header names. -/
structure Tables where
  data : List UInt8
  stringIds : Table
  typeIds : Table
  protoIds : Table
  fieldIds : Table
  methodIds : Table
  classDefs : Table

structure DexFile extends Tables where
  classes : List ClassDef

/-- The word at an offset, `0` if it is not inside the file. -/
def rd32 (d : List UInt8) (o : ℕ) : ℕ := if o + 4 > d.length then 0 else wordAt 4 d o

/-- The ULEB128 number at a position and the position behind it: at most five bytes. -/
def uleb (d : List UInt8) (p : ℕ) : ℕ × ℕ := Uleb128.read 32 (2 ^ 32) 5 d p

namespace Tables

def stringAt (t : Tables) (idx : ℕ) : List UInt8 :=
  if idx ≥ t.stringIds.size then []
  else
    let dataOff := rd32 t.data ((t.stringIds.off + idx * 4) % 2 ^ 32)
    if dataOff ≥ t.data.length then []
    else (t.data.drop (uleb t.data dataOff).2).takeWhile (· ≠ 0)

def typeAt (t : Tables) (idx : ℕ) : List UInt8 :=
  if idx = kNoIndex ∨ idx ≥ t.typeIds.size then []
  else t.stringAt (rd32 t.data ((t.typeIds.off + idx * 4) % 2 ^ 32))

def codeAt (t : Tables) (codeOff : ℕ) : Code :=
  if codeOff = 0 ∨ (codeOff + 16) % 2 ^ 32 > t.data.length then {}
  else
    { registersSize := wordAt 2 t.data codeOff
      insSize := wordAt 2 t.data (codeOff + 2)
      outsSize := wordAt 2 t.data (codeOff + 4)
      insnsSize := wordAt 4 t.data (codeOff + 12)
      insnsOff := (codeOff + 16) % 2 ^ 32
      valid := (codeOff + 16) % 2 ^ 32 + wordAt 4 t.data (codeOff + 12) * 2 ≤ t.data.length }

/-- The two halfwords and the word of an entry of eight bytes, zero if it is not in the file. -/
def idEntry (t : Tables) (o : ℕ) : ℕ × ℕ × ℕ :=
  if o + 8 ≤ t.data.length then
    (wordAt 2 t.data o, wordAt 2 t.data (o + 2), wordAt 4 t.data (o + 4))
  else (0, 0, 0)

def methodAt (t : Tables) (methodIdx : ℕ) : Method :=
  if methodIdx ≥ t.methodIds.size then {}
  else
    let (clsIdx, protoIdx, nameIdx) := t.idEntry (t.methodIds.off + methodIdx * 8)
    { cls := t.typeAt clsIdx
      name := t.stringAt nameIdx
      sig := if protoIdx < t.protoIds.size then
        t.stringAt (rd32 t.data (t.protoIds.off + protoIdx * 12)) else [] }

def fieldAt (t : Tables) (fieldIdx : ℕ) : Field :=
  if fieldIdx ≥ t.fieldIds.size then {}
  else
    let (clsIdx, typeIdx, nameIdx) := t.idEntry (t.fieldIds.off + fieldIdx * 8)
    { cls := t.typeAt clsIdx, type := t.typeAt typeIdx, name := t.stringAt nameIdx }

/-- One `encoded_method`: the method, the method index and the position behind it. -/
def decodeMethod (t : Tables) (methodIdxAcc p : ℕ) : Method × ℕ × ℕ :=
  let (diff, p) := uleb t.data p
  let (access, p) := uleb t.data p
  let (codeOff, p) := uleb t.data p
  let methodIdx := (methodIdxAcc + diff) % 2 ^ 32
  ({ t.methodAt methodIdx with access := access, codeOff := codeOff }, methodIdx, p)

/-- Skip `n` encoded fields. -/
def skipFields (t : Tables) : (n p : ℕ) → ℕ
  | 0, p => p
  | n + 1, p => t.skipFields n (uleb t.data (uleb t.data p).2).2

/-- Decode `n` encoded methods. -/
def decodeMethods (t : Tables) : (n midx p : ℕ) → List Method × ℕ
  | 0, _, p => ([], p)
  | n + 1, midx, p =>
      let (m, midx, p) := t.decodeMethod midx p
      let (ms, p) := t.decodeMethods n midx p
      (m :: ms, p)

/-- The direct and virtual methods of the class data at an offset. -/
def parseClassData (t : Tables) (classDataOff : ℕ) : List Method × List Method :=
  if classDataOff = 0 ∨ classDataOff ≥ t.data.length then ([], [])
  else
    let (staticFields, p) := uleb t.data classDataOff
    let (instanceFields, p) := uleb t.data p
    let (directMethods, p) := uleb t.data p
    let (virtualMethods, p) := uleb t.data p
    let p := t.skipFields ((staticFields + instanceFields) % 2 ^ 32) p
    let (direct, p) := t.decodeMethods directMethods 0 p
    (direct, (t.decodeMethods virtualMethods 0 p).1)

/-- The class definition at an offset of the file. -/
def parseClassDef (t : Tables) (o : ℕ) : ClassDef :=
  let classDataOff := rd32 t.data (o + 24)
  let (direct, virtual) := t.parseClassData classDataOff
  { descriptor := t.typeAt (rd32 t.data o)
    access := rd32 t.data (o + 4)
    superclass := t.typeAt (rd32 t.data (o + 8))
    classDataOff := classDataOff
    directMethods := direct
    virtualMethods := virtual }

/-- The tables named in a header. -/
def ofHeader (d : List UInt8) : Tables where
  data := d
  stringIds := ⟨rd32 d 0x38, rd32 d 0x3c⟩
  typeIds := ⟨rd32 d 0x40, rd32 d 0x44⟩
  protoIds := ⟨rd32 d 0x48, rd32 d 0x4c⟩
  fieldIds := ⟨rd32 d 0x50, rd32 d 0x54⟩
  methodIds := ⟨rd32 d 0x58, rd32 d 0x5c⟩
  classDefs := ⟨rd32 d 0x60, rd32 d 0x64⟩

end Tables

/-- Parse a file, or say why it is refused. -/
def parse (d : List UInt8) : Except String DexFile :=
  if d.length < 0x70 ∨ d.take 4 ≠ ascii "dex\n" then .error "bad magic/too small"
  else
    let t := Tables.ofHeader d
    if t.classDefs.off + t.classDefs.size * 32 > d.length then .error "class_defs OOB"
    else
      .ok { t with
        classes := (List.range t.classDefs.size).map fun i =>
          t.parseClassDef (t.classDefs.off + i * 32) }

theorem parse_eq {d : List UInt8} (hsize : 0x70 ≤ d.length) (hmagic : d.take 4 = ascii "dex\n")
    (hinside : (Tables.ofHeader d).classDefs.off + (Tables.ofHeader d).classDefs.size * 32 ≤
      d.length) :
    parse d = .ok { Tables.ofHeader d with
      classes := (List.range (Tables.ofHeader d).classDefs.size).map fun i =>
        (Tables.ofHeader d).parseClassDef ((Tables.ofHeader d).classDefs.off + i * 32) } := by
  have hheader : ¬(d.length < 0x70 ∨ d.take 4 ≠ ascii "dex\n") :=
    not_or.mpr ⟨Nat.not_lt.mpr hsize, not_not.mpr hmagic⟩
  rw [parse, if_neg hheader]
  dsimp only
  rw [if_neg (Nat.not_lt.mpr hinside)]

end Vardoger.Dex
