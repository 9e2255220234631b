import Vardoger.Base.Uleb128
import Vardoger.Base.Words

/-!
# The DEX rebuilder

`DexRebuilder::build` appends recovered code items and rebuilt class data to a DEX file, points the
affected class definitions at the new class data and recomputes the header. Nothing that exists is
moved. zlib's `adler32` is a parameter.
-/

namespace Vardoger.Dex

open Bytes LittleEndian Words

/-- Code items by method index, in ascending order (a `std::map`). -/
structure CodeMap where
  items : List (ℕ × List UInt8)
  sorted : items.Pairwise fun a b => a.1 < b.1

namespace CodeMap

def empty : CodeMap := ⟨[], .nil⟩

def find (m : CodeMap) (methodIdx : ℕ) : Option (List UInt8) := m.items.lookup methodIdx

def setCode (m : CodeMap) (methodIdx : ℕ) (codeItem : List UInt8) : CodeMap where
  items := m.items.filter (·.1 < methodIdx) ++
    (methodIdx, codeItem) :: m.items.filter (methodIdx < ·.1)
  sorted := by
    refine List.pairwise_append.mpr ⟨m.sorted.filter _, List.pairwise_cons.mpr
      ⟨fun b hb => ?_, m.sorted.filter _⟩, fun a ha b hb => ?_⟩
    · simpa using (List.mem_filter.mp hb).2
    · have hlow : a.1 < methodIdx := by simpa using (List.mem_filter.mp ha).2
      rcases List.mem_cons.mp hb with rfl | hb
      · exact hlow
      · have hhigh : methodIdx < b.1 := by simpa using (List.mem_filter.mp hb).2
        omega

end CodeMap

/-! ## SHA-1 -/

namespace Sha1

def rol (v : BitVec 32) (c : ℕ) : BitVec 32 := (v <<< c) ||| (v >>> (32 - c))

/-- The big-endian words of a block. -/
def blockWords : List UInt8 → List (BitVec 32)
  | a :: b :: c :: d :: rest =>
      ((a.toBitVec.setWidth 32 <<< 24) ||| (b.toBitVec.setWidth 32 <<< 16) |||
        (c.toBitVec.setWidth 32 <<< 8) ||| d.toBitVec.setWidth 32) :: blockWords rest
  | _ => []

/-- Append the next word of the message schedule. -/
def extend (w : List (BitVec 32)) : List (BitVec 32) :=
  let at' := fun k => w.getD (w.length - k) 0
  w ++ [rol (at' 3 ^^^ at' 8 ^^^ at' 14 ^^^ at' 16) 1]

/-- The 80 words of the message schedule. -/
def schedule (block : List UInt8) : List (BitVec 32) := extend^[64] (blockWords block)

structure State where
  a : BitVec 32
  b : BitVec 32
  c : BitVec 32
  d : BitVec 32
  e : BitVec 32
  deriving DecidableEq, Repr

def initial : State := ⟨0x67452301, 0xEFCDAB89, 0x98BADCFE, 0x10325476, 0xC3D2E1F0⟩

/-- The round function and constant of a step. -/
def mix (i : ℕ) (s : State) : BitVec 32 × BitVec 32 :=
  if i < 20 then ((s.b &&& s.c) ||| (~~~s.b &&& s.d), 0x5A827999)
  else if i < 40 then (s.b ^^^ s.c ^^^ s.d, 0x6ED9EBA1)
  else if i < 60 then ((s.b &&& s.c) ||| (s.b &&& s.d) ||| (s.c &&& s.d), 0x8F1BBCDC)
  else (s.b ^^^ s.c ^^^ s.d, 0xCA62C1D6)

def step (s : State) (wi : BitVec 32 × ℕ) : State :=
  let (f, k) := mix wi.2 s
  ⟨rol s.a 5 + f + s.e + k + wi.1, s.a, rol s.b 30, s.c, s.d⟩

def compress (h : State) (block : List UInt8) : State :=
  let s := ((schedule block).zipIdx).foldl step h
  ⟨h.a + s.a, h.b + s.b, h.c + s.c, h.d + s.d, h.e + s.e⟩

/-- The message with its padding and its length in bits. -/
def pad (m : List UInt8) : List UInt8 :=
  let m' := m ++ [0x80]
  m' ++ List.replicate ((56 + 64 - m'.length % 64) % 64) 0 ++
    (toBytes 8 (m.length * 8 % 2 ^ 64)).reverse

/-- The blocks of 64 bytes. -/
def blocks (m : List UInt8) : List (List UInt8) :=
  (List.range (m.length / 64)).map fun i => (m.drop (i * 64)).take 64

/-- The bytes of a word, the most significant one first. -/
def wordBytes (w : BitVec 32) : List UInt8 := (toBytes 4 w.toNat).reverse

def digest (s : State) : List UInt8 :=
  wordBytes s.a ++ wordBytes s.b ++ wordBytes s.c ++ wordBytes s.d ++ wordBytes s.e

end Sha1

def sha1 (m : List UInt8) : List UInt8 :=
  Sha1.digest ((Sha1.blocks (Sha1.pad m)).foldl Sha1.compress Sha1.initial)

/-! ## The rebuilder -/

namespace DexRebuilder

def kAccNative : ℕ := 0x100

/-- The ULEB128 number at a position and the position behind it. -/
def uleb (d : List UInt8) (p : ℕ) : ℕ × ℕ := Uleb128.read 32 (2 ^ 64) (d.length - p) d p

/-- The ULEB128 encoding of a `uint32_t`. -/
def wuleb (v : ℕ) : List UInt8 := Uleb128.write 5 v

/-- Pad the appended bytes to the next file offset that is a multiple of four. -/
def align4 (size : ℕ) (tail : List UInt8) : List UInt8 :=
  tail ++ List.replicate ((4 - (size + tail.length) % 4) % 4) 0

/-- Append the code items; return the appended bytes and the file offset of each method's code. -/
def appendCode (size : ℕ) : List (ℕ × List UInt8) → List UInt8 → List UInt8 × List (ℕ × ℕ)
  | [], tail => (tail, [])
  | (idx, code) :: items, tail =>
      let tail := align4 size tail
      let (rest, offs) := appendCode size items (tail ++ code)
      (rest, (idx, (size + tail.length) % 2 ^ 32) :: offs)

/-- Copy `n` encoded fields. -/
def copyFields (d : List UInt8) : (n p : ℕ) → List UInt8 × ℕ
  | 0, p => ([], p)
  | n + 1, p =>
      let (a, p) := uleb d p
      let (b, p) := uleb d p
      let (blk, p) := copyFields d n p
      (wuleb a ++ wuleb b ++ blk, p)

/-- The access flags and code offset of a method in the output, and whether it was patched. -/
def patchMethod (newCodeOff : List (ℕ × ℕ)) (midx acc coff : ℕ) : ℕ × ℕ × Bool :=
  match newCodeOff.lookup midx with
  | some off =>
      if acc &&& kAccNative ≠ 0 then (acc &&& (0xffffffff - kAccNative), off, true)
      else (acc, coff, false)
  | none => (acc, coff, false)

/-- Copy `n` encoded methods; return also the number of patched ones. -/
def copyMethods (newCodeOff : List (ℕ × ℕ)) (d : List UInt8) : (n midx p : ℕ) → List UInt8 × ℕ × ℕ
  | 0, _, p => ([], 0, p)
  | n + 1, midx, p =>
      let (diff, p) := uleb d p
      let (acc, p) := uleb d p
      let (coff, p) := uleb d p
      let midx := (midx + diff) % 2 ^ 32
      let (acc, coff, patched) := patchMethod newCodeOff midx acc coff
      let (blk, count, p) := copyMethods newCodeOff d n midx p
      (wuleb diff ++ wuleb acc ++ wuleb coff ++ blk, count + patched.toNat, p)

/-- The rebuilt class data of the class data at an offset, and the number of patched methods. -/
def rebuildClass (newCodeOff : List (ℕ × ℕ)) (d : List UInt8) (cdo : ℕ) : List UInt8 × ℕ :=
  let (sf, p) := uleb d cdo
  let (sfld, p) := uleb d p
  let (dm, p) := uleb d p
  let (vm, p) := uleb d p
  let (statics, p) := copyFields d sf p
  let (instances, p) := copyFields d sfld p
  let (direct, n, p) := copyMethods newCodeOff d dm 0 p
  let (virtual, n', _) := copyMethods newCodeOff d vm 0 p
  (wuleb sf ++ wuleb sfld ++ wuleb dm ++ wuleb vm ++ statics ++ instances ++ direct ++ virtual,
    n + n')

/-- The file and the bytes to append, while the classes are visited. -/
structure Progress where
  d : List UInt8
  tail : List UInt8
  patchedMethods : ℕ := 0
  patchedClasses : ℕ := 0

/-- Visit one class definition. -/
def relinkClass (newCodeOff : List (ℕ × ℕ)) (cdOff : ℕ) (s : Progress) (i : ℕ) : Progress :=
  let cdef := cdOff + i * 32
  let cdo := wordAt 4 s.d (cdef + 24)
  if cdo = 0 ∨ cdo ≥ s.d.length then s
  else
    let (blk, n) := rebuildClass newCodeOff s.d cdo
    if n = 0 then s
    else
      let tail := align4 s.d.length s.tail
      { d := overwrite s.d (cdef + 24) (toBytes 4 (s.d.length + tail.length))
        tail := tail ++ blk
        patchedMethods := s.patchedMethods + n
        patchedClasses := s.patchedClasses + 1 }

/-- Recompute `file_size`, `data_size`, the signature and the checksum. -/
def fixHeader (adler32 : List UInt8 → ℕ) (d : List UInt8) : List UInt8 :=
  let d := overwrite d 0x20 (toBytes 4 d.length)
  let d := overwrite d 0x68 (toBytes 4 (sub64 d.length (wordAt 4 d 0x6c)))
  let d := overwrite d 0x0c (sha1 (d.drop 0x20))
  overwrite d 0x08 (toBytes 4 (adler32 (d.drop 0x0c)))

/-- What the rebuilder returns and counts. -/
structure Built where
  bytes : List UInt8
  patchedMethods : ℕ
  patchedClasses : ℕ

/-- The file and appended bytes after the last class. -/
def relink (d : List UInt8) (recovered : CodeMap) : Progress :=
  let (tail, newCodeOff) := appendCode d.length recovered.items []
  (List.range (wordAt 4 d 0x60)).foldl (relinkClass newCodeOff (wordAt 4 d 0x64)) ⟨d, tail, 0, 0⟩

/-- Build the relinked file, or say why the input is refused. -/
def build (adler32 : List UInt8 → ℕ) (d : List UInt8) (recovered : CodeMap) :
    Except String Built :=
  if d.length < 0x70 ∨ d.take 4 ≠ ascii "dex\n" then .error "not a DEX"
  else if wordAt 4 d 0x64 + wordAt 4 d 0x60 * 32 > d.length then .error "bad class_defs"
  else
    let s := relink d recovered
    .ok ⟨fixHeader adler32 (s.d ++ s.tail), s.patchedMethods, s.patchedClasses⟩

end DexRebuilder

end Vardoger.Dex
