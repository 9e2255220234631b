import Vardoger.Dex.Rebuilt
import Mathlib.Data.Finset.Insert

/-!
# The method index

`dex_method_index` is a second reader of a DEX file: it collects the method ids by their class, name
and signature, and the access flags of the encoded methods. Its readers check no bounds. This file
also says which method records each of the three walkers over class data visits: the parser, the
method index and the rebuilder. What a walker computes is a function of those records.
-/

namespace Vardoger.Dex

open Bytes LittleEndian

/-- What is known of the methods of a file. -/
structure DexIndex where
  mid : List UInt8 × List UInt8 × List UInt8 → Option ℕ := fun _ => none
  acc : ℕ → Option ℕ := fun _ => none
  classes : Finset (List UInt8) := ∅

namespace Devirt

def rdU32 (d : List UInt8) (o : ℕ) : ℕ := wordAt 4 d o

def rdU16 (d : List UInt8) (o : ℕ) : ℕ := wordAt 2 d o

def rdUleb (d : List UInt8) (p : ℕ) : ℕ × ℕ := Uleb128.read 32 (2 ^ 64) (d.length - p) d p

def stri (t : Tables) (i : ℕ) : List UInt8 :=
  let off := rdU32 t.data ((t.stringIds.off + i * 4) % 2 ^ 32)
  (t.data.drop (rdUleb t.data off).2).takeWhile (· ≠ 0)

def typ (t : Tables) (i : ℕ) : List UInt8 :=
  stri t (rdU32 t.data ((t.typeIds.off + i * 4) % 2 ^ 32))

def protoSig (t : Tables) (pi : ℕ) : List UInt8 :=
  let o := t.protoIds.off + pi * 12
  let ret := typ t (rdU32 t.data (o + 4))
  let poff := rdU32 t.data (o + 8)
  let params :=
    if poff = 0 then []
    else
      let n := rdU32 t.data poff
      (List.range n).flatMap fun k => typ t (rdU16 t.data ((poff + 4 + k * 2) % 2 ^ 32))
  ascii "(" ++ params ++ ascii ")" ++ ret

/-- The class, name and signature of a method id. -/
def methodKey (t : Tables) (i : ℕ) : List UInt8 × List UInt8 × List UInt8 :=
  let o := t.methodIds.off + i * 8
  (typ t (rdU16 t.data o), stri t (rdU32 t.data (o + 4)), protoSig t (rdU16 t.data (o + 2)))

def indexMethodId (t : Tables) (ix : DexIndex) (i : ℕ) : DexIndex :=
  { ix with mid := Function.update ix.mid (methodKey t i) (some i) }

/-- Skip `n` encoded fields. -/
def skipFields (d : List UInt8) (n p : ℕ) : ℕ := skipPairs (rdUleb d) n p

/-- Note the access flags of `n` encoded methods. -/
def indexMethods (d : List UInt8) :
    (n midx p : ℕ) → (acc : ℕ → Option ℕ) → (ℕ → Option ℕ) × ℕ
  | 0, _, p, acc => (acc, p)
  | n + 1, midx, p, acc =>
      let (di, p) := rdUleb d p
      let (a, p) := rdUleb d p
      let (_, p) := rdUleb d p
      let midx := (midx + di) % 2 ^ 32
      indexMethods d n midx p (Function.update acc midx (some a))

def indexClass (t : Tables) (ix : DexIndex) (i : ℕ) : DexIndex :=
  let base := t.classDefs.off + i * 32
  let ix := { ix with classes := insert (typ t (rdU32 t.data base)) ix.classes }
  let cdata := rdU32 t.data (base + 24)
  if cdata = 0 then ix
  else
    let (sf, p) := rdUleb t.data cdata
    let (ifld, p) := rdUleb t.data p
    let (dm, p) := rdUleb t.data p
    let (vm, p) := rdUleb t.data p
    let p := skipFields t.data ((sf + ifld) % 2 ^ 32) p
    let (acc, p) := indexMethods t.data dm 0 p ix.acc
    { ix with acc := (indexMethods t.data vm 0 p acc).1 }

/-- The method index of a file. The words of the header are those the parser reads. -/
def dexMethodIndex (d : List UInt8) : DexIndex :=
  if d.length < 0x70 then {}
  else
    let t := Tables.ofHeader d
    let ix := (List.range t.methodIds.size).foldl (indexMethodId t) {}
    (List.range t.classDefs.size).foldl (indexClass t) ix

end Devirt

/-! ## The records a walker visits -/

/-- A method record of a class: the number of the class definition, the method index, the flags
and the code offset. -/
structure MethodVisit where
  cls : ℕ
  methodIdx : ℕ
  access : ℕ
  codeOff : ℕ
  deriving DecidableEq, Repr

def MethodVisit.of (k : ℕ) (m : ℕ × EncodedMethod) : MethodVisit :=
  ⟨k, m.1, m.2.access, m.2.codeOff⟩

/-- The records of the class data at an offset that the parser visits. -/
def Tables.visitsAt (t : Tables) (classDataOff : ℕ) :
    List (ℕ × EncodedMethod) × List (ℕ × EncodedMethod) :=
  if classDataOff = 0 ∨ classDataOff ≥ t.data.length then ([], [])
  else
    let (staticFields, p) := uleb t.data classDataOff
    let (instanceFields, p) := uleb t.data p
    let (directMethods, p) := uleb t.data p
    let (virtualMethods, p) := uleb t.data p
    let p := t.skipFields ((staticFields + instanceFields) % 2 ^ 32) p
    let (direct, p) := visits (uleb t.data) directMethods 0 p
    (direct, (visits (uleb t.data) virtualMethods 0 p).1)

/-- The records that the method index visits. -/
def Devirt.visitsAt (d : List UInt8) (cdata : ℕ) :
    List (ℕ × EncodedMethod) × List (ℕ × EncodedMethod) :=
  if cdata = 0 then ([], [])
  else
    let (sf, p) := rdUleb d cdata
    let (ifld, p) := rdUleb d p
    let (dm, p) := rdUleb d p
    let (vm, p) := rdUleb d p
    let p := skipFields d ((sf + ifld) % 2 ^ 32) p
    let (direct, p) := visits (rdUleb d) dm 0 p
    (direct, (visits (rdUleb d) vm 0 p).1)

/-- The records that the rebuilder visits. -/
def DexRebuilder.visitsAt (d : List UInt8) (cdo : ℕ) :
    List (ℕ × EncodedMethod) × List (ℕ × EncodedMethod) :=
  if cdo = 0 ∨ cdo ≥ d.length then ([], [])
  else
    let (sf, p) := uleb d cdo
    let (sfld, p) := uleb d p
    let (dm, p) := uleb d p
    let (vm, p) := uleb d p
    let (_, p) := copyFields d sf p
    let (_, p) := copyFields d sfld p
    let (direct, p) := visits (uleb d) dm 0 p
    (direct, (visits (uleb d) vm 0 p).1)

/-- All records of a walk over the class definitions. -/
def allVisits (size : ℕ)
    (visitsOf : ℕ → List (ℕ × EncodedMethod) × List (ℕ × EncodedMethod)) : List MethodVisit :=
  (List.range size).flatMap fun k =>
    ((visitsOf k).1 ++ (visitsOf k).2).map (MethodVisit.of k)

/-- The records `parse` visits. -/
def parseVisits (d : List UInt8) : List MethodVisit :=
  let t := Tables.ofHeader d
  allVisits t.classDefs.size fun k => t.visitsAt (rd32 d (t.classDefs.off + k * 32 + 24))

/-- The records `dex_method_index` visits. -/
def indexVisits (d : List UInt8) : List MethodVisit :=
  let t := Tables.ofHeader d
  allVisits t.classDefs.size fun k =>
    Devirt.visitsAt d (Devirt.rdU32 d (t.classDefs.off + k * 32 + 24))

/-- The records `build` visits: each class in the file as the classes before it left it. -/
def buildVisits (recovered : CodeMap) (d : List UInt8) : List MethodVisit :=
  let t := Tables.ofHeader d
  allVisits t.classDefs.size fun k =>
    let s := relinkFirst recovered d k
    DexRebuilder.visitsAt s.d (wordAt 4 s.d (t.classDefs.off + k * 32 + 24))

/-! ## What the walkers make of the records -/

/-- The parser reports the methods of the records. -/
theorem Tables.parseClassData_visits (t : Tables) (off : ℕ) :
    t.parseClassData off =
      ((t.visitsAt off).1.map t.method, (t.visitsAt off).2.map t.method) := by
  unfold Tables.parseClassData Tables.visitsAt
  split
  · rfl
  · simp only [t.decodeMethods_eq]

/-- The method index notes the flags of the records. -/
def noteAccess (acc : ℕ → Option ℕ) (ms : List (ℕ × EncodedMethod)) : ℕ → Option ℕ :=
  ms.foldl (fun acc m => Function.update acc m.1 (some m.2.access)) acc

theorem Devirt.indexMethods_eq (d : List UInt8) (n midx p : ℕ) (acc : ℕ → Option ℕ) :
    indexMethods d n midx p acc =
      (noteAccess acc (visits (rdUleb d) n midx p).1, (visits (rdUleb d) n midx p).2) := by
  induction n generalizing midx p acc with
  | zero => rfl
  | succ n ih =>
    rw [indexMethods, visits]
    simp only [ih, noteAccess, List.foldl_cons]

theorem Devirt.indexClass_acc (t : Tables) (ix : DexIndex) (i : ℕ) :
    (indexClass t ix i).acc =
      noteAccess ix.acc
        ((visitsAt t.data (rdU32 t.data (t.classDefs.off + i * 32 + 24))).1 ++
          (visitsAt t.data (rdU32 t.data (t.classDefs.off + i * 32 + 24))).2) := by
  unfold indexClass visitsAt
  dsimp only
  split
  · rfl
  · simp only [indexMethods_eq, noteAccess, List.foldl_append]

/-- The rebuilder writes the records with their patches behind the counts and the fields. -/
theorem DexRebuilder.rebuildClass_visits (newCodeOff : List (ℕ × ℕ)) {d : List UInt8} {cdo : ℕ}
    (h : ¬(cdo = 0 ∨ cdo ≥ d.length)) :
    ∃ fields, rebuildClass newCodeOff d cdo =
      (fields ++ (((visitsAt d cdo).1 ++ (visitsAt d cdo).2).map (patch newCodeOff)
          |>.flatMap EncodedMethod.numbers |>.flatMap wuleb),
        ((visitsAt d cdo).1 ++ (visitsAt d cdo).2).countP (isPatched newCodeOff)) := by
  rw [visitsAt, if_neg h]
  simp only [rebuildClass, copyMethods_eq, List.map_append, List.flatMap_append,
    List.countP_append]
  exact ⟨_, by rw [← List.append_assoc]⟩

end Vardoger.Dex
