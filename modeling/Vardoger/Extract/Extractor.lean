import Mathlib.Data.List.Infix
import Vardoger.Engine.Memory

/-!
# The payload extractor

`scan_dex` walks the scannable regions and reports every DEX or CDEX image it meets, by the magic
and a few header fields. Its loop tests an offset, and goes on four bytes further, or behind
the image if there is one. `search_strings` walks the same regions and reports the printable runs
that are long enough and contain a needle. `harvest_strings` has a loop of its own for the texts of
all runs, which it collects in an ordered set.
-/

namespace Vardoger

open Bytes LittleEndian Words

/-- One reported image. -/
structure FoundDex where
  addr : ℕ
  region : String
  version : String
  bytes : List UInt8
  deriving DecidableEq, Repr

/-- One reported string. -/
structure FoundString where
  addr : ℕ
  text : List UInt8
  region : String
  deriving DecidableEq, Repr

namespace Extractor

/-- The byte at an index, which the callers know to exist. -/
def byteAt (p : List UInt8) (i : ℕ) : UInt8 := p.getD i 0

/-- The magic of a DEX file of version 035 to 039. -/
def hasDexMagic (p : List UInt8) : Bool :=
  p.take 4 = ascii "dex\n" && byteAt p 7 = 0 && byteAt p 4 = 0x30 && byteAt p 5 = 0x33 &&
    0x35 ≤ byteAt p 6 && byteAt p 6 ≤ 0x39

/-- The size and version of a DEX or CDEX image that starts with the given bytes, if any. -/
def isDex (p : List UInt8) : Option (ℕ × String) :=
  if p.length < 0x70 then none
  else if hasDexMagic p then
    let fsz := wordAt 4 p 0x20
    let hsz := wordAt 4 p 0x24
    let endian := wordAt 4 p 0x28
    if hsz ≠ 0x70 ∨ endian ≠ 0x12345678 then none
    else if fsz < 0x70 ∨ fsz > p.length then none
    else some (fsz, "03".push (Char.ofNat (byteAt p 6).toNat))
  else if p.take 4 = ascii "cdex" then
    let fsz := wordAt 4 p 0x20
    if fsz < 0x70 ∨ fsz > p.length then none
    else some (fsz, "cdex")
  else none

/-- The kinds of region that can hold a payload. -/
def scannable : Kind → Bool
  | .heap | .mmap | .lib | .other => true
  | _ => false

/-- What the header test requires of an image. -/
theorem isDex_eq_some {p : List UInt8} {size : ℕ} {version : String} :
    isDex p = some (size, version) ↔
      wordAt 4 p 0x20 = size ∧ 0x70 ≤ size ∧ size ≤ p.length ∧
        ((hasDexMagic p ∧ wordAt 4 p 0x24 = 0x70 ∧ wordAt 4 p 0x28 = 0x12345678 ∧
            "03".push (Char.ofNat (byteAt p 6).toNat) = version) ∨
          (¬hasDexMagic p ∧ p.take 4 = ascii "cdex" ∧ "cdex" = version)) := by
  unfold isDex
  by_cases hlength : p.length < 0x70
  · rw [if_pos hlength]
    simp only [reduceCtorEq, false_iff]
    omega
  rw [if_neg hlength]
  by_cases hdex : hasDexMagic p
  · rw [if_pos hdex]
    simp only [hdex, not_true, false_and, or_false, true_and]
    split
    · simp only [reduceCtorEq, false_iff]
      omega
    · split
      · simp only [reduceCtorEq, false_iff]
        omega
      · simp only [Option.some.injEq, Prod.mk.injEq]
        constructor
        · rintro ⟨rfl, hversion⟩
          exact ⟨rfl, by omega, by omega, by omega, by omega, hversion⟩
        · rintro ⟨rfl, -, -, -, -, hversion⟩
          exact ⟨rfl, hversion⟩
  · rw [if_neg hdex]
    simp only [hdex, Bool.false_eq_true, false_and, not_false_eq_true, true_and, false_or]
    by_cases hcdex : p.take 4 = ascii "cdex"
    · rw [if_pos hcdex]
      split
      · simp only [reduceCtorEq, false_iff]
        omega
      · simp only [Option.some.injEq, Prod.mk.injEq, hcdex, true_and]
        constructor
        · rintro ⟨rfl, hversion⟩
          exact ⟨rfl, by omega, by omega, hversion⟩
        · rintro ⟨rfl, -, -, hversion⟩
          exact ⟨rfl, hversion⟩
    · simp [hcdex]

/-- An image has a size, and it fits. -/
theorem isDex_size {p : List UInt8} {size : ℕ} {version : String}
    (h : isDex p = some (size, version)) : 0x70 ≤ size ∧ size ≤ p.length := by
  obtain ⟨-, hlow, hhigh, -⟩ := isDex_eq_some.mp h
  exact ⟨hlow, hhigh⟩

/-- The scan of the bytes of one region from an offset on. -/
def scanFrom (r : Region) (buf : List UInt8) (off : ℕ) : List FoundDex :=
  if off + 0x70 ≤ buf.length then
    match h : isDex (buf.drop off) with
    | some (size, version) =>
        ⟨add64 r.base off, r.label, version, (buf.drop off).take size⟩ ::
          scanFrom r buf (off + size)
    | none => scanFrom r buf (off + 4)
  else []
termination_by buf.length - off
decreasing_by
  · have := isDex_size h
    omega
  · omega

/-- The reports of one region; a region that cannot be read ends the scan with an exception. -/
def scanRegion (e : Engine) (r : Region) : Except Failure (List FoundDex) := do
  let buf ← e.read r.base r.size
  return scanFrom r buf 0

/-- All reports, region by region. -/
def scanDex (m : Memory) : Except Failure (List FoundDex) := do
  let found ← (m.regions.filter fun r => scannable r.kind).mapM (scanRegion m.engine)
  return found.flatten

/-- Printable ASCII. -/
def printable (c : UInt8) : Bool := 0x20 ≤ c && c ≤ 0x7e

/-- The runs that are reported. -/
def keeps (needle : List UInt8) (minLen : ℕ) (run : List UInt8) : Bool :=
  minLen ≤ run.length && (needle.isEmpty || needle <:+: run)

/-- The report of a run that ends, if it is kept. -/
def flush (r : Region) (keep : List UInt8 → Bool) (start : ℕ) (run : List UInt8) :
    List FoundString :=
  if keep run then [⟨add64 r.base start, run, r.label⟩] else []

/-- The loop over the bytes of a region from offset `i` on, with the current run and where it
began. -/
def searchFrom (r : Region) (keep : List UInt8 → Bool) :
    ℕ → ℕ → List UInt8 → List UInt8 → List FoundString
  | _, start, run, [] => flush r keep start run
  | i, start, run, c :: buf =>
      if printable c then
        searchFrom r keep (i + 1) (if run.isEmpty then i else start) (run ++ [c]) buf
      else flush r keep start run ++ searchFrom r keep (i + 1) start [] buf

/-- The strings of one region. -/
def searchRegion (e : Engine) (keep : List UInt8 → Bool) (r : Region) :
    Except Failure (List FoundString) := do
  let buf ← e.read r.base r.size
  return searchFrom r keep 0 0 [] buf

/-- All strings, region by region. -/
def searchStrings (m : Memory) (needle : List UInt8) (minLen : ℕ) :
    Except Failure (List FoundString) := do
  let found ← (m.regions.filter fun r => scannable r.kind).mapM
    (searchRegion m.engine (keeps needle minLen))
  return found.flatten

/-- Keep a run that ends, if it is long enough. -/
def insertRun (minLen : ℕ) (uniq : Std.ExtTreeSet (List UInt8)) (run : List UInt8) :
    Std.ExtTreeSet (List UInt8) :=
  if minLen ≤ run.length then uniq.insert run else uniq

/-- The loop of `harvest_strings` over the bytes of a region, with the current run. -/
def harvestFrom (minLen : ℕ) (uniq : Std.ExtTreeSet (List UInt8)) :
    List UInt8 → List UInt8 → Std.ExtTreeSet (List UInt8)
  | run, [] => insertRun minLen uniq run
  | run, c :: buf =>
    if printable c then harvestFrom minLen uniq (run ++ [c]) buf
    else harvestFrom minLen (insertRun minLen uniq run) [] buf

/-- The texts of all printable runs, each once and in order. -/
def harvestStrings (m : Memory) (minLen : ℕ) : Except Failure (List (List UInt8)) := do
  let uniq ← (m.regions.filter fun r => scannable r.kind).foldlM (fun uniq r => do
    let buf ← m.engine.read r.base r.size
    return harvestFrom minLen uniq [] buf) ∅
  return uniq.toList

end Extractor

end Vardoger
