import Vardoger.Dex.Devirt
import Mathlib.Data.List.Sort

/-!
# The families of virtual opcodes

The devirtualizer gives each virtual opcode a family. The families come from rows of a text: the
`OPMAP` rows name them, and the `MICROVM` rows describe the handler of an opcode, from which
`md_classify` derives one. Texts are lists of characters, one for each byte, and the number readers
are those of the C library.
-/

namespace Vardoger.Dex

instance transCmpOpcode : Std.TransCmp (compare : BitVec 16 → BitVec 16 → Ordering) := inferInstance

/-- A `std::map` with opcodes as keys. -/
abbrev OpMap (β : Type) := Std.ExtTreeMap (BitVec 16) β

/-! ## Reading text -/

/-- The lines that `std::getline` reads: there is none behind a final newline. -/
def getlines (text : List Char) : List (List Char) :=
  let ls := text.splitOn '\n'
  if ls.getLast? = some [] then ls.dropLast else ls

/-- The first position from `start` on at which the key stands. -/
def findFrom (key s : List Char) (start : ℕ) : Option ℕ :=
  (List.range' start (s.length + 1 - start)).find? fun i => key.isPrefixOf (s.drop i)

def isBlank (c : Char) : Bool := c = ' ' || c = '\t'

def isSpace (c : Char) : Bool := c = ' ' || (9 ≤ c.toNat && c.toNat ≤ 13)

/-- The words that `>>` reads. -/
def tokens (s : List Char) : List (List Char) := (s.splitOnP isSpace).filter (· ≠ [])

/-- The value of a digit in a base, none if it is no digit there. -/
def digitVal (base : ℕ) (c : Char) : Option ℕ :=
  let v := if c.isDigit then c.toNat - '0'.toNat
    else if c.isLower then c.toNat - 'a'.toNat + 10
    else if c.isUpper then c.toNat - 'A'.toNat + 10
    else base
  if v < base then some v else none

/-- The number that the leading digits make. -/
def digitsVal (base : ℕ) (s : List Char) : ℕ :=
  ((s.map (digitVal base)).takeWhile Option.isSome).foldl (fun n v => n * base + v.getD 0) 0

/-- Skip `0x` in front of a hexadecimal digit. -/
def skipHex : List Char → List Char
  | '0' :: x :: c :: s =>
      if (x = 'x' || x = 'X') && (digitVal 16 c).isSome then c :: s else '0' :: x :: c :: s
  | s => s

/-- The sign and the size of the number at the start of a text. -/
def signedDigits (base : ℕ) (s : List Char) : Bool × ℕ :=
  let magnitude := fun s => digitsVal base (if base = 16 then skipHex s else s)
  match s.dropWhile isSpace with
  | '-' :: s => (true, magnitude s)
  | '+' :: s => (false, magnitude s)
  | s => (false, magnitude s)

/-- `strtoul`: too large a number becomes the largest one, a negative one wraps around. -/
def strtoul (base : ℕ) (s : List Char) : ℕ :=
  let (negative, v) := signedDigits base s
  if v ≥ 2 ^ 64 then 2 ^ 64 - 1 else if negative then (2 ^ 64 - v) % 2 ^ 64 else v

/-- `strtoll`: a number out of range becomes the closest one. -/
def strtoll (base : ℕ) (s : List Char) : ℤ :=
  let (negative, v) := signedDigits base s
  if negative then max (-2 ^ 63) (-v) else min (2 ^ 63 - 1) v

/-! ## Rows -/

/-- The opcode and the family of an `OPMAP` row. -/
def opmapRow (ln : List Char) : Option (BitVec 16 × String) := do
  let mp ← findFrom "OPMAP op=".toList ln 0
  let fp ← findFrom "family=".toList ln mp
  let sop := (ln.drop (mp + 9)).takeWhile (!isBlank ·)
  let fam := (ln.drop (fp + 7)).takeWhile fun c => !(isBlank c || c = '\r' || c = '\n')
  if fam = [] then none else some (BitVec.ofNat 16 (strtoul 16 sop), String.ofList fam)

def parseOpmap (text : List Char) : OpMap String :=
  (getlines text).foldl (fun out ln =>
    match opmapRow ln with
    | none => out
    | some (op, fam) => out.insert op fam) ∅

/-- What a `MICROVM` row says about the handler of an opcode. -/
structure MicrovmRow where
  reads : List (BitVec 32)
  writes : List (BitVec 32)
  alu : List String
  branch : BitVec 32
  worddec : BitVec 32
  calls : List (BitVec 64)
  deriving DecidableEq, Repr

/-- The word behind a key of a row, or the text in the brackets behind it. -/
def rowField (ln : List Char) (mp : ℕ) (key : String) (bracketed : Bool) : List Char :=
  match findFrom key.toList ln mp with
  | none => []
  | some p =>
      let rest := ln.drop (p + key.length)
      if bracketed then
        match rest with
        | '[' :: body => body.takeWhile (· ≠ ']')
        | _ => []
      else rest.takeWhile (!isBlank ·)

def microvmRow (ln : List Char) : Option (BitVec 16 × MicrovmRow) := do
  let mp ← findFrom "MICROVM op=".toList ln 0
  let ints := fun key base => (tokens (rowField ln mp key true)).map (strtoll base)
  let int := fun key => BitVec.ofInt 32 (strtoll 10 (rowField ln mp key false))
  let sop := rowField ln mp "op=" false
  some (if sop = "0000".toList then 0 else BitVec.ofNat 16 (strtoul 16 sop),
    { reads := (ints "r=" 10).map (BitVec.ofInt 32)
      writes := (ints "w=" 10).map (BitVec.ofInt 32)
      alu := (tokens (rowField ln mp "alu=" true)).map String.ofList
      branch := int "branch="
      worddec := int "worddec="
      calls := (ints "calls=" 16).map (BitVec.ofInt 64) })

def mdParseStatic (text : List Char) : OpMap MicrovmRow :=
  (getlines text).foldl (fun rows ln =>
    match microvmRow ln with
    | none => rows
    | some (op, row) => rows.insert op row) ∅

/-! ## Classification -/

/-- The call targets in the order in which they are first seen: by opcode, and in a row by
address. -/
def firstSeen (rows : List MicrovmRow) : List (BitVec 64) :=
  (rows.flatMap fun row => row.calls.insertionSort (·.toNat ≤ ·.toNat)).reverse.dedup.reverse

/-- The call targets by the number of opcodes that call them, the most frequent one first, and
those of one number in the order in which they are seen. -/
def ranked (rows : List MicrovmRow) : List (BitVec 64) :=
  let seen := firstSeen rows
  let freq := fun c => rows.countP fun row => c ∈ row.calls
  seen.insertionSort fun a b =>
    freq b < freq a ∨ (freq a = freq b ∧ seen.idxOf a ≤ seen.idxOf b)

/-- The family of an opcode from its row, given the most frequent call target and the next one. -/
def classifyRow (opf inv : Option (BitVec 64)) (d : MicrovmRow) : String :=
  let nr := d.reads.length
  let nw := d.writes.length
  if d.branch ≠ 0 then if nr ≥ 2 then "if-cmp" else "if-testz"
  else if inv.any (· ∈ d.calls) then "invoke"
  else if d.alu ≠ [] then
    if d.writes.any (· ∈ d.reads) then d.alu.headD "" ++ "/2addr" else d.alu.headD ""
  else if d.worddec.toInt ≥ 1 ∧ nr = 0 ∧ nw = 0 then "const-wide/switch/fill-array"
  else if opf.any (· ∈ d.calls) ∧ nr = 0 ∧ nw ≤ 1 then "const/ref"
  else if nr ≥ 2 ∧ nw ≥ 1 then "binary-int"
  else if nr = 2 ∧ nw = 0 then "if-cmp"
  else if nr = 1 ∧ nw = 1 then "move/unary"
  else if nr = 0 ∧ nw = 1 then "move-result/const"
  else if nr = 1 ∧ nw = 0 then "if-testz/return"
  else if d.calls ≠ [] then "ref-op"
  else "nop/goto"

def mdClassify (rows : OpMap MicrovmRow) : OpMap String :=
  let targets := ranked (rows.toList.map Prod.snd)
  rows.map fun _ row => classifyRow targets[0]? targets[1]? row

end Vardoger.Dex
