import Mathlib.Data.List.GetD
import Mathlib.Data.Nat.Find
import Vardoger.Base.Bytes

/-!
# The secure hash algorithm

SHA-1 as its standard defines it, on strings of bits of any length below `2 ^ 64`, and what is
needed to compare it with a program: a string of bits is a concatenation of words, written with the
most significant bit first.
-/

namespace SecureHash

open LittleEndian

/-! ## Bits and words -/

/-- The bits of a word, the most significant one first. -/
def bitsOf {w : ℕ} (x : BitVec w) : List Bool := (List.range w).map x.getMsbD

/-- The bits of a string of bytes. -/
def bytesBits (x : List UInt8) : List Bool := x.flatMap fun b => bitsOf b.toBitVec

/-- The word of 32 bits from a position of a string of bits on. -/
def wordAt (m : List Bool) (p : ℕ) : BitVec 32 :=
  (BitVec.ofBoolListBE ((List.range 32).map fun i => m.getD (p + i) false)).cast (by simp)

/-! ## The standard -/

/-- As many zeros follow the bit behind a message that 64 bits are missing to a whole block. -/
theorem exists_zeros (length : ℕ) : ∃ k, (length + 1 + k) % 512 = 448 :=
  ⟨(959 - length % 512) % 512, by omega⟩

/-- The least number of such zeros. -/
def zeros (length : ℕ) : ℕ := Nat.find (exists_zeros length)

/-- The message with its padding. -/
def padded (m : List Bool) : List Bool :=
  m ++ [true] ++ List.replicate (zeros m.length) false ++ bitsOf (BitVec.ofNat 64 m.length)

def ch (x y z : BitVec 32) : BitVec 32 := (x &&& y) ^^^ (~~~x &&& z)

def parity (x y z : BitVec 32) : BitVec 32 := x ^^^ y ^^^ z

def maj (x y z : BitVec 32) : BitVec 32 := (x &&& y) ^^^ (x &&& z) ^^^ (y &&& z)

/-- The function of a step. -/
def f (t : ℕ) : BitVec 32 → BitVec 32 → BitVec 32 → BitVec 32 :=
  if t ≤ 19 then ch else if t ≤ 39 then parity else if t ≤ 59 then maj else parity

/-- The constant of a step. -/
def k (t : ℕ) : BitVec 32 :=
  if t ≤ 19 then 0x5a827999 else if t ≤ 39 then 0x6ed9eba1
  else if t ≤ 59 then 0x8f1bbcdc else 0xca62c1d6

/-- The message schedule of a block with the given words. -/
def schedule (block : ℕ → BitVec 32) (t : ℕ) : BitVec 32 :=
  if t < 16 then block t
  else (schedule block (t - 3) ^^^ schedule block (t - 8) ^^^ schedule block (t - 14) ^^^
    schedule block (t - 16)).rotateLeft 1

/-- The working variables, and the words of a hash value. -/
structure State where
  a : BitVec 32
  b : BitVec 32
  c : BitVec 32
  d : BitVec 32
  e : BitVec 32

def initial : State := ⟨0x67452301, 0xefcdab89, 0x98badcfe, 0x10325476, 0xc3d2e1f0⟩

def round (w : ℕ → BitVec 32) (s : State) (t : ℕ) : State :=
  ⟨s.a.rotateLeft 5 + f t s.b s.c s.d + s.e + k t + w t, s.a, s.b.rotateLeft 30, s.c, s.d⟩

/-- The hash value behind a block. -/
def compress (h : State) (block : ℕ → BitVec 32) : State :=
  let s := (List.range 80).foldl (round (schedule block)) h
  ⟨s.a + h.a, s.b + h.b, s.c + h.c, s.d + h.d, s.e + h.e⟩

/-- The hash value behind a padded message. -/
def hash (m : List Bool) : State :=
  (List.range (m.length / 512)).foldl
    (fun h i => compress h fun t => wordAt m (512 * i + 32 * t)) initial

def digest (h : State) : List Bool :=
  bitsOf h.a ++ bitsOf h.b ++ bitsOf h.c ++ bitsOf h.d ++ bitsOf h.e

def sha1 (m : List Bool) : List Bool := digest (hash (padded m))

/-! ## Concatenations -/

variable {v w : ℕ}

@[simp] theorem length_bitsOf (x : BitVec w) : (bitsOf x).length = w := by simp [bitsOf]

theorem bitsOf_append (x : BitVec v) (y : BitVec w) : bitsOf (x ++ y) = bitsOf x ++ bitsOf y := by
  refine List.ext_getElem (by simp) fun i hi _ => ?_
  rw [List.getElem_append]
  simp only [bitsOf, List.getElem_map, List.getElem_range, BitVec.getMsbD_append, List.length_map,
    List.length_range]
  split_ifs <;> first | rfl | omega

theorem getMsbD_wordAt (m : List Bool) (p : ℕ) {i : ℕ} (hi : i < 32) :
    (wordAt m p).getMsbD i = m.getD (p + i) false := by
  rw [wordAt, BitVec.getMsbD_cast, BitVec.getMsbD_ofBoolListBE,
    List.getD_eq_getElem _ _ (by simpa using hi), List.getElem_map, List.getElem_range]

/-- A string that starts with the bits of a word. -/
theorem wordAt_bitsOf (x : BitVec 32) (m : List Bool) : wordAt (bitsOf x ++ m) 0 = x := by
  refine BitVec.eq_of_getMsbD_eq fun i hi => ?_
  rw [getMsbD_wordAt _ _ hi, Nat.zero_add, List.getD_append _ _ _ _ (by simpa),
    List.getD_eq_getElem _ _ (by simpa)]
  simp [bitsOf]

theorem wordAt_drop (m : List Bool) (n p : ℕ) : wordAt (m.drop n) p = wordAt m (n + p) := by
  refine BitVec.eq_of_getMsbD_eq fun i hi => ?_
  simp only [getMsbD_wordAt _ _ hi, List.getD_eq_getElem?_getD, List.getElem?_drop, Nat.add_assoc]

theorem wordAt_take (m : List Bool) {n p : ℕ} (h : p + 32 ≤ n) :
    wordAt (m.take n) p = wordAt m p := by
  refine BitVec.eq_of_getMsbD_eq fun i hi => ?_
  rw [getMsbD_wordAt _ _ hi, getMsbD_wordAt _ _ hi, List.getD_eq_getElem?_getD,
    List.getElem?_take_of_lt (by omega), ← List.getD_eq_getElem?_getD]

/-- The words of a concatenation of words. -/
theorem wordAt_flatMap {words : List (BitVec 32)} {t : ℕ} {x : BitVec 32}
    (h : words[t]? = some x) : wordAt (words.flatMap bitsOf) (32 * t) = x := by
  induction words generalizing t with
  | nil => cases h
  | cons y words ih =>
    rw [List.flatMap_cons]
    cases t with
    | zero =>
      obtain rfl : y = x := by simpa using h
      exact wordAt_bitsOf y _
    | succ t =>
      rw [Nat.mul_succ, Nat.add_comm, ← wordAt_drop, List.drop_left' (length_bitsOf y)]
      exact ih (by simpa using h)

/-! ## Bytes -/

@[simp] theorem length_bytesBits (x : List UInt8) : (bytesBits x).length = 8 * x.length := by
  simp [bytesBits, Nat.mul_comm]

theorem bytesBits_append (x y : List UInt8) : bytesBits (x ++ y) = bytesBits x ++ bytesBits y :=
  List.flatMap_append

theorem bytesBits_drop (x : List UInt8) (n : ℕ) :
    bytesBits (x.drop n) = (bytesBits x).drop (8 * n) := by
  induction x generalizing n with
  | nil => simp [bytesBits]
  | cons b x ih =>
    cases n with
    | zero => rfl
    | succ n =>
      have hcons : bytesBits (b :: x) = bitsOf b.toBitVec ++ bytesBits x := List.flatMap_cons
      rw [List.drop_succ_cons, ih, hcons, Nat.mul_succ, Nat.add_comm, ← List.drop_drop,
        List.drop_left' (length_bitsOf _)]

theorem bytesBits_take (x : List UInt8) (n : ℕ) :
    bytesBits (x.take n) = (bytesBits x).take (8 * n) := by
  have hsplit : bytesBits x = bytesBits (x.take n) ++ bytesBits (x.drop n) := by
    rw [← bytesBits_append, List.take_append_drop]
  by_cases hn : n ≤ x.length
  · rw [hsplit, List.take_left' (by simp [hn])]
  · rw [List.take_of_length_le (by omega), List.take_of_length_le (by simp; omega)]

/-- The bits of a number are those of its bytes, the most significant one first. -/
theorem bytesBits_toBytes (n v : ℕ) :
    bytesBits (toBytes n v).reverse = bitsOf (BitVec.ofNat (8 * n) v) := by
  induction n generalizing v with
  | zero => rfl
  | succ n ih =>
    have hsplit : BitVec.ofNat (8 * n + 8) v =
        BitVec.ofNat (8 * n) (v / 256) ++ BitVec.ofNat 8 v := by
      refine BitVec.eq_of_getLsbD_eq fun i hi => ?_
      rw [BitVec.getLsbD_append]
      by_cases hlow : i < 8
      · rw [if_pos hlow, BitVec.getLsbD_ofNat, BitVec.getLsbD_ofNat]
        simp only [hi, hlow]
      · have hbit : (v / 256).testBit (i - 8) = v.testBit i := by
          rw [show 256 = 2 ^ 8 by rfl, Nat.testBit_div_two_pow, Nat.sub_add_cancel (by omega)]
        rw [if_neg hlow, BitVec.getLsbD_ofNat, BitVec.getLsbD_ofNat, hbit]
        simp only [hi, show i - 8 < 8 * n by omega]
    have hlast : bytesBits [UInt8.ofNat v] = bitsOf (BitVec.ofNat 8 v) := List.append_nil _
    rw [toBytes, List.reverse_cons, bytesBits_append, ih, Nat.mul_succ, hsplit, bitsOf_append,
      hlast]

/-! ## Padding -/

/-- Fewer zeros than a block has bits are the least number. -/
theorem zeros_eq {length n : ℕ} (hn : n < 512) (h : (length + 1 + n) % 512 = 448) :
    zeros length = n := by
  refine (Nat.find_eq_iff _).mpr ⟨h, fun j hj hsum => ?_⟩
  omega

end SecureHash
