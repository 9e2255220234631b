import Vardoger.Base.SecureHash
import Vardoger.Dex.Integrity

/-!
# The signature is SHA-1

The rebuilder and its check each have a copy of the same hash function. It keeps the message as
bytes, writes the rounds with other Boolean functions and extends the message schedule in place.
We compare it with the standard, which is about strings of bits: padding, schedule, rounds and
digest agree, and with them the hash values behind each block.
-/

namespace Vardoger.Dex

open Bytes LittleEndian SecureHash

namespace Sha1

/-! ## Padding -/

/-- The loop that appends zeros stops at the first length that leaves room for eight bytes. -/
theorem pad_stops (length : ℕ) :
    (length + 1 + (56 + 64 - (length + 1) % 64) % 64) % 64 = 56 ∧
      ∀ n < (56 + 64 - (length + 1) % 64) % 64, (length + 1 + n) % 64 ≠ 56 :=
  ⟨by omega, fun n hn => by omega⟩

theorem zeros_of_bytes (length : ℕ) :
    zeros (8 * length) = 7 + 8 * ((56 + 64 - (length + 1) % 64) % 64) := by
  have hstop := (pad_stops length).1
  exact zeros_eq (by omega) (by omega)

theorem bytesBits_zeros (n : ℕ) :
    bytesBits (List.replicate n 0) = List.replicate (8 * n) false := by
  induction n with
  | zero => rfl
  | succ n ih =>
    rw [List.replicate_succ', bytesBits_append, ih, Nat.mul_succ, List.replicate_add]
    rfl

theorem bytesBits_pad {m : List UInt8} (hm : m.length < 2 ^ 61) :
    bytesBits (pad m) = padded (bytesBits m) := by
  have hlength : m.length * 8 % 2 ^ 64 = 8 * m.length := by omega
  have hmark : bytesBits [0x80] = [true] ++ List.replicate 7 false := by decide
  rw [pad, hlength]
  simp only [bytesBits_append, bytesBits_zeros, hmark, bytesBits_toBytes, padded,
    length_bytesBits, zeros_of_bytes, List.length_append, List.length_singleton,
    List.replicate_add, List.append_assoc]

/-- No block is read past the end of the padded message. -/
theorem dvd_length_pad (m : List UInt8) : 64 ∣ (pad m).length := by
  simp only [pad, List.length_append, List.length_singleton, List.length_replicate,
    List.length_reverse, length_toBytes]
  omega

/-! ## Blocks -/

theorem word_eq (a b c d : BitVec 8) :
    (a.setWidth 32 <<< 24) ||| (b.setWidth 32 <<< 16) ||| (c.setWidth 32 <<< 8) |||
      d.setWidth 32 = (a ++ b ++ c ++ d : BitVec 32) := by
  refine BitVec.eq_of_getLsbD_eq fun i hi => ?_
  simp only [BitVec.getLsbD_or, BitVec.getLsbD_shiftLeft, BitVec.getLsbD_setWidth,
    BitVec.getLsbD_append]
  by_cases h₁ : i < 8
  · simp [h₁, hi, show i < 16 by omega, show i < 24 by omega]
  have hd : d.getLsbD i = false := BitVec.getLsbD_of_ge _ _ (by omega)
  by_cases h₂ : i < 16
  · simp [h₁, h₂, hd, hi, show i < 24 by omega, show i - 8 < 8 by omega, show i - 8 < 32 by omega]
  have hc : c.getLsbD (i - 8) = false := BitVec.getLsbD_of_ge _ _ (by omega)
  by_cases h₃ : i < 24
  · simp [h₁, h₂, h₃, hc, hd, hi, Nat.sub_sub, show ¬i - 8 < 8 by omega,
      show i - 16 < 8 by omega, show i - 16 < 32 by omega]
  have hb : b.getLsbD (i - 16) = false := BitVec.getLsbD_of_ge _ _ (by omega)
  simp [h₁, h₂, h₃, hb, hc, hd, hi, Nat.sub_sub, show ¬i - 8 < 8 by omega,
    show ¬i - 16 < 8 by omega, show i - 24 < 32 by omega]

/-- The bits of a word are those of its four bytes. -/
theorem bitsOf_word (a b c d : UInt8) :
    bitsOf ((a.toBitVec.setWidth 32 <<< 24) ||| (b.toBitVec.setWidth 32 <<< 16) |||
      (c.toBitVec.setWidth 32 <<< 8) ||| d.toBitVec.setWidth 32) = bytesBits [a, b, c, d] := by
  rw [word_eq, bitsOf_append, bitsOf_append, bitsOf_append]
  simp [bytesBits]

theorem flatMap_blockWords (x : List UInt8) {n : ℕ} (hx : x.length = 4 * n) :
    (blockWords x).flatMap bitsOf = bytesBits x ∧ (blockWords x).length = n := by
  induction n generalizing x with
  | zero =>
    obtain rfl := List.length_eq_zero_iff.mp hx
    exact ⟨rfl, rfl⟩
  | succ n ih =>
    match x, hx with
    | a :: b :: c :: d :: rest, hx =>
      obtain ⟨hbits, hlength⟩ := ih rest (by simp only [List.length_cons] at hx; omega)
      rw [blockWords, List.flatMap_cons, hbits, bitsOf_word, ← bytesBits_append,
        List.length_cons, hlength]
      exact ⟨rfl, rfl⟩

/-! ## The schedule -/

theorem rol_eq (x : BitVec 32) {n : ℕ} (hn : n < 32) : rol x n = x.rotateLeft n := by
  rw [rol, BitVec.rotateLeft, Nat.mod_eq_of_lt hn]
  rfl

theorem length_extend (w : List (BitVec 32)) : (extend w).length = w.length + 1 := by
  simp [extend]

/-- One more word of the schedule. -/
theorem getElem_extend {block : ℕ → BitVec 32} {w : List (BitVec 32)} (hw : 16 ≤ w.length)
    (h : ∀ t < w.length, w[t]? = some (SecureHash.schedule block t)) :
    ∀ t < w.length + 1, (extend w)[t]? = some (SecureHash.schedule block t) := by
  intro t ht
  have hback (n : ℕ) (hn : 0 < n) (hle : n ≤ 16) :
      w.getD (w.length - n) 0 = SecureHash.schedule block (w.length - n) := by
    rw [List.getD_eq_getElem?_getD, h _ (by omega), Option.getD_some]
  by_cases hlt : t < w.length
  · rw [extend, List.getElem?_append_left hlt]
    exact h t hlt
  · obtain rfl : t = w.length := by omega
    rw [extend, List.getElem?_concat_length, SecureHash.schedule, if_neg (by omega),
      rol_eq _ (by decide)]
    simp only [hback 3 (by decide) (by decide), hback 8 (by decide) (by decide),
      hback 14 (by decide) (by decide), hback 16 (by decide) (by decide)]

theorem getElem_schedule {block : ℕ → BitVec 32} {x : List UInt8} (hx : x.length = 64)
    (hblock : ∀ t < 16, block t = wordAt (bytesBits x) (32 * t)) :
    (schedule x).length = 80 ∧
      ∀ t < 80, (schedule x)[t]? = some (SecureHash.schedule block t) := by
  obtain ⟨hbits, hlength⟩ := flatMap_blockWords x (n := 16) hx
  have hwords : ∀ t < 16, (blockWords x)[t]? = some (SecureHash.schedule block t) := by
    intro t ht
    have hget := List.getElem?_eq_getElem (l := blockWords x) (i := t) (by omega)
    rw [SecureHash.schedule, if_pos ht, hblock t ht, ← hbits, wordAt_flatMap hget, hget]
  have hrun (n : ℕ) : (extend^[n] (blockWords x)).length = 16 + n ∧
      ∀ t < 16 + n, (extend^[n] (blockWords x))[t]? = some (SecureHash.schedule block t) := by
    induction n with
    | zero => exact ⟨hlength, hwords⟩
    | succ n ih =>
      obtain ⟨hn, hwords⟩ := ih
      rw [Function.iterate_succ_apply', length_extend, hn]
      refine ⟨rfl, fun t ht => ?_⟩
      exact getElem_extend (by omega) (by rwa [hn]) t (by omega)
  exact hrun 64

/-! ## The rounds -/

/-- The variables under the names of the standard. -/
def State.standard (s : State) : SecureHash.State := ⟨s.a, s.b, s.c, s.d, s.e⟩

theorem ch_eq (x y z : BitVec 32) : (x &&& y) ||| (~~~x &&& z) = ch x y z := by
  refine BitVec.eq_of_getLsbD_eq fun i hi => ?_
  simp only [ch, BitVec.getLsbD_or, BitVec.getLsbD_and, BitVec.getLsbD_xor, BitVec.getLsbD_not, hi]
  cases x.getLsbD i <;> simp

theorem maj_eq (x y z : BitVec 32) : (x &&& y) ||| (x &&& z) ||| (y &&& z) = maj x y z := by
  refine BitVec.eq_of_getLsbD_eq fun i hi => ?_
  simp only [maj, BitVec.getLsbD_or, BitVec.getLsbD_and, BitVec.getLsbD_xor]
  cases x.getLsbD i <;> cases y.getLsbD i <;> simp

theorem mix_eq (t : ℕ) (s : State) : mix t s = (f t s.b s.c s.d, k t) := by
  simp only [mix, f, k, ch_eq, maj_eq, ← Nat.lt_succ_iff, Nat.succ_eq_add_one, Nat.reduceAdd]
  split_ifs <;> rfl

theorem standard_step (w : ℕ → BitVec 32) (s : State) (t : ℕ) :
    SecureHash.round w s.standard t = (step s (w t, t)).standard := by
  simp only [SecureHash.round, step, mix_eq, State.standard, rol_eq _ (show 5 < 32 by decide),
    rol_eq _ (show 30 < 32 by decide)]

theorem standard_compress {block : ℕ → BitVec 32} {x : List UInt8} (hx : x.length = 64)
    (hblock : ∀ t < 16, block t = wordAt (bytesBits x) (32 * t)) (h : State) :
    (compress h x).standard = SecureHash.compress h.standard block := by
  obtain ⟨hlength, hwords⟩ := getElem_schedule hx hblock
  have hsteps : (schedule x).zipIdx =
      (List.range 80).map fun t => (SecureHash.schedule block t, t) := by
    refine List.ext_getElem (by simp [hlength]) fun t ht _ => ?_
    have hword := hwords t (by simpa [hlength] using ht)
    rw [List.getElem_zipIdx, List.getElem_map, List.getElem_range, Nat.zero_add]
    rw [(List.getElem?_eq_some_iff.mp hword).2]
  have hrounds : (List.range 80).foldl (SecureHash.round (SecureHash.schedule block)) h.standard =
      ((schedule x).zipIdx.foldl step h).standard := by
    rw [hsteps, List.foldl_map]
    exact List.foldl_hom State.standard fun s t => standard_step _ s t
  rw [SecureHash.compress, hrounds]
  simp only [compress, State.standard, BitVec.add_comm]

/-! ## Whole messages -/

theorem standard_block {m : List UInt8} {i : ℕ} (hi : i < m.length / 64) (h : State) :
    (compress h ((m.drop (i * 64)).take 64)).standard =
      SecureHash.compress h.standard fun t => wordAt (bytesBits m) (512 * i + 32 * t) := by
  refine standard_compress ?_ (fun t ht => ?_) h
  · rw [List.length_take, List.length_drop]
    omega
  · rw [bytesBits_take, bytesBits_drop, wordAt_take _ (by omega), wordAt_drop]
    congr 1
    omega

/-- The hash values behind the blocks, one after the other. -/
theorem standard_hash (m : List UInt8) :
    ((blocks m).foldl compress initial).standard = SecureHash.hash (bytesBits m) := by
  have hcount : (bytesBits m).length / 512 = m.length / 64 := by
    rw [length_bytesBits]
    omega
  have hrun (l : List ℕ) (hl : ∀ i ∈ l, i < m.length / 64) (h : State) :
      (l.foldl (fun h i => compress h ((m.drop (i * 64)).take 64)) h).standard =
        l.foldl (fun h i => SecureHash.compress h fun t =>
          wordAt (bytesBits m) (512 * i + 32 * t)) h.standard := by
    induction l generalizing h with
    | nil => rfl
    | cons i l ih =>
      rw [List.foldl_cons, List.foldl_cons, ← standard_block (hl i (by simp)) h]
      exact ih (fun j hj => hl j (by simp [hj])) _
  rw [blocks, List.foldl_map, SecureHash.hash, hcount]
  exact hrun _ (fun i hi => List.mem_range.mp hi) initial

theorem bytesBits_wordBytes (w : BitVec 32) : bytesBits (wordBytes w) = bitsOf w := by
  rw [wordBytes, bytesBits_toBytes, BitVec.ofNat_toNat, BitVec.setWidth_eq]

theorem bytesBits_digest (h : State) : bytesBits (digest h) = SecureHash.digest h.standard := by
  simp only [digest, SecureHash.digest, bytesBits_append, bytesBits_wordBytes, State.standard]

end Sha1

/-- Both copies compute SHA-1. -/
theorem sha1_standard {m : List UInt8} (hm : m.length < 2 ^ 61) :
    bytesBits (sha1 m) = SecureHash.sha1 (bytesBits m) ∧
      bytesBits (Devirt.sha1 m) = SecureHash.sha1 (bytesBits m) := by
  have hsha : bytesBits (sha1 m) = SecureHash.sha1 (bytesBits m) := by
    rw [sha1, Sha1.bytesBits_digest, Sha1.standard_hash, Sha1.bytesBits_pad hm]
    rfl
  exact ⟨hsha, hsha⟩

/-- The message `abc` of the standard's first example. -/
theorem sha1_standard_abc :
    bytesBits (sha1 (ascii "abc")) = SecureHash.sha1 (bytesBits (ascii "abc")) ∧
      bytesBits (Devirt.sha1 (ascii "abc")) = SecureHash.sha1 (bytesBits (ascii "abc")) :=
  sha1_standard (by decide)

example : sha1 (ascii "abc") =
    [0xa9, 0x99, 0x3e, 0x36, 0x47, 0x06, 0x81, 0x6a, 0xba, 0x3e, 0x25, 0x71, 0x78, 0x50, 0xc2, 0x6c,
      0x9c, 0xd0, 0xd8, 0x9d] := by decide +kernel

end Vardoger.Dex
