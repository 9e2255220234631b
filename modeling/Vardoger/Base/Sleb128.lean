import Vardoger.Base.Uleb128
import Mathlib.Data.Int.ModEq
import Mathlib.Tactic.LinearCombination

/-!
# SLEB128 numbers

A signed number is stored in groups of seven bits like an unsigned one, and bit 6 of the last byte
is its sign. `read` is the usual loop into a result of `width` bits, which extends the sign
only if the groups do not fill the result. A result is the two's complement word of the number,
whether or not the number fits.
-/

namespace Sleb128

open Bytes

/-- The bytes are an encoding of the number, not necessarily the shortest one. -/
inductive Encodes : List UInt8 → ℤ → Prop
  | last {b : UInt8} (hb : b.toNat < 128) :
      Encodes [b] (if b.toNat < 64 then b.toNat else b.toNat - 128)
  | more {b : UInt8} {x : List UInt8} {v : ℤ} (hb : 128 ≤ b.toNat) (h : Encodes x v) :
      Encodes (b :: x) (b.toNat - 128 + 128 * v)

/-- The two's complement word of a number. -/
def word (width : ℕ) (v : ℤ) : ℕ := (v % 2 ^ width).toNat

/-- Read at most `fuel` bytes. There is no result if the encoding runs past them or past the end of
the string. -/
def readFrom (width : ℕ) (d : List UInt8) : (fuel p result shift : ℕ) → Option (ℕ × ℕ)
  | 0, _, _, _ => none
  | fuel + 1, p, result, shift =>
      match d[p]? with
      | none => none
      | some b =>
          let result := result ||| ((b.toNat &&& 0x7f) <<< shift) % 2 ^ width
          let shift := shift + 7
          if b.toNat &&& 0x80 = 0 then
            if shift < width ∧ b.toNat &&& 0x40 ≠ 0 then
              some (result ||| (2 ^ width - 2 ^ shift), p + 1)
            else some (result, p + 1)
          else readFrom width d fuel (p + 1) result shift

/-- The word of the number at a position and the position behind it. -/
def read (width fuel : ℕ) (d : List UInt8) (p : ℕ) : Option (ℕ × ℕ) := readFrom width d fuel p 0 0

/-- A natural number below the modulus is the word of every number congruent to it. -/
theorem word_eq {width n : ℕ} {v : ℤ} (hn : n < 2 ^ width) (h : v ≡ n [ZMOD 2 ^ width]) :
    word width v = n := by
  have hcast : ((2 ^ width : ℕ) : ℤ) = 2 ^ width := by push_cast; rfl
  rw [word, h, ← hcast, ← Int.natCast_mod, Nat.mod_eq_of_lt hn, Int.toNat_natCast]

theorem and_64_eq_zero {n : ℕ} (hn : n < 128) : n &&& 0x40 = 0 ↔ n < 64 := by
  revert n
  decide +kernel

/-- Extending the sign of a word adds the upper bits. -/
theorem or_upper {x k width : ℕ} (hx : x < 2 ^ k) (hk : k ≤ width) :
    x ||| (2 ^ width - 2 ^ k) = x + (2 ^ width - 2 ^ k) := by
  have hupper : 2 ^ width - 2 ^ k = (2 ^ (width - k) - 1) <<< k := by
    rw [Nat.shiftLeft_eq, Nat.sub_mul, ← pow_add, Nat.sub_add_cancel hk, one_mul]
  rw [hupper, Nat.or_comm, ← Nat.shiftLeft_add_eq_or_of_lt hx, Nat.add_comm]

/-- A group above the bits read so far is added to them. -/
theorem or_group (width : ℕ) {r low shift : ℕ} (hr : r < 2 ^ shift) :
    r % 2 ^ width ||| (low <<< shift) % 2 ^ width = (r + low * 2 ^ shift) % 2 ^ width := by
  rw [← Nat.or_mod_two_pow, Nat.or_comm, ← Nat.shiftLeft_add_eq_or_of_lt hr, Nat.shiftLeft_eq,
    Nat.add_comm]

theorem add_group_lt {r low shift : ℕ} (hr : r < 2 ^ shift) (hlow : low < 128) :
    r + low * 2 ^ shift < 2 ^ (shift + 7) := by
  have hle : (low + 1) * 2 ^ shift ≤ 128 * 2 ^ shift := Nat.mul_le_mul_right _ hlow
  rw [pow_add, Nat.mul_comm _ (2 ^ 7)]
  rw [Nat.add_mul] at hle
  omega

variable {fuel p : ℕ} {d x : List UInt8} {v : ℤ}

theorem readFrom_of_encodes (width : ℕ) (h : Encodes x v) (hx : StandsAt d p x)
    (hfuel : x.length ≤ fuel) (r shift : ℕ) (hr : r < 2 ^ shift) :
    readFrom width d fuel p (r % 2 ^ width) shift =
      some (word width (r + v * 2 ^ shift), p + x.length) := by
  induction h generalizing p fuel r shift with
  | @last b hb =>
    obtain ⟨fuel, rfl⟩ : ∃ n, fuel = n + 1 := ⟨fuel - 1, by simp at hfuel; omega⟩
    have hget := (standsAt_cons.mp hx).1
    have hbits : b.toNat &&& 0x80 = 0 := (Uleb128.and_128_eq_zero b.toNat_lt).mpr hb
    have hsum := add_group_lt hr hb
    rw [readFrom, hget]
    simp only [hbits, if_true, Uleb128.and_127, Nat.mod_eq_of_lt hb, or_group width hr, ne_eq,
      and_64_eq_zero hb, not_lt, List.length_singleton]
    split
    next hextend =>
      -- The sign bit is below the width of the result, so the upper bits are filled in.
      have hpow : (2 : ℕ) ^ (shift + 7) ≤ 2 ^ width := Nat.pow_le_pow_right (by decide) hextend.1.le
      rw [Nat.mod_eq_of_lt (hsum.trans_le hpow), or_upper hsum hextend.1.le, if_neg (by omega)]
      congr 2
      refine (word_eq (by omega) ?_).symm
      rw [Nat.cast_add, Nat.cast_sub hpow]
      refine (Int.modEq_iff_add_fac.mpr ⟨1, ?_⟩)
      push_cast
      ring
    next hextend =>
      congr 2
      refine (word_eq (Nat.mod_lt _ (Nat.two_pow_pos _)) ?_).symm
      have hmod : ((r + b.toNat * 2 ^ shift : ℕ) : ℤ) ≡
          ((r + b.toNat * 2 ^ shift) % 2 ^ width : ℕ) [ZMOD 2 ^ width] := by
        have hself := Nat.mod_modEq (r + b.toNat * 2 ^ shift) (2 ^ width)
        have hcast := (Int.natCast_modEq_iff.mpr hself).symm
        push_cast at hcast ⊢
        exact hcast
      refine Int.ModEq.trans ?_ hmod
      split
      next hsmall =>
        push_cast
        exact Int.ModEq.refl _
      next hsmall =>
        -- The group fills the result, so the sign contributes a multiple of the modulus.
        obtain ⟨k, hk⟩ : ∃ k, shift + 7 = width + k := ⟨shift + 7 - width, by omega⟩
        have hpow : (2 : ℤ) ^ shift * 128 = 2 ^ width * 2 ^ k := by
          rw [← pow_add, ← hk, pow_add]
          norm_num
        refine Int.modEq_iff_add_fac.mpr ⟨2 ^ k, ?_⟩
        push_cast
        linear_combination hpow
  | @more b x v hb h ih =>
    obtain ⟨fuel, rfl⟩ : ∃ n, fuel = n + 1 := ⟨fuel - 1, by simp at hfuel; omega⟩
    obtain ⟨hget, hrest⟩ := standsAt_cons.mp hx
    have hlt := b.toNat_lt
    have hbits : ¬ b.toNat &&& 0x80 = 0 := by
      rw [Uleb128.and_128_eq_zero hlt]
      omega
    have hlow : b.toNat % 128 = b.toNat - 128 := by omega
    have hsum : r + (b.toNat - 128) * 2 ^ shift < 2 ^ (shift + 7) := add_group_lt hr (by omega)
    rw [List.length_cons] at hfuel ⊢
    rw [readFrom, hget]
    simp only [hbits, if_false, Uleb128.and_127, hlow, or_group width hr]
    rw [ih hrest (by omega) _ _ hsum]
    congr 2
    · congr 1
      push_cast [Nat.cast_sub hb]
      ring
    · omega

/-- An encoding that is not longer than the reader allows is read back, and the position moves
behind it. -/
theorem read_of_encodes (width : ℕ) (h : Encodes x v) (hx : StandsAt d p x)
    (hfuel : x.length ≤ fuel) :
    read width fuel d p = some (word width v, p + x.length) := by
  have hread := readFrom_of_encodes width h hx hfuel 0 0 (by simp)
  simpa [read] using hread

/-! ## Streams of numbers -/

/-- The numbers stand one after the other from one position to another, each in at most `most`
bytes. -/
inductive Stream (most : ℕ) (d : List UInt8) : ℕ → List ℤ → ℕ → Prop
  | nil (p : ℕ) : Stream most d p [] p
  | cons {p q : ℕ} {v : ℤ} {x : List UInt8} {vs : List ℤ} (h : Encodes x v)
      (hmost : x.length ≤ most) (hx : StandsAt d p x) (hrest : Stream most d (p + x.length) vs q) :
      Stream most d p (v :: vs) q

namespace Stream

variable {most q : ℕ} {vs ws : List ℤ}

/-- A stream with a number in it starts inside the string. -/
theorem lt_length (h : Stream most d p (v :: vs) q) : p < d.length := by
  cases h with
  | cons h hmost hx hrest =>
    cases h with
    | last hb => exact (List.getElem?_eq_some_iff.mp (standsAt_cons.mp hx).1).1
    | more hb h => exact (List.getElem?_eq_some_iff.mp (standsAt_cons.mp hx).1).1

/-- Each number of a stream takes a byte of the string. -/
theorem add_length_le (h : Stream most d p vs q) (hp : p ≤ d.length) :
    p + vs.length ≤ d.length := by
  induction h with
  | nil p => exact hp
  | @cons p q v x vs h hmost hx hrest ih =>
    have hpos : 0 < x.length := by cases h <;> simp
    have hlt : p + x.length ≤ d.length := by
      have hle := hx.length_le
      rw [List.length_drop] at hle
      omega
    have hrest := ih hlt
    rw [List.length_cons]
    omega

/-- Reading a number moves on to the rest of the stream. -/
theorem read_eq (width : ℕ) (h : Stream most d p (v :: vs) q) :
    ∃ p', read width most d p = some (word width v, p') ∧ Stream most d p' vs q := by
  cases h with
  | @cons _ _ _ x _ h hmost hx hrest =>
    exact ⟨p + x.length, read_of_encodes width h hx hmost, hrest⟩

end Stream

end Sleb128
