import Vardoger.Dex.MethodIndex

/-!
# The readers of ULEB128 numbers

The parser, the rebuilder and the method index read the same numbers. The reader of the parser takes
at most five bytes and keeps its position in 32 bits; the other two go on until a number or the file
ends.
-/

namespace Vardoger.Dex

open Bytes Uleb128

/-- The three readers agree at a position, and each of them reads back what the writer wrote. -/
structure ReadersAgree (d : List UInt8) (p : ℕ) : Prop where
  parser : uleb d p = DexRebuilder.uleb d p
  index : Devirt.rdUleb d p = DexRebuilder.uleb d p
  written : ∀ v < 2 ^ 32, StandsAt d p (DexRebuilder.wuleb v) →
    uleb d p = (v, p + (DexRebuilder.wuleb v).length)

/-- The reader of the parser stays behind the others if the number goes on. -/
theorem uleb_ne {d : List UInt8} {p : ℕ} (hd : d.length < 2 ^ 64) (hp : p < 2 ^ 32)
    (h : ∀ k ≤ 5, p + k < 2 ^ 32 → ¬StopsWithin d p k) : uleb d p ≠ DexRebuilder.uleb d p := by
  intro heq
  have hfile : p + (min 6 (2 ^ 32 - p) - 1) < d.length := by
    by_contra hend
    exact h (min 6 (2 ^ 32 - p) - 1) (by omega) (by omega) (.inl (by omega))
  have hothers : p + min 6 (2 ^ 32 - p) ≤ (DexRebuilder.uleb d p).2 :=
    le_readFrom (fun j hj => h j (by omega) (by omega)) (by omega) (by omega) 0 0
  have hfive : (uleb d p).2 ≤ p + 5 := readFrom_le 0 0
  have hword : (uleb d p).2 < 2 ^ 32 := read_lt (by decide) hp
  rw [← heq] at hothers
  omega

theorem wuleb_read {d : List UInt8} {p v : ℕ} (hd : d.length < 2 ^ 64) (hv : v < 2 ^ 32)
    (h : StandsAt d p (DexRebuilder.wuleb v)) :
    DexRebuilder.uleb d p = (v, p + (DexRebuilder.wuleb v).length) := by
  have hencodes : Encodes (DexRebuilder.wuleb v) v := encodes_write (by omega)
  have hlt := h.lt hencodes.ne_nil
  have hread : DexRebuilder.uleb d p = (v % 2 ^ 32, _) :=
    read_of_encodes hencodes h (by omega) (by omega)
  rwa [Nat.mod_eq_of_lt hv] at hread

/-- The readers agree if and only if the number or the file ends within five bytes and before the
position leaves its 32 bits. -/
theorem readers_agree {d : List UInt8} {p : ℕ} (hd : d.length < 2 ^ 64) (hp : p < 2 ^ 32) :
    ReadersAgree d p ↔ ∃ k ≤ 5, p + k < 2 ^ 32 ∧ StopsWithin d p k := by
  constructor
  · intro hagree
    by_contra hnone
    push Not at hnone
    exact uleb_ne hd hp hnone hagree.parser
  · rintro ⟨k, hk, hword, hstops⟩
    have hparser : uleb d p = DexRebuilder.uleb d p := by
      rcases Nat.lt_or_ge d.length (p + k) with hend | hend
      · exact readFrom_congr (k := d.length - p) (.inl (by omega)) (by omega) (by omega) (by omega)
          (by omega) 0 0
      · exact readFrom_congr hstops hk (by omega) hword (by omega) 0 0
    exact ⟨hparser, rfl, fun v hv hstands => hparser.trans (wuleb_read hd hv hstands)⟩

theorem readers_agree_at_start :
    ReadersAgree (DexRebuilder.wuleb 300) 0 ∧ DexRebuilder.wuleb 300 = [0xac, 0x02] :=
  ⟨(readers_agree (by decide) (by decide)).mpr ⟨2, by decide, by decide, .inl (by decide)⟩, rfl⟩

/-- A number in six bytes: the parser stops before its last byte. -/
theorem readers_differ_on_six_bytes :
    uleb [0x81, 0x80, 0x80, 0x80, 0x80, 0x00] 0 = (1, 5) ∧
      DexRebuilder.uleb [0x81, 0x80, 0x80, 0x80, 0x80, 0x00] 0 = (1, 6) ∧
      Devirt.rdUleb [0x81, 0x80, 0x80, 0x80, 0x80, 0x00] 0 = (1, 6) := by
  decide

end Vardoger.Dex
