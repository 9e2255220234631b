import Vardoger.Base.Bytes
import Mathlib.Algebra.Group.Nat.Defs
import Mathlib.Data.List.TakeWhile

/-!
# Hexadecimal text

Two digits stand for a byte, the high half first. Writing uses lower-case digits, reading takes
either case, so reading inverts writing and writing back what was read gives the same text in lower
case.
-/

namespace Hex

open Bytes

/-- The digit of the low half of a byte. -/
def hexDigit (v : ℕ) : UInt8 := (ascii "0123456789abcdef").getD (v % 16) 0

/-- The value of a digit of either case; any other character counts as zero. -/
def unhexDigit (c : UInt8) : ℕ :=
  if 0x30 ≤ c ∧ c ≤ 0x39 then c.toNat - 0x30
  else if 0x61 ≤ c ∧ c ≤ 0x66 then c.toNat - 0x61 + 10
  else if 0x41 ≤ c ∧ c ≤ 0x46 then c.toNat - 0x41 + 10
  else 0

/-- `isxdigit`: the digits of either case. -/
def isxdigit (c : UInt8) : Bool :=
  (0x30 ≤ c && c ≤ 0x39) || (0x61 ≤ c && c ≤ 0x66) || (0x41 ≤ c && c ≤ 0x46)

/-- A character in lower case. -/
def lower (c : UInt8) : UInt8 := if 0x41 ≤ c ∧ c ≤ 0x5a then c + 0x20 else c

/-- The byte that two digits stand for. -/
def byteOf (hi lo : UInt8) : UInt8 := UInt8.ofNat (unhexDigit hi <<< 4 ||| unhexDigit lo)

/-- The digits of a byte string. -/
def bytesToHex : List UInt8 → List UInt8
  | [] => []
  | b :: x => hexDigit (b.toNat >>> 4) :: hexDigit (b.toNat &&& 0xf) :: bytesToHex x

/-- The bytes that a digit string stands for; an odd last digit is dropped. -/
def hexToBytes : List UInt8 → List UInt8
  | hi :: lo :: x => byteOf hi lo :: hexToBytes x
  | _ => []

/-- The number read from the digits at the front of a text, in a 64-bit accumulator, and the text
behind them. -/
def parseHexU64 (v : ℕ) : List UInt8 → ℕ × List UInt8
  | [] => (v, [])
  | c :: x =>
    if isxdigit c then parseHexU64 ((v <<< 4) % 2 ^ 64 ||| unhexDigit c) x else (v, c :: x)

/-- A string of digits. -/
def IsHex (x : List UInt8) : Prop := ∀ c ∈ x, isxdigit c = true

/-! ## Digits -/

/-- A statement about every character is checked on the 256 of them. -/
theorem forall_char {P : UInt8 → Prop} (h : ∀ n < 256, P (UInt8.ofNat n)) (c : UInt8) : P c := by
  have hc := h c.toNat c.toNat_lt
  rwa [UInt8.ofNat_toNat] at hc

theorem isxdigit_hexDigit (v : ℕ) : isxdigit (hexDigit v) = true := by
  have hdigits : ∀ n < 16, isxdigit (hexDigit n) = true := by decide
  have hv := hdigits (v % 16) (Nat.mod_lt _ (by decide))
  rwa [hexDigit, Nat.mod_mod] at hv

theorem byteOf_hexDigit (b : UInt8) :
    byteOf (hexDigit (b.toNat >>> 4)) (hexDigit (b.toNat &&& 0xf)) = b :=
  forall_char (P := fun b =>
    byteOf (hexDigit (b.toNat >>> 4)) (hexDigit (b.toNat &&& 0xf)) = b) (by decide +kernel) b

theorem unhexDigit_lt (c : UInt8) : unhexDigit c < 16 :=
  forall_char (P := fun c => unhexDigit c < 16) (by decide +kernel) c

theorem hexDigit_unhexDigit {c : UInt8} (hc : isxdigit c = true) :
    hexDigit (unhexDigit c) = lower c :=
  forall_char (P := fun c => isxdigit c = true → hexDigit (unhexDigit c) = lower c)
    (by decide +kernel) c hc

/-- The halves of the byte that two digits stand for. -/
theorem halves_byteOf (hi lo : UInt8) :
    (byteOf hi lo).toNat >>> 4 = unhexDigit hi ∧ (byteOf hi lo).toNat &&& 0xf = unhexDigit lo := by
  have hdigits : ∀ x < 16, ∀ y < 16,
      (UInt8.ofNat (x <<< 4 ||| y)).toNat >>> 4 = x ∧
        (UInt8.ofNat (x <<< 4 ||| y)).toNat &&& 0xf = y := by
    decide
  exact hdigits _ (unhexDigit_lt hi) _ (unhexDigit_lt lo)

/-! ## Strings -/

theorem length_bytesToHex (x : List UInt8) : (bytesToHex x).length = 2 * x.length := by
  induction x with
  | nil => rfl
  | cons b x ih =>
    rw [bytesToHex, List.length_cons, List.length_cons, List.length_cons, ih]
    omega

theorem isHex_bytesToHex (x : List UInt8) : IsHex (bytesToHex x) := by
  induction x with
  | nil => simp [bytesToHex, IsHex]
  | cons b x ih =>
    intro c hc
    rw [bytesToHex, List.mem_cons, List.mem_cons] at hc
    rcases hc with rfl | rfl | hc
    · exact isxdigit_hexDigit _
    · exact isxdigit_hexDigit _
    · exact ih c hc

/-- Reading inverts writing. -/
theorem hexToBytes_bytesToHex (x : List UInt8) : hexToBytes (bytesToHex x) = x := by
  induction x with
  | nil => rfl
  | cons b x ih => rw [bytesToHex, hexToBytes, byteOf_hexDigit, ih]

/-- A text of even length, pair by pair. -/
theorem pairs_induction {P : ℕ → List UInt8 → Prop} (hnil : P 0 [])
    (hpair : ∀ n hi lo x, P n x → P (n + 1) (hi :: lo :: x)) {x : List UInt8} {n : ℕ}
    (hx : x.length = 2 * n) : P n x := by
  induction n generalizing x with
  | zero =>
    rw [List.length_eq_zero_iff.mp hx]
    exact hnil
  | succ n ih =>
    obtain ⟨hi, x, rfl⟩ := List.exists_cons_of_length_pos (l := x) (by omega)
    obtain ⟨lo, x, rfl⟩ := List.exists_cons_of_length_pos (l := x)
      (by rw [List.length_cons] at hx; omega)
    exact hpair n hi lo x (ih (by simpa [Nat.mul_succ] using hx))

theorem length_hexToBytes {x : List UInt8} {n : ℕ} (hx : x.length = 2 * n) :
    (hexToBytes x).length = n := by
  refine pairs_induction (P := fun n x => (hexToBytes x).length = n) rfl ?_ hx
  intro n hi lo x ih
  rw [hexToBytes, List.length_cons, ih]

/-- Writing what was read gives the text in lower case. -/
theorem bytesToHex_hexToBytes {x : List UInt8} {n : ℕ} (hx : x.length = 2 * n) (hhex : IsHex x) :
    bytesToHex (hexToBytes x) = x.map lower := by
  refine pairs_induction (P := fun _ x => IsHex x → bytesToHex (hexToBytes x) = x.map lower)
    (fun _ => rfl) ?_ hx hhex
  intro n hi lo x ih hhex
  have hrest : IsHex x := fun c hc => hhex c (by simp [hc])
  obtain ⟨hhigh, hlow⟩ := halves_byteOf hi lo
  rw [hexToBytes, bytesToHex, hhigh, hlow, hexDigit_unhexDigit (hhex hi (by simp)),
    hexDigit_unhexDigit (hhex lo (by simp)), ih hrest]
  rfl

/-- The number of a digit string. -/
def hexValue (d : List UInt8) : ℕ := d.foldl (fun v c => 16 * v + unhexDigit c) 0

/-- The digits at the front of a text, and the text behind them. -/
def hexFront (x : List UInt8) : ℕ × List UInt8 :=
  (hexValue (x.takeWhile isxdigit), x.dropWhile isxdigit)

/-- One more digit in a 64-bit accumulator. -/
theorem accumulate_hex {v d : ℕ} (hd : d < 16) :
    (v <<< 4) % 2 ^ 64 ||| d = (16 * v + d) % 2 ^ 64 := by
  have hshift : (v <<< 4) % 2 ^ 64 = 2 ^ 4 * (v % 2 ^ 60) := by
    rw [Nat.shiftLeft_eq]
    omega
  rw [hshift, ← Nat.two_pow_add_eq_or_of_lt (by omega)]
  omega

/-- Reading a number gives its low 64 bits. -/
theorem parseHexU64_mod (x : List UInt8) (v : ℕ) :
    parseHexU64 (v % 2 ^ 64) x =
      ((x.takeWhile isxdigit).foldl (fun v c => 16 * v + unhexDigit c) v % 2 ^ 64,
        x.dropWhile isxdigit) := by
  induction x generalizing v with
  | nil => rfl
  | cons c x ih =>
    by_cases hc : isxdigit c = true
    · have hstep : (v % 2 ^ 64) <<< 4 % 2 ^ 64 ||| unhexDigit c =
          (16 * v + unhexDigit c) % 2 ^ 64 := by
        rw [accumulate_hex (unhexDigit_lt c)]
        omega
      rw [parseHexU64, if_pos hc, hstep, ih, List.takeWhile_cons_of_pos hc,
        List.dropWhile_cons_of_pos hc, List.foldl_cons]
    · rw [parseHexU64, if_neg hc, List.takeWhile_cons_of_neg hc, List.dropWhile_cons_of_neg hc]
      rfl

theorem parseHexU64_eq (x : List UInt8) :
    parseHexU64 0 x = ((hexFront x).1 % 2 ^ 64, (hexFront x).2) := parseHexU64_mod x 0

/-- The digits of a number. -/
def hexText (n : ℕ) : List UInt8 :=
  if n < 16 then [hexDigit n] else hexText (n / 16) ++ [hexDigit n]

theorem unhexDigit_hexDigit (v : ℕ) : unhexDigit (hexDigit v) = v % 16 := by
  have hdigits : ∀ n < 16, unhexDigit (hexDigit n) = n := by decide
  have hv := hdigits (v % 16) (Nat.mod_lt _ (by decide))
  rwa [hexDigit, Nat.mod_mod] at hv

theorem isHex_hexText (n : ℕ) : IsHex (hexText n) := by
  induction n using hexText.induct with
  | case1 n hn =>
    rw [hexText, if_pos hn]
    simpa [IsHex] using isxdigit_hexDigit n
  | case2 n hn ih =>
    rw [hexText, if_neg hn]
    intro c hc
    rcases List.mem_append.mp hc with hc | hc
    · exact ih c hc
    · rw [List.mem_singleton.mp hc]
      exact isxdigit_hexDigit n

theorem hexValue_hexText (n : ℕ) : hexValue (hexText n) = n := by
  induction n using hexText.induct with
  | case1 n hn =>
    rw [hexText, if_pos hn]
    change 16 * 0 + unhexDigit (hexDigit n) = n
    rw [unhexDigit_hexDigit]
    omega
  | case2 n hn ih =>
    rw [hexText, if_neg hn, hexValue, List.foldl_append]
    change 16 * hexValue (hexText (n / 16)) + unhexDigit (hexDigit n) = n
    rw [ih, unhexDigit_hexDigit]
    omega

/-- Reading a number stops at the first character that is no digit. -/
theorem parseHexU64_append {d x : List UInt8} (hd : IsHex d)
    (hx : ∀ c ∈ x.head?, isxdigit c = false) (v : ℕ) :
    parseHexU64 v (d ++ x) = ((parseHexU64 v d).1, x) := by
  induction d generalizing v with
  | nil =>
    cases x with
    | nil => rfl
    | cons c x =>
      have hc : isxdigit c = false := hx c rfl
      simp [parseHexU64, hc]
  | cons a d ih =>
    have ha : isxdigit a = true := hd a (by simp)
    have hrest : IsHex d := fun c hc => hd c (by simp [hc])
    rw [List.cons_append, parseHexU64, parseHexU64, if_pos ha, if_pos ha, ih hrest]

/-- Reading a 64-bit number gives it back, with the text behind its digits. -/
theorem parseHexU64_hexText {n : ℕ} (hn : n < 2 ^ 64) {x : List UInt8}
    (hx : ∀ c ∈ x.head?, isxdigit c = false) : parseHexU64 0 (hexText n ++ x) = (n, x) := by
  have hdigits : (hexText n).takeWhile isxdigit = hexText n :=
    List.takeWhile_eq_self_iff.mpr (isHex_hexText n)
  rw [parseHexU64_append (isHex_hexText n) hx, parseHexU64_eq, hexFront, hdigits,
    hexValue_hexText, Nat.mod_eq_of_lt hn]

end Hex
