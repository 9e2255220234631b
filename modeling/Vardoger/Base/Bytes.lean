import Mathlib.Data.List.Basic
import Mathlib.Data.Nat.Basic
import Mathlib.Tactic.Ring

/-!
# Byte strings

Bytes that stand at a position of a longer string, and little-endian words: a word of `n` bytes is a
list of bytes with the least significant one first. Values are natural numbers; storing a value
keeps it modulo `256 ^ n`.
-/

namespace Bytes

/-- The bytes of an ASCII string. -/
def ascii (s : String) : List UInt8 := s.toList.map fun c => UInt8.ofNat c.toNat

/-- The decimal text of a number. -/
def decimal (n : ℕ) : List UInt8 := (Nat.toDigits 10 n).map fun c => UInt8.ofNat c.toNat

/-- The characters of a number are the ten digits. -/
theorem mem_decimal {n : ℕ} {b : UInt8} (h : b ∈ decimal n) : 0x30 ≤ b ∧ b ≤ 0x39 := by
  obtain ⟨c, hc, rfl⟩ := List.mem_map.mp h
  have hc := Nat.isDigit_of_mem_toDigits (by decide) (by decide) hc
  rw [Char.isDigit, Bool.and_eq_true, decide_eq_true_iff, decide_eq_true_iff] at hc
  have hlow : 48 ≤ c.toNat := UInt32.le_iff_toNat_le.mp hc.1
  have hhigh : c.toNat ≤ 57 := UInt32.le_iff_toNat_le.mp hc.2
  have hcodes : ∀ k < 58, 48 ≤ k → 0x30 ≤ UInt8.ofNat k ∧ UInt8.ofNat k ≤ 0x39 := by decide
  exact hcodes _ (by omega) hlow

variable {α : Type*}

/-- The entries `x` stand in `d` from position `p` on. -/
def StandsAt (d : List α) (p : ℕ) (x : List α) : Prop := x <+: d.drop p

instance [DecidableEq α] (d : List α) (p : ℕ) (x : List α) : Decidable (StandsAt d p x) :=
  inferInstanceAs (Decidable (_ <+: _))

theorem standsAt_nil (d : List α) (p : ℕ) : StandsAt d p [] := List.nil_prefix

theorem standsAt_cons {d : List α} {p : ℕ} {a : α} {x : List α} :
    StandsAt d p (a :: x) ↔ d[p]? = some a ∧ StandsAt d (p + 1) x := by
  unfold StandsAt
  cases hd : d.drop p with
  | nil =>
    have hlength : d.length ≤ p := List.drop_eq_nil_iff.mp hd
    simp [List.getElem?_eq_none hlength]
  | cons b rest =>
    have hget : d[p]? = some b := by
      rw [← Nat.add_zero p, ← List.getElem?_drop, hd, List.getElem?_cons_zero]
    have hrest : d.drop (p + 1) = rest := by
      rw [← List.drop_drop, hd, List.drop_one, List.tail_cons]
    rw [List.cons_prefix_cons, hget, hrest, Option.some.injEq, eq_comm]

theorem standsAt_append {d : List α} {p : ℕ} {x y : List α} :
    StandsAt d p (x ++ y) ↔ StandsAt d p x ∧ StandsAt d (p + x.length) y := by
  induction x generalizing p with
  | nil => simp [standsAt_nil]
  | cons a x ih =>
    rw [List.cons_append, standsAt_cons, standsAt_cons, ih, and_assoc, List.length_cons]
    rw [Nat.add_right_comm, Nat.add_assoc]

/-- Only the entries of the range matter. -/
theorem StandsAt.congr {d d' : List α} {p : ℕ} {x : List α} (h : StandsAt d p x)
    (hd : ∀ i, p ≤ i → i < p + x.length → d'[i]? = d[i]?) : StandsAt d' p x := by
  induction x generalizing p with
  | nil => exact standsAt_nil _ _
  | cons a x ih =>
    obtain ⟨hhead, htail⟩ := standsAt_cons.mp h
    refine standsAt_cons.mpr ⟨?_, ih htail fun i hi hlt => ?_⟩
    · rw [hd p le_rfl (by simp), hhead]
    · exact hd i (by omega) (by rw [List.length_cons]; omega)

theorem StandsAt.mono {d d' : List α} {p : ℕ} {x : List α} (h : StandsAt d p x) (hd : d <+: d') :
    StandsAt d' p x := by
  obtain ⟨rest, rfl⟩ := hd
  obtain ⟨behind, hx⟩ := h
  rw [StandsAt, List.drop_append, ← hx, List.append_assoc]
  exact List.prefix_append _ _

theorem StandsAt.lt {d : List α} {p : ℕ} {x : List α} (h : StandsAt d p x) (hx : x ≠ []) :
    p + x.length ≤ d.length := by
  have hlength := h.length_le
  have hpos := List.length_pos_of_ne_nil hx
  rw [List.length_drop] at hlength
  omega

theorem StandsAt.getElem? {d : List α} {p : ℕ} {x : List α} (h : StandsAt d p x) {i : ℕ} {a : α}
    (ha : x[i]? = some a) : d[p + i]? = some a := by
  obtain ⟨behind, hx⟩ := h
  have hi : i < x.length := (List.getElem?_eq_some_iff.mp ha).1
  rw [← List.getElem?_drop, ← hx, List.getElem?_append_left hi, ha]

theorem standsAt_of_append (front x back : List α) :
    StandsAt (front ++ x ++ back) front.length x := by
  rw [StandsAt, List.append_assoc, List.drop_left]
  exact List.prefix_append x back

theorem StandsAt.take_drop {d : List α} {p : ℕ} {x : List α} (h : StandsAt d p x) :
    (d.drop p).take x.length = x :=
  (List.prefix_iff_eq_take.mp h).symm

/-- Replace the entries from a position on. -/
def overwrite (d : List α) (p : ℕ) (x : List α) : List α := d.take p ++ x ++ d.drop (p + x.length)

variable {d x : List α} {p : ℕ}

theorem length_overwrite (h : p + x.length ≤ d.length) : (overwrite d p x).length = d.length := by
  simp only [overwrite, List.length_append, List.length_take, List.length_drop]
  omega

theorem standsAt_overwrite (h : p ≤ d.length) : StandsAt (overwrite d p x) p x := by
  have hfront : (d.take p).length = p := by simp [h]
  have hstands := standsAt_of_append (d.take p) x (d.drop (p + x.length))
  rwa [hfront] at hstands

/-- The entries outside of the range stay. -/
theorem getElem?_overwrite {i : ℕ} (h : p + x.length ≤ d.length)
    (hi : i < p ∨ p + x.length ≤ i) : (overwrite d p x)[i]? = d[i]? := by
  have hfront : (d.take p).length = p := by simp; omega
  rw [overwrite]
  rcases hi with hi | hi
  · rw [List.append_assoc, List.getElem?_append_left (by omega), List.getElem?_take_of_lt hi]
  · have hboth : (d.take p ++ x).length = p + x.length := by rw [List.length_append, hfront]
    rw [List.getElem?_append_right (by omega), hboth, List.getElem?_drop]
    congr 1
    omega

/-- What stands behind the range stays. -/
theorem drop_overwrite {n : ℕ} (h : p + x.length ≤ d.length) (hn : p + x.length ≤ n) :
    (overwrite d p x).drop n = d.drop n := by
  refine List.ext_getElem? fun i => ?_
  rw [List.getElem?_drop, List.getElem?_drop, getElem?_overwrite h (.inr (by omega))]

/-- The second string has the length of the first and its entries at the positions outside `P`. -/
structure SameOutside (P : ℕ → Prop) (d d' : List α) : Prop where
  length_eq : d'.length = d.length
  same : ∀ i, ¬P i → d'[i]? = d[i]?

variable {P : ℕ → Prop} {d' : List α}

theorem SameOutside.refl (P : ℕ → Prop) (d : List α) : SameOutside P d d := ⟨rfl, fun _ _ => rfl⟩

theorem SameOutside.mono {Q : ℕ → Prop} (h : SameOutside P d d') (hPQ : ∀ i, P i → Q i) :
    SameOutside Q d d' := ⟨h.length_eq, fun i hi => h.same i fun hP => hi (hPQ i hP)⟩

/-- Overwriting positions of `P` adds no difference. -/
theorem SameOutside.overwrite (h : SameOutside P d d') (hp : p + x.length ≤ d.length)
    (hP : ∀ i, p ≤ i → i < p + x.length → P i) : SameOutside P d (overwrite d' p x) := by
  have hp' : p + x.length ≤ d'.length := by rw [h.length_eq]; exact hp
  refine ⟨(length_overwrite hp').trans h.length_eq, fun i hi => ?_⟩
  rw [getElem?_overwrite hp', h.same i hi]
  by_contra hinside
  exact hi (hP i (by omega) (by omega))

end Bytes

namespace LittleEndian

/-- The value of a list of bytes. -/
def ofBytes : List UInt8 → ℕ
  | [] => 0
  | b :: bs => b.toNat + 256 * ofBytes bs

/-- The lowest `n` bytes of a value. -/
def toBytes : ℕ → ℕ → List UInt8
  | 0, _ => []
  | n + 1, v => UInt8.ofNat v :: toBytes n (v / 256)

/-- The word of `n` bytes at an offset. -/
def wordAt (n : ℕ) (bytes : List UInt8) (off : ℕ) : ℕ := ofBytes ((bytes.drop off).take n)

@[simp]
theorem length_toBytes (n v : ℕ) : (toBytes n v).length = n := by
  induction n generalizing v with
  | zero => rfl
  | succ n ih => simp only [toBytes, List.length_cons, ih]

/-- Storing a value keeps it modulo the size of the word. -/
theorem ofBytes_toBytes (n v : ℕ) : ofBytes (toBytes n v) = v % 256 ^ n := by
  induction n generalizing v with
  | zero => simp [toBytes, ofBytes, Nat.mod_one]
  | succ n ih =>
    have hpow : 256 ^ (n + 1) = 256 * 256 ^ n := Nat.pow_succ'
    rw [toBytes, ofBytes, ih, UInt8.toNat_ofNat', hpow, Nat.mod_mul]

theorem ofBytes_lt (x : List UInt8) : ofBytes x < 256 ^ x.length := by
  induction x with
  | nil => simp [ofBytes]
  | cons b x ih =>
    have hpow : 256 ^ (x.length + 1) = 256 * 256 ^ x.length := Nat.pow_succ'
    have hb := b.toNat_lt
    rw [ofBytes, List.length_cons, hpow]
    omega

/-- The bytes of a value that was read from bytes are those bytes. -/
theorem toBytes_ofBytes (x : List UInt8) : toBytes x.length (ofBytes x) = x := by
  induction x with
  | nil => rfl
  | cons b x ih =>
    have hb := b.toNat_lt
    have hhead : UInt8.ofNat (b.toNat + 256 * ofBytes x) = b := by
      rw [UInt8.ofNat_eq_iff_mod_eq_toNat, Nat.add_mul_mod_self_left, Nat.mod_eq_of_lt hb]
    have htail : (b.toNat + 256 * ofBytes x) / 256 = ofBytes x := by omega
    rw [ofBytes, List.length_cons, toBytes, hhead, htail, ih]

/-- A word is read from the bytes that stand at its offset. -/
theorem wordAt_of_standsAt {d x : List UInt8} {p : ℕ} (h : Bytes.StandsAt d p x) :
    wordAt x.length d p = ofBytes x := by
  rw [wordAt, ← List.prefix_iff_eq_take.mp h]

/-- Only the bytes of a word matter. -/
theorem wordAt_congr {n p : ℕ} {d d' : List UInt8}
    (h : ∀ i, p ≤ i → i < p + n → d'[i]? = d[i]?) : wordAt n d' p = wordAt n d p := by
  rw [wordAt, wordAt]
  congr 1
  refine List.ext_getElem? fun i => ?_
  by_cases hi : i < n
  · rw [List.getElem?_take_of_lt hi, List.getElem?_take_of_lt hi, List.getElem?_drop,
      List.getElem?_drop, h _ (by omega) (by omega)]
  · rw [List.getElem?_take_eq_none (by omega), List.getElem?_take_eq_none (by omega)]

/-- A stored word is read back. -/
theorem wordAt_of_toBytes {n p v : ℕ} {d : List UInt8} (h : Bytes.StandsAt d p (toBytes n v)) :
    wordAt n d p = v % 256 ^ n := by
  have hword := wordAt_of_standsAt h
  rwa [length_toBytes, ofBytes_toBytes] at hword

end LittleEndian
