import Vardoger.Base.Bytes

/-!
# ULEB128 numbers

A number is stored in groups of seven bits, lowest first; every byte but the last has its high bit
set. `Encodes` is this format, `read` the usual loop over a byte string and `write` the
shortest encoding. Any encoding that stands at a position is read back, up to the width of the
result, and `write` produces an encoding.
-/

namespace Uleb128

open Bytes

/-- The bytes are an encoding of the number, not necessarily the shortest one. -/
inductive Encodes : List UInt8 → ℕ → Prop
  | last {b : UInt8} (hb : b.toNat < 128) : Encodes [b] b.toNat
  | more {b : UInt8} {x : List UInt8} {v : ℕ} (hb : 128 ≤ b.toNat) (h : Encodes x v) :
      Encodes (b :: x) (b.toNat - 128 + 128 * v)

/-- Read at most `fuel` bytes into a result of `width` bits, with a position that wraps at `wrap`.
The reader stops at the end of the string. -/
def readFrom (width wrap : ℕ) (d : List UInt8) : (fuel p result shift : ℕ) → ℕ × ℕ
  | 0, p, result, _ => (result, p)
  | fuel + 1, p, result, shift =>
      match d[p]? with
      | none => (result, p)
      | some b =>
          let result := result ||| ((b.toNat &&& 0x7f) <<< shift) % 2 ^ width
          if b.toNat &&& 0x80 = 0 then (result, (p + 1) % wrap)
          else readFrom width wrap d fuel ((p + 1) % wrap) result (shift + 7)

/-- The number at a position and the position behind it. -/
def read (width wrap fuel : ℕ) (d : List UInt8) (p : ℕ) : ℕ × ℕ :=
  readFrom width wrap d fuel p 0 0

/-- The shortest encoding, in at most `fuel` bytes. -/
def write : (fuel v : ℕ) → List UInt8
  | 0, _ => []
  | fuel + 1, v =>
      if v >>> 7 = 0 then [UInt8.ofNat (v &&& 0x7f)]
      else UInt8.ofNat (v &&& 0x7f ||| 0x80) :: write fuel (v >>> 7)

theorem Encodes.ne_nil {x : List UInt8} {v : ℕ} (h : Encodes x v) : x ≠ [] := by
  cases h <;> simp

theorem and_127 (n : ℕ) : n &&& 0x7f = n % 128 := Nat.and_two_pow_sub_one_eq_mod n 7

theorem and_128_eq_zero {n : ℕ} (hn : n < 256) : n &&& 0x80 = 0 ↔ n < 128 := by
  revert n
  decide +kernel

/-- Two groups of bits, added to a result one after the other, are added as one number. -/
theorem or_groups (width result low v shift : ℕ) (hlow : low < 128) :
    result ||| (low <<< shift) % 2 ^ width ||| (v <<< (shift + 7)) % 2 ^ width =
      result ||| ((low + 128 * v) <<< shift) % 2 ^ width := by
  have hsum : low + 128 * v = low ||| v <<< 7 := by
    rw [Nat.add_comm, Nat.or_comm, ← Nat.shiftLeft_add_eq_or_of_lt hlow, Nat.shiftLeft_eq,
      Nat.mul_comm]
  have hshift : v <<< (shift + 7) = v <<< 7 <<< shift := by
    rw [Nat.add_comm, Nat.shiftLeft_add]
  rw [hsum, hshift, Nat.or_assoc, ← Nat.or_mod_two_pow, ← Nat.shiftLeft_or_distrib]

variable {width wrap fuel p : ℕ} {d x : List UInt8} {v : ℕ}

theorem readFrom_of_encodes (h : Encodes x v) (hx : StandsAt d p x) (hfuel : x.length ≤ fuel)
    (hwrap : p + x.length < wrap) (result shift : ℕ) :
    readFrom width wrap d fuel p result shift =
      (result ||| (v <<< shift) % 2 ^ width, p + x.length) := by
  induction h generalizing p fuel result shift with
  | @last b hb =>
    obtain ⟨fuel, rfl⟩ : ∃ n, fuel = n + 1 := ⟨fuel - 1, by simp at hfuel; omega⟩
    have hget := (standsAt_cons.mp hx).1
    have hbits : b.toNat &&& 0x80 = 0 := (and_128_eq_zero b.toNat_lt).mpr hb
    simp only [List.length_singleton] at hwrap ⊢
    rw [readFrom, hget]
    simp only [hbits, if_true, and_127, Nat.mod_eq_of_lt hb, Nat.mod_eq_of_lt hwrap]
  | @more b x v hb h ih =>
    obtain ⟨fuel, rfl⟩ : ∃ n, fuel = n + 1 := ⟨fuel - 1, by simp at hfuel; omega⟩
    obtain ⟨hget, hrest⟩ := standsAt_cons.mp hx
    have hlt := b.toNat_lt
    have hbits : ¬ b.toNat &&& 0x80 = 0 := by
      rw [and_128_eq_zero hlt]
      omega
    have hlow : b.toNat % 128 = b.toNat - 128 := by omega
    rw [List.length_cons] at hfuel hwrap ⊢
    rw [readFrom, hget]
    simp only [hbits, if_false, and_127, Nat.mod_eq_of_lt (show p + 1 < wrap by omega)]
    rw [ih hrest (by omega) (by omega), hlow, or_groups _ _ _ _ _ (by omega)]
    rw [Nat.add_right_comm, Nat.add_assoc]

/-- An encoding that is not longer than the reader allows is read back, and the position moves
behind it. -/
theorem read_of_encodes (h : Encodes x v) (hx : StandsAt d p x) (hfuel : x.length ≤ fuel)
    (hwrap : p + x.length < wrap) :
    read width wrap fuel d p = (v % 2 ^ width, p + x.length) := by
  rw [read, readFrom_of_encodes h hx hfuel hwrap, Nat.zero_or, Nat.shiftLeft_zero]

/-- The shortest encoding is one, if there is room for it. -/
theorem encodes_write {fuel v : ℕ} (hv : v < 128 ^ (fuel + 1)) :
    Encodes (write (fuel + 1) v) v := by
  induction fuel generalizing v with
  | zero =>
    have hsmall : v < 128 := by omega
    have hshift : v >>> 7 = 0 := by rw [Nat.shiftRight_eq_div_pow]; omega
    have hbyte : (UInt8.ofNat (v % 128)).toNat = v := by
      rw [UInt8.toNat_ofNat']
      omega
    rw [write, if_pos hshift, and_127]
    nth_rewrite 2 [← hbyte]
    exact .last (by omega)
  | succ fuel ih =>
    have hdiv : v >>> 7 = v / 128 := Nat.shiftRight_eq_div_pow v 7
    rw [write]
    split
    next hshift =>
      have hbyte : (UInt8.ofNat (v % 128)).toNat = v := by
        rw [UInt8.toNat_ofNat']
        omega
      rw [and_127]
      nth_rewrite 2 [← hbyte]
      exact .last (by omega)
    next hshift =>
      have hor : v % 128 ||| 0x80 = v % 128 + 128 := by
        have hlt : v % 128 < 2 ^ 7 := Nat.mod_lt _ (by decide)
        rw [Nat.or_comm, ← Nat.two_pow_add_eq_or_of_lt hlt 1]
        omega
      have hbyte : (UInt8.ofNat (v % 128 + 128)).toNat = v % 128 + 128 := by
        rw [UInt8.toNat_ofNat']
        omega
      have hvalue : v = (UInt8.ofNat (v % 128 + 128)).toNat - 128 + 128 * (v / 128) := by omega
      rw [and_127, hor, hdiv]
      nth_rewrite 3 [hvalue]
      exact .more (by omega) (ih (by rw [Nat.pow_succ] at hv; omega))

theorem length_write_le (fuel v : ℕ) : (write fuel v).length ≤ fuel := by
  induction fuel generalizing v with
  | zero => simp [write]
  | succ fuel ih =>
    rw [write]
    split
    · simp
    · rw [List.length_cons]
      exact Nat.succ_le_succ (ih _)

/-! ## Streams of numbers -/

/-- The numbers stand one after the other from one position to another, each in at most `most`
bytes, as a reader of `width` bits sees them. -/
inductive Stream (width most : ℕ) (d : List UInt8) : ℕ → List ℕ → ℕ → Prop
  | nil (p : ℕ) : Stream width most d p [] p
  | cons {p q v : ℕ} {x : List UInt8} {vs : List ℕ} (h : Encodes x v) (hmost : x.length ≤ most)
      (hx : StandsAt d p x) (hrest : Stream width most d (p + x.length) vs q) :
      Stream width most d p (v % 2 ^ width :: vs) q

namespace Stream

variable {most q : ℕ} {vs ws : List ℕ}

theorem length_le (h : Stream width most d p vs q) : p + vs.length ≤ q := by
  induction h with
  | nil p => simp
  | cons h hmost hx hrest ih =>
    have hpos := List.length_pos_of_ne_nil h.ne_nil
    rw [List.length_cons]
    omega

/-- The stream lies inside the string. -/
theorem le_length (h : Stream width most d p vs q) (hvs : vs ≠ []) : q ≤ d.length := by
  induction h with
  | nil p => exact absurd rfl hvs
  | @cons p q v x vs h hmost hx hrest ih =>
    have hend := hx.lt h.ne_nil
    cases hrest with
    | nil => exact hend
    | cons h' hmost' hx' hrest' => exact ih (by simp)

theorem lt_of_mem (h : Stream width most d p vs q) : ∀ v ∈ vs, v < 2 ^ width := by
  induction h with
  | nil p => simp
  | cons h hmost hx hrest ih =>
    intro v hv
    rcases List.mem_cons.mp hv with rfl | hv
    · exact Nat.mod_lt _ (Nat.two_pow_pos _)
    · exact ih v hv

/-- Only the bytes of the range matter. -/
theorem congr {d' : List UInt8} (h : Stream width most d p vs q)
    (hd : ∀ i, p ≤ i → i < q → d'[i]? = d[i]?) : Stream width most d' p vs q := by
  induction h with
  | nil p => exact .nil p
  | @cons p q v x vs h hmost hx hrest ih =>
    have hle := hrest.length_le
    refine .cons h hmost (hx.congr fun i hi hlt => hd i hi (by omega)) (ih fun i hi hlt => ?_)
    exact hd i (by omega) hlt

/-- Reading a number moves on to the rest of the stream. -/
theorem read_eq {v : ℕ} (h : Stream width most d p (v :: vs) q)
    (hfuel : min most (d.length - p) ≤ fuel) (hwrap : q < wrap) :
    ∃ p', read width wrap fuel d p = (v, p') ∧ Stream width most d p' vs q := by
  cases h with
  | @cons _ _ v x _ h hmost hx hrest =>
    have hle := hrest.length_le
    have hend := hx.lt h.ne_nil
    exact ⟨p + x.length, read_of_encodes h hx (by omega) (by omega), hrest⟩

/-- The function reads the numbers of every stream that ends at a position. -/
def Reads (width most : ℕ) (d : List UInt8) (q : ℕ) (read : ℕ → ℕ × ℕ) : Prop :=
  ∀ p v vs, Stream width most d p (v :: vs) q →
    ∃ p', read p = (v, p') ∧ Stream width most d p' vs q

/-- The shortest encodings of numbers, one after the other, are a stream. -/
theorem of_write {fuel : ℕ} (hvs : ∀ v ∈ vs, v < 2 ^ width ∧ v < 128 ^ (fuel + 1))
    (h : StandsAt d p (vs.flatMap (write (fuel + 1)))) :
    Stream width (fuel + 1) d p vs (p + (vs.flatMap (write (fuel + 1))).length) := by
  induction vs generalizing p with
  | nil => exact .nil p
  | cons v vs ih =>
    rw [List.flatMap_cons] at h ⊢
    obtain ⟨hv, hrest⟩ := standsAt_append.mp h
    obtain ⟨hwidth, hroom⟩ := hvs v (by simp)
    have hstream := ih (fun w hw => hvs w (by simp [hw])) hrest
    rw [List.length_append, ← Nat.add_assoc]
    have hcons := Stream.cons (encodes_write hroom) (length_write_le _ _) hv hstream
    rwa [Nat.mod_eq_of_lt hwidth] at hcons

end Stream

/-! ## Where numbers lie -/

/-- The position behind the number at a position, if all of its bytes are in the string. A number
has at most `fuel` bytes. -/
def endFrom (d : List UInt8) : (fuel p : ℕ) → Option ℕ
  | 0, p => some p
  | fuel + 1, p => d[p]?.bind fun b =>
      if b.toNat &&& 0x80 = 0 then some (p + 1) else endFrom d fuel (p + 1)

/-- The positions of the bytes that `readFrom` reads. -/
def spanFrom (wrap : ℕ) (d : List UInt8) : (fuel p : ℕ) → List ℕ
  | 0, _ => []
  | fuel + 1, p =>
      match d[p]? with
      | none => []
      | some b => p :: if b.toNat &&& 0x80 = 0 then [] else spanFrom wrap d fuel ((p + 1) % wrap)

section Places

variable {q most k : ℕ}

theorem endFrom_le (h : endFrom d fuel p = some q) :
    p + min fuel 1 ≤ q ∧ (q = p ∨ q ≤ d.length) := by
  induction fuel generalizing p with
  | zero =>
    obtain rfl := Option.some.inj h
    simp
  | succ fuel ih =>
    obtain ⟨b, hb, hq⟩ := Option.bind_eq_some_iff.mp h
    have hlt : p < d.length := (List.getElem?_eq_some_iff.mp hb).1
    split at hq
    · obtain rfl := Option.some.inj hq
      omega
    · have hrest := ih hq
      omega

/-- A number that lies before the wrap is read where it lies. -/
theorem readFrom_of_end (hwrap : q ≤ wrap) (h : endFrom d fuel p = some q) (result shift : ℕ) :
    (readFrom width wrap d fuel (p % wrap) result shift).2 = q % wrap := by
  induction fuel generalizing p result shift with
  | zero =>
    obtain rfl := Option.some.inj h
    rfl
  | succ fuel ih =>
    have hle := (endFrom_le h).1
    obtain ⟨b, hb, hq⟩ := Option.bind_eq_some_iff.mp h
    rw [Nat.mod_eq_of_lt (show p < wrap by omega), readFrom, hb]
    dsimp only
    split at hq
    next hlast =>
      obtain rfl := Option.some.inj hq
      rw [if_pos hlast]
    next hmore => rw [if_neg hmore, ih hq]

theorem spanFrom_of_end (hwrap : q ≤ wrap) (h : endFrom d fuel p = some q) :
    spanFrom wrap d fuel (p % wrap) = List.range' p (q - p) := by
  induction fuel generalizing p with
  | zero =>
    obtain rfl := Option.some.inj h
    simp [spanFrom]
  | succ fuel ih =>
    have hle := (endFrom_le h).1
    obtain ⟨b, hb, hq⟩ := Option.bind_eq_some_iff.mp h
    rw [Nat.mod_eq_of_lt (show p < wrap by omega), spanFrom, hb]
    dsimp only
    obtain ⟨n, hn⟩ : ∃ n, q - p = n + 1 := ⟨q - p - 1, by omega⟩
    rw [hn, List.range'_succ]
    split at hq
    next hlast =>
      obtain rfl := Option.some.inj hq
      obtain rfl : n = 0 := by omega
      rw [if_pos hlast, List.range'_zero]
    next hmore => rw [if_neg hmore, ih hq, show q - (p + 1) = n by omega]

theorem lt_of_mem_spanFrom (hp : p < wrap) : ∀ i ∈ spanFrom wrap d fuel p, i < wrap := by
  induction fuel generalizing p with
  | zero => simp [spanFrom]
  | succ fuel ih =>
    rw [spanFrom]
    split
    next => simp
    next b hb =>
      intro i hi
      rcases List.mem_cons.mp hi with rfl | hi
      · exact hp
      · split at hi
        next => cases hi
        next => exact ih (Nat.mod_lt _ (by omega)) i hi

/-- The position behind `k` numbers that lie in the string one after the other. -/
def endAfter (most : ℕ) (d : List UInt8) : (k p : ℕ) → Option ℕ
  | 0, p => some p
  | k + 1, p => (endFrom d most p).bind (endAfter most d k)

/-- The position of a reader after `k` numbers. -/
def skipNumbers (read : ℕ → ℕ × ℕ) : (k p : ℕ) → ℕ
  | 0, p => p
  | k + 1, p => skipNumbers read k (read p).2

/-- The positions of the bytes that are read for `k` numbers. -/
def spans (width wrap most : ℕ) (d : List UInt8) : (k p : ℕ) → List ℕ
  | 0, _ => []
  | k + 1, p =>
      spanFrom wrap d most p ++ spans width wrap most d k (read width wrap most d p).2

theorem endAfter_add (m n p : ℕ) :
    endAfter most d (m + n) p = (endAfter most d m p).bind (endAfter most d n) := by
  induction m generalizing p with
  | zero => rw [Nat.zero_add, endAfter, Option.bind_some]
  | succ m ih =>
    rw [Nat.succ_add, endAfter, endAfter, Option.bind_assoc]
    congr 1
    funext p'
    exact ih p'

theorem skipNumbers_add (read : ℕ → ℕ × ℕ) (m n p : ℕ) :
    skipNumbers read (m + n) p = skipNumbers read n (skipNumbers read m p) := by
  induction m generalizing p with
  | zero => rw [Nat.zero_add, skipNumbers]
  | succ m ih => rw [Nat.succ_add, skipNumbers, skipNumbers, ih]

theorem endAfter_le (hmost : 0 < most) (h : endAfter most d k p = some q) :
    p + k ≤ q ∧ (k ≠ 0 → q ≤ d.length) := by
  induction k generalizing p with
  | zero =>
    obtain rfl := Option.some.inj h
    simp
  | succ k ih =>
    obtain ⟨p', hp', hrest⟩ := Option.bind_eq_some_iff.mp h
    have hle := endFrom_le hp'
    have hrest' := ih hrest
    refine ⟨by omega, fun _ => ?_⟩
    cases k with
    | zero =>
      obtain rfl := Option.some.inj hrest
      omega
    | succ k => exact hrest'.2 (by omega)

/-- Numbers that lie before the wrap are passed as they lie. -/
theorem skipNumbers_of_end (hmost : 0 < most) (hwrap : q ≤ wrap)
    (h : endAfter most d k p = some q) :
    skipNumbers (read width wrap most d) k (p % wrap) = q % wrap := by
  induction k generalizing p with
  | zero =>
    obtain rfl := Option.some.inj h
    rfl
  | succ k ih =>
    obtain ⟨p', hp', hrest⟩ := Option.bind_eq_some_iff.mp h
    have hle := (endAfter_le hmost hrest).1
    rw [skipNumbers, read, readFrom_of_end (by omega) hp', ih hrest]

theorem spans_of_end (hmost : 0 < most) (hwrap : q ≤ wrap) (h : endAfter most d k p = some q) :
    spans width wrap most d k (p % wrap) = List.range' p (q - p) := by
  induction k generalizing p with
  | zero =>
    obtain rfl := Option.some.inj h
    simp [spans]
  | succ k ih =>
    obtain ⟨p', hp', hrest⟩ := Option.bind_eq_some_iff.mp h
    have hle := (endFrom_le hp').1
    have hle' := (endAfter_le hmost hrest).1
    rw [spans, read, spanFrom_of_end (by omega) hp', readFrom_of_end (by omega) hp', ih hrest,
      show q - p = (p' - p) + (q - p') by omega, ← List.range'_append_1,
      show p + (p' - p) = p' by omega]

theorem read_lt (hwrap : 0 < wrap) (hp : p < wrap) : (read width wrap fuel d p).2 < wrap := by
  have hloop : ∀ fuel p result shift, p < wrap →
      (readFrom width wrap d fuel p result shift).2 < wrap := by
    intro fuel
    induction fuel with
    | zero => exact fun p _ _ hp => hp
    | succ fuel ih =>
      intro p result shift hp
      rw [readFrom]
      split
      next => exact hp
      next b hb =>
        dsimp only
        split
        next => exact Nat.mod_lt _ hwrap
        next => exact ih _ _ _ (Nat.mod_lt _ hwrap)
  exact hloop fuel p 0 0 hp

theorem lt_of_mem_spans (hp : p < wrap) : ∀ i ∈ spans width wrap most d k p, i < wrap := by
  induction k generalizing p with
  | zero => simp [spans]
  | succ k ih =>
    intro i hi
    rcases List.mem_append.mp hi with hi | hi
    · exact lt_of_mem_spanFrom hp i hi
    · exact ih (read_lt (by omega) hp) i hi

end Places

/-! ## Readers with different limits -/

/-- The string or the number ends within `k` bytes from a position on. -/
def StopsWithin (d : List UInt8) (p k : ℕ) : Prop :=
  d.length ≤ p + k ∨ ∃ j < k, ∃ b, d[p + j]? = some b ∧ b.toNat &&& 0x80 = 0

theorem stopsWithin_succ {k : ℕ} {b : UInt8} (hb : d[p]? = some b) (hmore : ¬b.toNat &&& 0x80 = 0) :
    StopsWithin d p (k + 1) ↔ StopsWithin d (p + 1) k := by
  have hat : ∀ j, p + 1 + j = p + (j + 1) := fun j => by omega
  constructor
  · rintro (hend | ⟨j, hj, c, hc, hlast⟩)
    · exact .inl (by omega)
    · cases j with
      | zero =>
        obtain rfl : b = c := Option.some.inj (hb.symm.trans hc)
        exact absurd hlast hmore
      | succ j => exact .inr ⟨j, by omega, c, by rwa [hat], hlast⟩
  · rintro (hend | ⟨j, hj, c, hc, hlast⟩)
    · exact .inl (by omega)
    · exact .inr ⟨j + 1, by omega, c, by rwa [hat] at hc, hlast⟩

/-- Readers whose limits are behind the end of the number read the same. -/
theorem readFrom_congr {wrap' fuel' k : ℕ} (h : StopsWithin d p k) (hfuel : k ≤ fuel)
    (hfuel' : k ≤ fuel') (hwrap : p + k < wrap) (hwrap' : p + k < wrap') (result shift : ℕ) :
    readFrom width wrap d fuel p result shift = readFrom width wrap' d fuel' p result shift := by
  induction k generalizing p fuel fuel' result shift with
  | zero =>
    have hnone : d[p]? = none := by
      rcases h with hend | ⟨j, hj, -⟩
      · exact List.getElem?_eq_none hend
      · omega
    cases fuel <;> cases fuel' <;> simp only [readFrom, hnone]
  | succ k ih =>
    obtain ⟨fuel, rfl⟩ : ∃ n, fuel = n + 1 := ⟨fuel - 1, by omega⟩
    obtain ⟨fuel', rfl⟩ : ∃ n, fuel' = n + 1 := ⟨fuel' - 1, by omega⟩
    cases hb : d[p]? with
    | none => simp only [readFrom, hb]
    | some b =>
      simp only [readFrom, hb, Nat.mod_eq_of_lt (show p + 1 < wrap by omega),
        Nat.mod_eq_of_lt (show p + 1 < wrap' by omega)]
      split
      · rfl
      · next hmore =>
        exact ih ((stopsWithin_succ hb hmore).mp h) (by omega) (by omega) (by omega) (by omega) _ _

/-- A reader that does not wrap goes on until the number or the string ends. -/
theorem le_readFrom {k : ℕ} (h : ∀ j < k, ¬StopsWithin d p j) (hfuel : k ≤ fuel)
    (hwrap : p + fuel < wrap) (result shift : ℕ) :
    p + k ≤ (readFrom width wrap d fuel p result shift).2 := by
  induction fuel generalizing p k result shift with
  | zero => exact Nat.add_le_add_left hfuel p
  | succ fuel ih =>
    rw [readFrom]
    cases hb : d[p]? with
    | none =>
      have hend := List.getElem?_eq_none_iff.mp hb
      obtain rfl : k = 0 := by
        by_contra hk
        exact h 0 (by omega) (.inl hend)
      exact Nat.le_refl p
    | some b =>
      dsimp only
      rw [Nat.mod_eq_of_lt (show p + 1 < wrap by omega)]
      split
      next hlast =>
        by_contra hk
        exact h 1 (by omega) (.inr ⟨0, Nat.one_pos, b, hb, hlast⟩)
      next hmore =>
        have hrest : ∀ j < k - 1, ¬StopsWithin d (p + 1) j := fun j hj hstops =>
          h (j + 1) (by omega) ((stopsWithin_succ hb hmore).mpr hstops)
        have hle := ih hrest (by omega) (by omega) (result ||| ((b.toNat &&& 0x7f) <<< shift) %
          2 ^ width) (shift + 7)
        omega

theorem readFrom_le (result shift : ℕ) :
    (readFrom width wrap d fuel p result shift).2 ≤ p + fuel := by
  induction fuel generalizing p result shift with
  | zero => exact Nat.le_refl p
  | succ fuel ih =>
    have hmod := Nat.mod_le (p + 1) wrap
    rw [readFrom]
    split
    · exact Nat.le_add_right p _
    · dsimp only
      split
      · omega
      · exact (ih _ _).trans (by omega)

end Uleb128
