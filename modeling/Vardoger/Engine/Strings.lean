import Vardoger.Base.Patches
import Vardoger.Engine.Memory

/-!
# Byte strings in guest memory

What it means that a byte string stands in mapped guest memory, how reading and writing it behave,
and C strings: bytes other than NUL with a NUL behind them. `read_cstr` stops after a fixed number
of bytes, so it returns a prefix of the string.
-/

namespace Vardoger

open Words Patches

/-- The number of address bits of a guest. -/
def Abi.bits : Abi → ℕ
  | .arm64 | .x8664 => 64
  | .arm32 | .x86 => 32

namespace Engine

variable {e : Engine} {addr n max : ℕ} {x y : List UInt8}

/-- The bytes stand at an address of mapped memory. -/
def Holds (e : Engine) (addr : ℕ) (x : List UInt8) : Prop :=
  e.Accessible addr x.length ∧ slice e.byte addr x.length = x

instance (e : Engine) (addr : ℕ) (x : List UInt8) : Decidable (e.Holds addr x) :=
  inferInstanceAs (Decidable (_ ∧ _))

/-- A C string in the address space of the guest. -/
structure IsCstr (e : Engine) (addr : ℕ) (x : List UInt8) : Prop where
  nonzero : 0 ∉ x
  holds : e.Holds addr (x ++ [0])
  fits : addr + x.length < 2 ^ e.abi.bits

instance (e : Engine) (addr : ℕ) (x : List UInt8) : Decidable (e.IsCstr addr x) :=
  decidable_of_iff (0 ∉ x ∧ e.Holds addr (x ++ [0]) ∧ addr + x.length < 2 ^ e.abi.bits)
    ⟨fun h => ⟨h.1, h.2.1, h.2.2⟩, fun h => ⟨h.1, h.2, h.3⟩⟩

theorem accessible_add {m : ℕ} :
    e.Accessible addr (n + m) ↔ e.Accessible addr n ∧ (m = 0 ∨ e.Accessible (addr + n) m) := by
  constructor
  · rintro ⟨hfits, hmapped⟩
    refine ⟨⟨by omega, fun i hi => hmapped i (by omega)⟩, .inr ⟨by omega, fun i hi => ?_⟩⟩
    rw [Nat.add_assoc]
    exact hmapped (n + i) (by omega)
  · rintro ⟨⟨hfits, hmapped⟩, rfl | ⟨hfits', hmapped'⟩⟩
    · exact ⟨by omega, hmapped⟩
    · refine ⟨by omega, fun i hi => ?_⟩
      by_cases hlt : i < n
      · exact hmapped i hlt
      · obtain ⟨j, rfl⟩ : ∃ j, i = n + j := ⟨i - n, by omega⟩
        rw [← Nat.add_assoc]
        exact hmapped' j (by omega)

theorem Accessible.mono {m : ℕ} (h : e.Accessible addr n) (hm : m ≤ n) : e.Accessible addr m :=
  ⟨by have := h.1; omega, fun i hi => h.2 i (by omega)⟩

/-- A part of an accessible range is accessible. -/
theorem Accessible.within {a m : ℕ} (h : e.Accessible addr n) (hlow : addr ≤ a)
    (hhigh : a + m ≤ addr + n) : e.Accessible a m := by
  refine ⟨by have := h.1; omega, fun i hi => ?_⟩
  obtain ⟨j, rfl⟩ : ∃ j, a = addr + j := ⟨a - addr, by omega⟩
  rw [Nat.add_assoc]
  exact h.2 (j + i) (by omega)

/-- What was just mapped is accessible. -/
theorem Mappable.accessible {size m : ℕ} (h : e.Mappable addr size) (hm : m ≤ size) (perms : ℕ) :
    (e.mapPages addr size perms).Accessible addr m := by
  obtain ⟨-, haddr, hsize, hfits, -⟩ := h
  exact ⟨by omega, fun i hi => (mapped_mapPages haddr hsize).mpr (.inl ⟨by omega, by omega⟩)⟩

theorem byte_setBytes (e : Engine) (addr : ℕ) (x : List UInt8) :
    (e.setBytes addr x).byte = put e.byte addr x := by
  funext a
  simp only [setBytes, put]
  by_cases hle : addr ≤ a
  · by_cases hlt : a < addr + x.length
    · have hi : a - addr < x.length := by omega
      rw [if_pos ⟨hle, hlt⟩, if_pos hle, List.getD_eq_getElem _ _ hi, List.getD_eq_getElem _ _ hi]
    · rw [if_neg (fun h => hlt h.2), if_pos hle, List.getD_eq_default _ _ (by omega)]
  · rw [if_neg (fun h => hle h.1), if_neg hle]

/-- A number that is stored stands there. -/
theorem slice_setBytes_toBytes (e : Engine) (addr n v : ℕ) :
    slice (e.setBytes addr (LittleEndian.toBytes n v)).byte addr n = LittleEndian.toBytes n v := by
  have hput := slice_put e.byte addr (LittleEndian.toBytes n v)
  rwa [LittleEndian.length_toBytes, ← byte_setBytes] at hput

theorem accessible_setBytes {a : ℕ} :
    (e.setBytes a x).Accessible addr n ↔ e.Accessible addr n := Iff.rfl

/-- Bytes in an accessible range are written. -/
theorem write_eq (h : e.Accessible addr x.length) : e.write addr x = .ok (e.setBytes addr x) :=
  if_pos h

/-- What was written stands there. -/
theorem holds_setBytes (h : e.Accessible addr x.length) : (e.setBytes addr x).Holds addr x := by
  refine ⟨accessible_setBytes.mpr h, ?_⟩
  rw [byte_setBytes, slice_put]

/-- Two writes, the second one right behind the first. -/
theorem setBytes_append (e : Engine) (addr : ℕ) (x y : List UInt8) :
    (e.setBytes addr x).setBytes (addr + x.length) y = e.setBytes addr (x ++ y) := by
  simp only [setBytes, mk.injEq, true_and, and_true]
  funext a
  simp only [List.length_append]
  by_cases hlow : a < addr
  · rw [if_neg (by omega), if_neg (by omega), if_neg (by omega)]
  · by_cases hfirst : a < addr + x.length
    · rw [if_neg (by omega), if_pos (by omega), if_pos (by omega),
        List.getD_append _ _ _ _ (by omega)]
    · by_cases hsecond : a < addr + x.length + y.length
      · rw [if_pos (by omega), if_pos (by omega), List.getD_append_right _ _ _ _ (by omega),
          Nat.sub_sub]
      · rw [if_neg (by omega), if_neg (by omega), if_neg (by omega)]

/-- A write beside a string leaves it. -/
theorem Holds.setBytes (h : e.Holds addr y) {a : ℕ}
    (hapart : a + x.length ≤ addr ∨ addr + y.length ≤ a) : (e.setBytes a x).Holds addr y := by
  obtain ⟨haccess, hslice⟩ := h
  refine ⟨accessible_setBytes.mpr haccess, ?_⟩
  rw [← hslice, length_slice, byte_setBytes]
  refine slice_congr fun i hi => put_of_not_covers fun hcovers => ?_
  simp only [Patch.Covers] at hcovers
  omega

/-- A write into a string replaces a part of it. -/
theorem Holds.replace {w z : List UInt8} (h : e.Holds addr (x ++ y ++ z))
    (hlength : w.length = y.length) :
    (e.setBytes (addr + x.length) w).Holds addr (x ++ w ++ z) := by
  obtain ⟨haccess, hslice⟩ := h
  simp only [List.length_append, slice_add, ← hlength] at haccess hslice
  obtain ⟨hfront, hback⟩ := List.append_inj hslice (by simp [hlength])
  obtain ⟨hfront, -⟩ := List.append_inj hfront (by simp)
  refine ⟨accessible_setBytes.mpr (by simpa only [List.length_append] using haccess), ?_⟩
  simp only [List.length_append, slice_add, byte_setBytes, slice_put]
  have hbefore : slice (put e.byte (addr + x.length) w) addr x.length = x := by
    refine (slice_congr fun i hi => put_of_not_covers fun hcovers => ?_).trans hfront
    simp only [Patch.Covers] at hcovers
    omega
  have hbehind : slice (put e.byte (addr + x.length) w) (addr + (x.length + w.length)) z.length =
      z := by
    refine (slice_congr fun i hi => put_of_not_covers fun hcovers => ?_).trans hback
    simp only [Patch.Covers] at hcovers
    omega
  rw [hbefore, hbehind]

/-- A string is continued into the zeros behind it. -/
theorem Holds.fill {w : List UInt8} (h : e.Holds addr (x ++ List.replicate n 0))
    (hlength : w.length ≤ n) :
    (e.setBytes (addr + x.length) w).Holds addr (x ++ w ++ List.replicate (n - w.length) 0) := by
  refine Holds.replace (y := List.replicate w.length 0) ?_ (by simp)
  rwa [List.append_assoc, List.replicate_append_replicate, Nat.add_sub_cancel' hlength]

/-- Two strings one after the other. -/
theorem holds_append (hy : y ≠ []) :
    e.Holds addr (x ++ y) ↔ e.Holds addr x ∧ e.Holds (addr + x.length) y := by
  have hpos : y.length ≠ 0 := by simpa using hy
  simp only [Holds, List.length_append, accessible_add, hpos, false_or, slice_add]
  constructor
  · rintro ⟨⟨hx, hy⟩, hslice⟩
    obtain ⟨hleft, hright⟩ := List.append_inj hslice (by simp)
    exact ⟨⟨hx, hleft⟩, hy, hright⟩
  · rintro ⟨⟨hx, hleft⟩, hy, hright⟩
    exact ⟨⟨hx, hy⟩, by rw [hleft, hright]⟩

/-- The first byte of a string, and the rest of it. -/
theorem holds_cons {b : UInt8} (h : e.Holds addr (b :: x)) :
    e.Mapped addr ∧ e.byte addr = b ∧ (x ≠ [] → e.Holds (addr + 1) x) := by
  obtain ⟨haccess, hslice⟩ := h
  have hmapped := haccess.2 0 (by simp)
  have hbyte : e.byte (addr + 0) = b := by
    have hhead := congrArg (fun l => l[0]?) hslice
    simpa [slice] using hhead
  refine ⟨hmapped, hbyte, fun hx => ?_⟩
  have hsplit : e.Holds addr ([b] ++ x) := ⟨haccess, hslice⟩
  exact ((holds_append hx).mp hsplit).2

/-- `read_cstr` returns as much of a C string as its limit allows. -/
theorem readCstr_eq (hx : 0 ∉ x) (h : e.Holds addr (x ++ [0])) :
    e.readCstr addr max = x.take max := by
  induction max generalizing addr x with
  | zero => rw [readCstr, List.take_zero]
  | succ max ih =>
    cases x with
    | nil =>
      obtain ⟨hmapped, hbyte, -⟩ := holds_cons h
      rw [readCstr, if_pos hmapped, if_pos hbyte, List.take_nil]
    | cons b x =>
      obtain ⟨hmapped, hbyte, hrest⟩ := holds_cons h
      have hb : ¬b = 0 := fun hb => hx (by simp [hb])
      have hrest := hrest (by simp)
      have hstep : add64 addr 1 = addr + 1 := by
        have hfits : addr + 1 + (x ++ [0]).length ≤ 2 ^ 64 := hrest.1.1
        rw [List.length_append, List.length_singleton] at hfits
        exact add64_of_lt (by omega)
      rw [readCstr, if_pos hmapped, hbyte, if_neg hb, hstep,
        ih (fun hmem => hx (by simp [hmem])) hrest, List.take_succ_cons]

/-- A prefix of a string in memory stands there too. -/
theorem Holds.take (h : e.Holds addr x) (k : ℕ) : e.Holds addr (x.take k) := by
  obtain ⟨haccess, hslice⟩ := h
  have hle : (x.take k).length ≤ x.length := by simp
  refine ⟨haccess.mono hle, ?_⟩
  have hpart := take_drop_slice (f := e.byte) (a := addr) (i := 0) (m := (x.take k).length)
    (n := x.length) (by omega)
  rw [hslice, List.drop_zero, Nat.add_zero] at hpart
  rw [← hpart, List.length_take, ← List.take_eq_take_min]

/-- At most one C string stands at an address. -/
theorem Holds.cstr_unique (hx : e.Holds addr (x ++ [0])) (hy : e.Holds addr (y ++ [0]))
    (hnx : 0 ∉ x) (hny : 0 ∉ y) : x = y := by
  have hread : x.take (x.length + y.length) = y.take (x.length + y.length) :=
    (readCstr_eq hnx hx).symm.trans (readCstr_eq hny hy)
  rwa [List.take_of_length_le (by omega), List.take_of_length_le (by omega)] at hread

/-- Writing a string and a terminator behind bytes that stay. -/
theorem Holds.append_cstr {d : List UInt8} (hd : e.Holds addr d)
    (haccess : e.Accessible addr (d.length + x.length + 1)) :
    ((e.setBytes (addr + d.length) x).setBytes (addr + d.length + x.length) [0]).Holds addr
      (d ++ x ++ [0]) := by
  obtain ⟨hall, hlast⟩ := accessible_add.mp haccess
  obtain ⟨-, hmiddle⟩ := accessible_add.mp hall
  have hlast : e.Accessible (addr + (d.length + x.length)) 1 := by simpa using hlast
  rw [holds_append (by simp), List.length_append, Nat.add_assoc]
  refine ⟨?_, holds_setBytes (accessible_setBytes.mpr hlast)⟩
  refine Holds.setBytes ?_ (.inr (by rw [List.length_append]))
  cases hx : x with
  | nil =>
    rw [List.append_nil]
    exact hd.setBytes (.inr le_rfl)
  | cons b rest =>
    rw [← hx, holds_append (by simp [hx])]
    have hmiddle : e.Accessible (addr + d.length) x.length := by simpa [hx] using hmiddle
    exact ⟨hd.setBytes (.inr le_rfl), holds_setBytes hmiddle⟩

end Engine

namespace Memory

/-- The state after the host wrote bytes. -/
def setBytes (m : Memory) (addr : ℕ) (x : List UInt8) : Memory :=
  { m with engine := m.engine.setBytes addr x }

end Memory

end Vardoger
