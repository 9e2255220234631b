import Vardoger.Dex.ClassData

/-!
# Well-formed DEX files

The tables, strings and class data of a well-formed file lie behind the header and beside the class
definitions. What the parser makes of strings, types and methods then depends on these sections
only: any longer file that agrees on them has the same ones.
-/

namespace Vardoger.Dex

open Bytes LittleEndian Uleb128

/-- The position of a class definition. -/
def Tables.classDefAt (t : Tables) (k : ℕ) : ℕ := t.classDefs.off + k * 32

/-- The class data of a class definition. -/
def Tables.dataOf (t : Tables) (k : ℕ) : ClassData :=
  t.classData (rd32 t.data (t.classDefAt k + 24))

/-- A range of the file behind the header and outside of the class definitions. -/
structure IsSection (d : List UInt8) (lo hi : ℕ) : Prop where
  header : 0x70 ≤ lo
  inside : hi ≤ d.length
  apart : hi ≤ (Tables.ofHeader d).classDefs.off ∨
    (Tables.ofHeader d).classDefAt (Tables.ofHeader d).classDefs.size ≤ lo

/-- An id table is empty or a section. -/
def IsTable (d : List UInt8) (t : Table) (width : ℕ) : Prop :=
  t.size = 0 ∨ IsSection d t.off (t.off + t.size * width)

/-- A terminated string item is a section. -/
def IsString (d : List UInt8) (o : ℕ) : Prop :=
  ∃ x v text, Encodes x v ∧ x.length ≤ 5 ∧ (0 : UInt8) ∉ text ∧ StandsAt d o (x ++ (text ++ [0])) ∧
    IsSection d o (o + (x ++ (text ++ [0])).length)

/-- The tables, the strings and the class data are inside the file, and disjoint from the header
and the class definitions. -/
structure WellFormed (d : List UInt8) : Prop where
  size : 0x70 ≤ d.length
  magic : d.take 4 = ascii "dex\n"
  classDefs : (Tables.ofHeader d).classDefs.size = 0 ∨ 0x70 ≤ (Tables.ofHeader d).classDefs.off
  classDefsInside :
    (Tables.ofHeader d).classDefAt (Tables.ofHeader d).classDefs.size ≤ d.length
  stringIds : IsTable d (Tables.ofHeader d).stringIds 4
  typeIds : IsTable d (Tables.ofHeader d).typeIds 4
  protoIds : IsTable d (Tables.ofHeader d).protoIds 12
  methodIds : IsTable d (Tables.ofHeader d).methodIds 8
  strings : ∀ k < (Tables.ofHeader d).stringIds.size,
    IsString d (rd32 d ((Tables.ofHeader d).stringIds.off + k * 4))
  classData : ∀ k < (Tables.ofHeader d).classDefs.size,
    rd32 d ((Tables.ofHeader d).classDefAt k + 24) = 0 ∨
      ∃ cd stop, ClassData.StandsIn d (rd32 d ((Tables.ofHeader d).classDefAt k + 24)) cd stop ∧
        IsSection d (rd32 d ((Tables.ofHeader d).classDefAt k + 24)) stop

/-- The class definitions stand behind the header, and each class data behind the header and beside
the class definitions. -/
structure DataApart (d : List UInt8) : Prop where
  size : 0x70 ≤ d.length
  classDefs : (Tables.ofHeader d).classDefs.size = 0 ∨ 0x70 ≤ (Tables.ofHeader d).classDefs.off
  classDefsInside :
    (Tables.ofHeader d).classDefAt (Tables.ofHeader d).classDefs.size ≤ d.length
  classData : ∀ k < (Tables.ofHeader d).classDefs.size,
    rd32 d ((Tables.ofHeader d).classDefAt k + 24) = 0 ∨
      ∃ cd stop, ClassData.StandsIn d (rd32 d ((Tables.ofHeader d).classDefAt k + 24)) cd stop ∧
        IsSection d (rd32 d ((Tables.ofHeader d).classDefAt k + 24)) stop

theorem WellFormed.dataApart {d : List UInt8} (hd : WellFormed d) : DataApart d :=
  ⟨hd.size, hd.classDefs, hd.classDefsInside, hd.classData⟩

/-- The second file is at least as long and agrees with the first on what the parser reads from
the header, on all sections and on the class definitions up to their class data offset. -/
structure Agrees (d out : List UInt8) : Prop where
  length_le : d.length ≤ out.length
  header : ∀ i, i < 4 ∨ (0x38 ≤ i ∧ i < 0x68) → out[i]? = d[i]?
  sections : ∀ lo hi, IsSection d lo hi → ∀ i, lo ≤ i → i < hi → out[i]? = d[i]?
  classDefs : ∀ k < (Tables.ofHeader d).classDefs.size, ∀ i, (Tables.ofHeader d).classDefAt k ≤ i →
    i < (Tables.ofHeader d).classDefAt k + 24 → out[i]? = d[i]?

theorem rd32_eq {d : List UInt8} {o : ℕ} (h : o + 4 ≤ d.length) : rd32 d o = wordAt 4 d o := by
  rw [rd32, if_neg (by omega)]

theorem rd32_congr {d out : List UInt8} {o : ℕ} (hd : o + 4 ≤ d.length)
    (hlength : d.length ≤ out.length) (h : ∀ i, o ≤ i → i < o + 4 → out[i]? = d[i]?) :
    rd32 out o = rd32 d o := by
  rw [rd32_eq hd, rd32_eq (by omega), wordAt_congr h]

/-- The text of a string item is what the parser reads. -/
theorem text_of_standsAt {d x text : List UInt8} {o v : ℕ} (hx : Encodes x v) (hmost : x.length ≤ 5)
    (htext : (0 : UInt8) ∉ text) (h : StandsAt d o (x ++ (text ++ [0]))) (hd : d.length < 2 ^ 32) :
    (d.drop (uleb d o).2).takeWhile (· ≠ 0) = text := by
  obtain ⟨hnumber, ⟨rest, hrest⟩⟩ := standsAt_append.mp h
  have hbound := h.lt (by simp)
  simp only [List.length_append] at hbound
  have hne : ∀ b ∈ text, decide (b ≠ 0) = true := fun b hb =>
    decide_eq_true fun hzero => htext (hzero ▸ hb)
  rw [uleb, read_of_encodes hx hnumber hmost (by omega), ← hrest, List.append_assoc,
    List.takeWhile_append_of_pos hne]
  simp

namespace Agrees

variable {d out : List UInt8}

theorem rd32_section (h : Agrees d out) {lo hi o : ℕ} (hs : IsSection d lo hi) (hlo : lo ≤ o)
    (hhi : o + 4 ≤ hi) : rd32 out o = rd32 d o := by
  have hinside := hs.inside
  exact rd32_congr (by omega) h.length_le fun i hi hlt => h.sections lo _ hs i (by omega) (by omega)

theorem ofHeader_eq (h : Agrees d out) (hsize : 0x70 ≤ d.length) :
    Tables.ofHeader out = { Tables.ofHeader d with data := out } := by
  have hword : ∀ o, 0x38 ≤ o → o + 4 ≤ 0x68 → rd32 out o = rd32 d o := fun o hlo hhi =>
    rd32_congr (by omega) h.length_le fun i hi hlt => h.header i (by omega)
  simp (disch := omega) only [Tables.ofHeader, hword]

/-- The strings are the same. -/
theorem stringAt_eq (h : Agrees d out) (hd : WellFormed d) (hout : out.length < 2 ^ 32) (idx : ℕ) :
    (Tables.ofHeader out).stringAt idx = (Tables.ofHeader d).stringAt idx := by
  rw [h.ofHeader_eq hd.size]
  by_cases hidx : idx ≥ (Tables.ofHeader d).stringIds.size
  · rw [Tables.stringAt, Tables.stringAt, if_pos hidx, if_pos hidx]
  rw [Tables.stringAt, Tables.stringAt, if_neg hidx, if_neg hidx]
  obtain ⟨x, v, text, hx, hmost, htext, hstands, hsection⟩ := hd.strings idx (by omega)
  have hlength := h.length_le
  have htable := hd.stringIds.resolve_left (by omega)
  have hinside := htable.inside
  have hpos : ((Tables.ofHeader d).stringIds.off + idx * 4) % 2 ^ 32 =
      (Tables.ofHeader d).stringIds.off + idx * 4 := Nat.mod_eq_of_lt (by omega)
  have hword : rd32 out ((Tables.ofHeader d).stringIds.off + idx * 4) =
      rd32 d ((Tables.ofHeader d).stringIds.off + idx * 4) :=
    h.rd32_section htable (by omega) (by omega)
  dsimp only
  rw [show (Tables.ofHeader d).data = d from rfl, hpos, hword]
  generalize rd32 d ((Tables.ofHeader d).stringIds.off + idx * 4) = o at hstands hsection
  have hend := hsection.inside
  have hxpos := List.length_pos_of_ne_nil hx.ne_nil
  simp only [List.length_append, List.length_singleton] at hend
  rw [if_neg (by omega), if_neg (by omega)]
  have hstands' : StandsAt out o (x ++ (text ++ [0])) := hstands.congr (h.sections _ _ hsection)
  rw [text_of_standsAt hx hmost htext hstands' hout,
    text_of_standsAt hx hmost htext hstands (by omega)]

theorem typeAt_eq (h : Agrees d out) (hd : WellFormed d) (hout : out.length < 2 ^ 32) (idx : ℕ) :
    (Tables.ofHeader out).typeAt idx = (Tables.ofHeader d).typeAt idx := by
  have hlength := h.length_le
  rw [Tables.typeAt, Tables.typeAt, h.stringAt_eq hd hout, h.ofHeader_eq hd.size]
  dsimp only
  split
  · rfl
  next hidx =>
    have htable := hd.typeIds.resolve_left (by omega)
    have hinside := htable.inside
    rw [Nat.mod_eq_of_lt (by omega), h.rd32_section htable (by omega) (by omega)]
    rfl

theorem idEntry_eq (h : Agrees d out) {lo hi o : ℕ} (hs : IsSection d lo hi) (hlo : lo ≤ o)
    (hhi : o + 8 ≤ hi) :
    (Tables.ofHeader out).idEntry o = (Tables.ofHeader d).idEntry o := by
  have hlength := h.length_le
  have hinside := hs.inside
  have hword : ∀ n p, lo ≤ p → p + n ≤ hi → wordAt n out p = wordAt n d p := fun n p hp hn =>
    wordAt_congr fun i hi hlt => h.sections lo _ hs i (by omega) (by omega)
  rw [Tables.idEntry, Tables.idEntry, show (Tables.ofHeader out).data = out from rfl,
    show (Tables.ofHeader d).data = d from rfl, if_pos (by omega), if_pos (by omega),
    hword 2 o hlo (by omega), hword 2 (o + 2) (by omega) (by omega),
    hword 4 (o + 4) (by omega) (by omega)]

/-- The methods of the id table are the same. -/
theorem methodAt_eq (h : Agrees d out) (hd : WellFormed d) (hout : out.length < 2 ^ 32) (idx : ℕ) :
    (Tables.ofHeader out).methodAt idx = (Tables.ofHeader d).methodAt idx := by
  have hheader := h.ofHeader_eq hd.size
  have hids : (Tables.ofHeader out).methodIds = (Tables.ofHeader d).methodIds := by rw [hheader]
  have hprotos : (Tables.ofHeader out).protoIds = (Tables.ofHeader d).protoIds := by rw [hheader]
  rw [Tables.methodAt, Tables.methodAt, hids, hprotos]
  split
  · rfl
  next hidx =>
    have htable := hd.methodIds.resolve_left (by omega)
    rw [h.idEntry_eq htable (by omega) (by omega)]
    obtain ⟨clsIdx, protoIdx, nameIdx⟩ :=
      (Tables.ofHeader d).idEntry ((Tables.ofHeader d).methodIds.off + idx * 8)
    dsimp only
    rw [h.typeAt_eq hd hout, h.stringAt_eq hd hout]
    congr 1
    split
    next hproto =>
      have hsection := hd.protoIds.resolve_left (by omega)
      rw [h.stringAt_eq hd hout, show (Tables.ofHeader out).data = out from rfl,
        h.rd32_section hsection (by omega) (by omega)]
      rfl
    · rfl

end Agrees

end Vardoger.Dex
