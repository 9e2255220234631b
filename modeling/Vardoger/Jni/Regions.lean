import Vardoger.Jni.Args

/-!
# Regions of byte arrays

`GetByteArrayRegion` and `SetByteArrayRegion` copy a range of a byte array to or from guest memory.
Start and length come from the guest as 64-bit words, and the bound that is checked is on their
wrapping sum. The range in host memory that the copy touches may then lie outside the array, so we
keep the bytes around it as a parameter.
-/

namespace Vardoger

open Bytes JavaRuntime Stateful

namespace JniBridge

/-- The arguments behind the environment. -/
structure Region where
  arr : BitVec 64
  start : BitVec 64
  len : BitVec 64
  buf : BitVec 64
  deriving DecidableEq, Repr

def region (e : Engine) : Except Failure Region := do
  let (_, a) ← Args.nextInt e {}
  let (arr, a) ← a.nextInt e
  let (start, a) ← a.nextInt e
  let (len, a) ← a.nextInt e
  let (buf, _) ← a.nextInt e
  return ⟨arr, start, len, buf⟩

/-- The host bytes from an offset into an array on; behind the array stands something else, and
offsets wrap. -/
def hostBytes (around : ℕ → UInt8) (bytes : List UInt8) (start len : ℕ) : List UInt8 :=
  (List.range len).map fun i =>
    bytes.getD ((start + i) % 2 ^ 64) (around ((start + i) % 2 ^ 64))

/-- An array after bytes were written to the host memory from an offset into it on. -/
def hostWrite (bytes : List UInt8) (start : ℕ) (x : List UInt8) : List UInt8 :=
  bytes.mapIdx fun i b => x.getD ((i + (2 ^ 64 - start)) % 2 ^ 64) b

/-- The test of both functions. -/
def Region.Passes (g : Region) (bytes : List UInt8) : Prop :=
  (g.start + g.len).toNat ≤ bytes.length ∧ g.len ≠ 0

instance (g : Region) (bytes : List UInt8) : Decidable (g.Passes bytes) :=
  inferInstanceAs (Decidable (_ ∧ _))

def getByteArrayRegion (around : ℕ → UInt8) : JavaM Unit := do
  let s ← get
  match region s.mem.engine with
  | .error err => throw err
  | .ok g =>
      match s.byteRecord g.arr with
      | none => return
      | some r =>
          if g.Passes r.bytes then
            onMem (Memory.onEngine
              (·.write g.buf.toNat (hostBytes around r.bytes g.start.toNat g.len.toNat)))

def setByteArrayRegion : JavaM Unit := do
  let s ← get
  match region s.mem.engine with
  | .error err => throw err
  | .ok g =>
      match s.byteRecord g.arr with
      | none => return
      | some r =>
          if g.Passes r.bytes then
            match s.mem.engine.read g.buf.toNat g.len.toNat with
            | .error err => throw err
            | .ok x =>
                let bytes := hostWrite r.bytes g.start.toNat x
                modify fun s =>
                  { s with handles := Function.update s.handles g.arr (some { r with bytes }) }
                modify (notifyBytes bytes (ascii "SetByteArrayRegion"))

/-! ## What is promised, and when -/

/-- The range lies inside the array. -/
def Region.InBounds (g : Region) (bytes : List UInt8) : Prop :=
  0 < g.len.toNat ∧ g.start.toNat + g.len.toNat ≤ bytes.length

instance (g : Region) (bytes : List UInt8) : Decidable (g.InBounds bytes) :=
  inferInstanceAs (Decidable (_ ∧ _))

/-- Guest memory, the array and the observer are as before. -/
def Untouched (arr : BitVec 64) (s s' : JavaRuntime) : Prop :=
  s'.mem.engine.byte = s.mem.engine.byte ∧ s'.handles arr = s.handles arr ∧
    s'.notified = s.notified

/-- The guest buffer is mapped. -/
def Region.Mapped (g : Region) (s : JavaRuntime) : Prop :=
  s.mem.engine.Accessible g.buf.toNat g.len.toNat

instance (g : Region) (s : JavaRuntime) : Decidable (g.Mapped s) :=
  inferInstanceAs (Decidable (Engine.Accessible _ _ _))

/-- The elements of a range inside the array are copied to a mapped buffer, and nothing is touched
otherwise. -/
def GetCorrect (around : ℕ → UInt8) (s : JavaRuntime) (g : Region) (bytes : List UInt8) : Prop :=
  if g.InBounds bytes ∧ g.Mapped s then
    getByteArrayRegion around s = .ok () { s with mem := { s.mem with
      engine := s.mem.engine.setBytes g.buf.toNat
        ((bytes.drop g.start.toNat).take g.len.toNat) } }
  else Untouched g.arr s (final (getByteArrayRegion around s))

/-- The elements of a range inside the array are copied from a mapped buffer and the observer is
told, and nothing is touched otherwise. -/
def SetCorrect (s : JavaRuntime) (g : Region) (r : Record) : Prop :=
  if g.InBounds r.bytes ∧ g.Mapped s then
    let bytes := overwrite r.bytes g.start.toNat
      (Patches.slice s.mem.engine.byte g.buf.toNat g.len.toNat)
    setByteArrayRegion s = .ok () (notifyBytes bytes (ascii "SetByteArrayRegion")
      { s with handles := Function.update s.handles g.arr (some { r with bytes }) })
  else Untouched g.arr s (final (setByteArrayRegion s))

/-- Start and length have a sum that wraps to one inside the array, and the guest buffer is
mapped. -/
def Region.Wraps (g : Region) (s : JavaRuntime) (bytes : List UInt8) : Prop :=
  2 ^ 64 ≤ g.start.toNat + g.len.toNat ∧
    g.start.toNat + g.len.toNat - 2 ^ 64 ≤ bytes.length ∧ g.Mapped s

/-! ## The copies -/

variable {s : JavaRuntime} {g : Region} {r : Record} {bytes : List UInt8} {around : ℕ → UInt8}
  {start len : ℕ}

theorem length_hostBytes : (hostBytes around bytes start len).length = len := by simp [hostBytes]

/-- Inside the array, the host bytes are its elements. -/
theorem hostBytes_eq (h : start + len ≤ bytes.length) (hsize : bytes.length < 2 ^ 63) :
    hostBytes around bytes start len = (bytes.drop start).take len := by
  refine List.ext_getElem (by simp [hostBytes]; omega) fun i hi hi' => ?_
  rw [length_hostBytes] at hi
  have hword : (start + i) % 2 ^ 64 = start + i := Nat.mod_eq_of_lt (by omega)
  simp only [hostBytes, List.getElem_map, List.getElem_range, hword, List.getElem_take,
    List.getElem_drop]
  exact List.getD_eq_getElem _ _ (by omega)

/-- The last offset of all belongs to no array. -/
theorem getElem_hostBytes_last (around : ℕ → UInt8) (hstart : start < 2 ^ 64)
    (hwraps : 2 ^ 64 ≤ start + len) (hsize : bytes.length < 2 ^ 63) :
    (hostBytes around bytes start len)[2 ^ 64 - 1 - start]? = some (around (2 ^ 64 - 1)) := by
  have hword : (start + (2 ^ 64 - 1 - start)) % 2 ^ 64 = 2 ^ 64 - 1 := by omega
  rw [hostBytes, List.getElem?_map, List.getElem?_range (by omega), Option.map_some, hword,
    List.getD_eq_default _ _ (by omega)]

theorem hostWrite_eq {x : List UInt8} (h : start + x.length ≤ bytes.length)
    (hsize : bytes.length < 2 ^ 63) : hostWrite bytes start x = overwrite bytes start x := by
  refine List.ext_getElem? fun i => ?_
  rw [hostWrite, List.getElem?_mapIdx]
  by_cases hi : i < start ∨ start + x.length ≤ i
  · rw [getElem?_overwrite h hi]
    by_cases hlength : i < bytes.length
    · rw [List.getElem?_eq_getElem hlength, Option.map_some, List.getD_eq_default _ _ (by omega)]
    · rw [List.getElem?_eq_none (by omega), Option.map_none]
  · obtain ⟨j, rfl⟩ : ∃ j, i = start + j := ⟨i - start, by omega⟩
    have hj : j < x.length := by omega
    have hword : (start + j + (2 ^ 64 - start)) % 2 ^ 64 = j := by omega
    have hfront : (bytes.take start).length = start := by simp; omega
    rw [List.getElem?_eq_getElem (by omega), Option.map_some, hword, overwrite, List.append_assoc,
      List.getElem?_append_right (by omega), hfront, Nat.add_sub_cancel_left,
      List.getElem?_append_left hj, List.getElem?_eq_getElem hj, List.getD_eq_getElem _ _ hj]

/-! ## The functions -/

/-- The test lets a range pass that lies inside the array, or whose end wraps into it. -/
theorem passes_iff (hsize : bytes.length < 2 ^ 63) :
    g.Passes bytes ↔ g.InBounds bytes ∨
      2 ^ 64 ≤ g.start.toNat + g.len.toNat ∧
        g.start.toNat + g.len.toNat - 2 ^ 64 ≤ bytes.length := by
  have hstart := g.start.isLt
  have hlen := g.len.isLt
  have hzero : g.len ≠ 0 ↔ 0 < g.len.toNat := by
    rw [Nat.pos_iff_ne_zero, ne_eq, ne_eq, ← BitVec.toNat_inj]
    rfl
  rw [Region.Passes, Region.InBounds, BitVec.toNat_add, hzero]
  omega

section Calls

variable (hregion : region s.mem.engine = .ok g) (hr : s.byteRecord g.arr = some r)

include hregion hr

theorem getByteArrayRegion_eq : getByteArrayRegion around s =
    if g.Passes r.bytes then
      if g.Mapped s then .ok () { s with mem := { s.mem with
        engine := s.mem.engine.setBytes g.buf.toNat
          (hostBytes around r.bytes g.start.toNat g.len.toNat) } }
      else .error (.engine "uc_mem_write") s
    else .ok () s := by
  rw [getByteArrayRegion, get_bind]
  simp only [hregion, hr]
  by_cases hpasses : g.Passes r.bytes
  · rw [if_pos hpasses, if_pos hpasses]
    by_cases hmapped : g.Mapped s
    · have hwrite : s.mem.engine.write g.buf.toNat
          (hostBytes around r.bytes g.start.toNat g.len.toNat) = .ok _ :=
        Engine.write_eq (by rw [length_hostBytes]; exact hmapped)
      simp only [if_pos hmapped, onMem, Memory.onEngine, hwrite]
    · have hwrite : s.mem.engine.write g.buf.toNat
          (hostBytes around r.bytes g.start.toNat g.len.toNat) = .error (.engine "uc_mem_write") :=
        if_neg (by rw [length_hostBytes]; exact hmapped)
      simp only [if_neg hmapped, onMem, Memory.onEngine, hwrite]
  · rw [if_neg hpasses, if_neg hpasses]
    rfl

theorem setByteArrayRegion_eq : setByteArrayRegion s =
    if g.Passes r.bytes then
      if g.Mapped s then
        let bytes := hostWrite r.bytes g.start.toNat
          (Patches.slice s.mem.engine.byte g.buf.toNat g.len.toNat)
        .ok () (notifyBytes bytes (ascii "SetByteArrayRegion")
          { s with handles := Function.update s.handles g.arr (some { r with bytes }) })
      else .error (.engine "uc_mem_read") s
    else .ok () s := by
  rw [setByteArrayRegion, get_bind]
  simp only [hregion, hr]
  by_cases hpasses : g.Passes r.bytes
  · rw [if_pos hpasses, if_pos hpasses]
    by_cases hmapped : g.Mapped s
    · have hread : s.mem.engine.read g.buf.toNat g.len.toNat = _ := if_pos hmapped
      simp only [if_pos hmapped, hread]
      rfl
    · have hread : s.mem.engine.read g.buf.toNat g.len.toNat = _ := if_neg hmapped
      simp only [if_neg hmapped, hread]
      rfl
  · rw [if_neg hpasses, if_neg hpasses]
    rfl

/-- A read touches nothing unless the range passes and the buffer is mapped. -/
theorem final_getByteArrayRegion (h : ¬(g.Passes r.bytes ∧ g.Mapped s)) :
    final (getByteArrayRegion around s) = s := by
  rw [getByteArrayRegion_eq hregion hr]
  split
  · rw [if_neg fun hmapped => h ⟨‹_›, hmapped⟩]
    rfl
  · rfl

theorem final_setByteArrayRegion (h : ¬(g.Passes r.bytes ∧ g.Mapped s)) :
    final (setByteArrayRegion s) = s := by
  rw [setByteArrayRegion_eq hregion hr]
  split
  · rw [if_neg fun hmapped => h ⟨‹_›, hmapped⟩]
    rfl
  · rfl

end Calls

theorem untouched_refl (arr : BitVec 64) (s : JavaRuntime) : Untouched arr s s := ⟨rfl, rfl, rfl⟩

/-- The ranges that pass the test with a mapped buffer. -/
theorem passes_and_mapped_iff (hsize : r.bytes.length < 2 ^ 63) :
    (g.Passes r.bytes ∧ g.Mapped s) ↔ (g.InBounds r.bytes ∧ g.Mapped s) ∨ g.Wraps s r.bytes := by
  rw [passes_iff hsize, Region.Wraps, or_and_right, and_assoc]

theorem not_wraps_of_inBounds (hsize : r.bytes.length < 2 ^ 63) (h : g.InBounds r.bytes) :
    ¬g.Wraps s r.bytes := fun hwraps => by
  have := h.2
  have := hwraps.1
  omega

/-- A read with a range that wraps into the array writes a byte to the guest that is not of the
array. -/
theorem touched_of_wraps (hregion : region s.mem.engine = .ok g) (hr : s.byteRecord g.arr = some r)
    (hsize : r.bytes.length < 2 ^ 63) (h : g.Wraps s r.bytes) :
    ∃ around, ¬Untouched g.arr s (final (getByteArrayRegion around s)) := by
  obtain ⟨hpasses, hmapped⟩ := (passes_and_mapped_iff hsize).mpr (.inr h)
  set i := 2 ^ 64 - 1 - g.start.toNat with hi
  refine ⟨fun _ => s.mem.engine.byte (g.buf.toNat + i) + 1, fun huntouched => ?_⟩
  have hbyte := congrFun huntouched.1 (g.buf.toNat + i)
  rw [getByteArrayRegion_eq hregion hr, if_pos hpasses, if_pos hmapped] at hbyte
  simp only [final, Engine.byte_setBytes] at hbyte
  have hlast := getElem_hostBytes_last (fun _ => s.mem.engine.byte (g.buf.toNat + i) + 1)
    g.start.isLt h.1 hsize
  obtain ⟨hlt, hget⟩ := List.getElem?_eq_some_iff.mp hlast
  rw [Patches.put_of_lt _ _ hlt, hget] at hbyte
  simp at hbyte

/-- `GetByteArrayRegion` reads a range as it should, whatever stands around the array, just if
the range does not wrap into the array. -/
theorem getCorrect_iff (hregion : region s.mem.engine = .ok g) (hr : s.byteRecord g.arr = some r)
    (hsize : r.bytes.length < 2 ^ 63) :
    (∀ around, GetCorrect around s g r.bytes) ↔ ¬g.Wraps s r.bytes := by
  by_cases hin : g.InBounds r.bytes ∧ g.Mapped s
  · refine iff_of_true (fun around => ?_) (not_wraps_of_inBounds hsize hin.1)
    obtain ⟨hpasses, hmapped⟩ := (passes_and_mapped_iff hsize).mpr (.inl hin)
    rw [GetCorrect, if_pos hin, getByteArrayRegion_eq hregion hr, if_pos hpasses, if_pos hmapped,
      hostBytes_eq hin.1.2 hsize]
  · simp only [GetCorrect, if_neg hin]
    constructor
    · intro huntouched hwraps
      obtain ⟨around, htouched⟩ := touched_of_wraps hregion hr hsize hwraps
      exact htouched (huntouched around)
    · intro hwraps around
      rw [final_getByteArrayRegion hregion hr fun hpasses =>
        ((passes_and_mapped_iff hsize).mp hpasses).elim hin hwraps]
      exact untouched_refl _ _

theorem setCorrect_iff (hregion : region s.mem.engine = .ok g) (hr : s.byteRecord g.arr = some r)
    (hsize : r.bytes.length < 2 ^ 63) (hobserved : s.observed = true) :
    SetCorrect s g r ↔ ¬g.Wraps s r.bytes := by
  by_cases hin : g.InBounds r.bytes ∧ g.Mapped s
  · refine iff_of_true ?_ (not_wraps_of_inBounds hsize hin.1)
    obtain ⟨hpasses, hmapped⟩ := (passes_and_mapped_iff hsize).mpr (.inl hin)
    have hwrite := hostWrite_eq
      (x := Patches.slice s.mem.engine.byte g.buf.toNat g.len.toNat)
      (by rw [Patches.length_slice]; exact hin.1.2) hsize
    rw [SetCorrect, if_pos hin, setByteArrayRegion_eq hregion hr, if_pos hpasses, if_pos hmapped,
      hwrite]
  · rw [SetCorrect, if_neg hin]
    constructor
    · rintro ⟨-, -, hnotified⟩ hwraps
      obtain ⟨hpasses, hmapped⟩ := (passes_and_mapped_iff hsize).mpr (.inr hwraps)
      rw [setByteArrayRegion_eq hregion hr, if_pos hpasses, if_pos hmapped] at hnotified
      simp [final, notifyBytes, hobserved] at hnotified
    · intro hwraps
      rw [final_setByteArrayRegion hregion hr fun hpasses =>
        ((passes_and_mapped_iff hsize).mp hpasses).elim hin hwraps]
      exact untouched_refl _ _

/-- Both functions copy the elements of a range inside the array and touch nothing for any other
range, just if the range does not wrap into the array. -/
theorem regions_correct_iff (hregion : region s.mem.engine = .ok g)
    (hr : s.byteRecord g.arr = some r) (hsize : r.bytes.length < 2 ^ 63)
    (hobserved : s.observed = true) :
    ((∀ around, GetCorrect around s g r.bytes) ↔ ¬g.Wraps s r.bytes) ∧
      (SetCorrect s g r ↔ ¬g.Wraps s r.bytes) :=
  ⟨getCorrect_iff hregion hr hsize, setCorrect_iff hregion hr hsize hobserved⟩

/-- An array of four bytes, a mapped buffer at `0x5000`, and the arguments of a call. -/
def regionRuntime (start len : ℕ) : JavaRuntime where
  mem :=
    { Memory.init .arm64 false false with
      engine :=
        { Engine.fresh .arm64 with
          prot := fun page => if page = 5 then some ucProtRw else none
          reg := fun r =>
            if r = .arm64X 1 then 0x30000010
            else if r = .arm64X 2 then start
            else if r = .arm64X 3 then len
            else if r = .arm64X 4 then 0x5000
            else 0 } }
  handles := fun h =>
    if h = 0x30000010 then some { kind := .byteArray, bytes := [1, 2, 3, 4] } else none
  observed := true

/-- A range in the middle of the array. -/
theorem regions_correct_iff_middle :
    let s := regionRuntime 1 2
    let g : Region := ⟨0x30000010, 1, 2, 0x5000⟩
    let r : Record := { kind := .byteArray, bytes := [1, 2, 3, 4] }
    (region s.mem.engine = .ok g ∧ s.byteRecord g.arr = some r ∧ r.bytes.length < 2 ^ 63 ∧
        s.observed = true) ∧
      ((∀ around, GetCorrect around s g r.bytes) ↔ ¬g.Wraps s r.bytes) ∧
        (SetCorrect s g r ↔ ¬g.Wraps s r.bytes) := by
  intro s g r
  have hregion : region s.mem.engine = .ok g := rfl
  have hr : s.byteRecord g.arr = some r := rfl
  exact ⟨⟨hregion, hr, by decide, rfl⟩, regions_correct_iff hregion hr (by decide) rfl⟩

/-- Two bytes from offset `2 ^ 64 - 1` on: one byte before the array and its first element. -/
theorem region_before_array :
    let s := regionRuntime (2 ^ 64 - 1) 2
    let g : Region := ⟨0x30000010, -1, 2, 0x5000⟩
    let r : Record := { kind := .byteArray, bytes := [1, 2, 3, 4] }
    let read := final (getByteArrayRegion (fun _ => 0xff) s)
    let written := final (setByteArrayRegion s)
    (region s.mem.engine = .ok g ∧ ¬g.InBounds r.bytes) ∧
      ((read.mem.engine.byte 0x5000, read.mem.engine.byte 0x5001) = (0xff, 1) ∧
        ¬GetCorrect (fun _ => 0xff) s g r.bytes) ∧
      ((written.byteRecord g.arr).map Record.bytes = some [0, 2, 3, 4] ∧ ¬SetCorrect s g r) := by
  intro s g r read written
  have hout : ¬g.InBounds r.bytes := by decide
  refine ⟨⟨rfl, hout⟩, ⟨by decide +kernel, fun h => ?_⟩, by decide +kernel, fun h => ?_⟩
  · rw [GetCorrect, if_neg fun hin => hout hin.1] at h
    exact absurd (congrFun h.1 0x5000) (by decide +kernel)
  · rw [SetCorrect, if_neg fun hin => hout hin.1] at h
    exact absurd h.2.2 (by decide +kernel)

end JniBridge

end Vardoger
