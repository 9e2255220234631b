import Vardoger.Elf.Loader

/-!
# Reads and writes of the loader

What the loader's accesses to guest memory do in accessible ranges. Only the bytes change, so a
state after some writes is the state before them with another memory.
-/

namespace Vardoger.Elf

open Words Stateful LittleEndian Patches

variable {τ : Type}

namespace LoadState

/-- The bytes of guest memory. -/
def byte (s : LoadState τ) : ℕ → UInt8 := s.mem.engine.byte

/-- The state with other bytes in guest memory. -/
def withBytes (s : LoadState τ) (f : ℕ → UInt8) : LoadState τ :=
  { s with mem := { s.mem with engine := { s.mem.engine with byte := f } } }

/-- The host may access a range. -/
def Accessible (s : LoadState τ) (addr n : ℕ) : Prop := s.mem.engine.Accessible addr n

variable {s : LoadState τ} {f g : ℕ → UInt8} {addr n : ℕ}

@[simp]
theorem byte_withBytes : (s.withBytes f).byte = f := rfl

@[simp]
theorem withBytes_withBytes : (s.withBytes f).withBytes g = s.withBytes g := rfl

@[simp]
theorem withBytes_byte : s.withBytes s.byte = s := rfl

@[simp]
theorem accessible_withBytes : (s.withBytes f).Accessible addr n ↔ s.Accessible addr n := Iff.rfl

/-- A part of an accessible range is accessible. -/
theorem Accessible.part (h : s.Accessible addr n) {a m : ℕ} (hlow : addr ≤ a)
    (hhigh : a + m ≤ addr + n) : s.Accessible a m :=
  Engine.Accessible.within h hlow hhigh

end LoadState

/-- The word of `n` bytes at an address. -/
def wordOf (f : ℕ → UInt8) (n addr : ℕ) : ℕ := ofBytes (slice f addr n)

variable {s s' : LoadState τ} {addr n v : ℕ}

theorem readBytes_eq (h : s.Accessible addr n) :
    readBytes addr n s = .ok (slice s.byte addr n) s := by
  have hread : s.mem.engine.read addr n = .ok (slice s.byte addr n) := if_pos h
  simp only [readBytes, hread]

theorem readWord_eq (h : s.Accessible addr n) :
    readWord n addr s = .ok (wordOf s.byte n addr) s := by
  rw [readWord, bind_ok (readBytes_eq h)]
  rfl

theorem writeWord_eq (h : s.Accessible addr n) :
    writeWord n addr v s = .ok () (s.withBytes (put s.byte addr (toBytes n v))) := by
  have hlength : s.mem.engine.Accessible addr (toBytes n v).length := by rwa [length_toBytes]
  have hbytes := Engine.byte_setBytes s.mem.engine addr (toBytes n v)
  simp only [writeWord, onEngine, onMem, Memory.onEngine, Engine.write_eq hlength]
  rw [LoadState.withBytes, LoadState.byte, ← hbytes]
  rfl

/-! ## Placing an image -/

/-- The span of the segments of a file. -/
def spanOf (c : ElfClass) (loads : List Phdr) : ℕ := sub64 (maxVaddr c loads) (minVaddr loads)

/-- The image of a file whose span is mapped next. -/
def placedAt (c : ElfClass) (loads : List Phdr) (base : ℕ) : Placed :=
  ⟨base, pageAlignUp (spanOf c loads), sub64 base (minVaddr loads)⟩

/-- The state with fresh pages for an image. -/
def LoadState.mapped (s : LoadState τ) (name : String) (size : ℕ) : LoadState τ :=
  { s with mem := { s.mem.addRegion ⟨s.mem.libNext, size, ucProtAll, .lib, name⟩ with
    libNext := add64 (add64 s.mem.libNext size) kPageSize } }

theorem place_eq {c : ElfClass} {name : String} {loads : List Phdr}
    (h : s.mem.engine.Mappable s.mem.libNext (pageAlignUp (spanOf c loads))) :
    place c name loads s = .ok (placedAt c loads s.mem.libNext)
      (s.mapped name (pageAlignUp (spanOf c loads))) := by
  have hmap := Memory.mapRegion_apply
    ⟨s.mem.libNext, pageAlignUp (spanOf c loads), ucProtAll, .lib, name⟩ s.mem
  rw [if_pos (by exact h)] at hmap
  have hlib : Memory.mapLib (spanOf c loads) ucProtAll name s.mem =
      .ok s.mem.libNext (s.mapped name (pageAlignUp (spanOf c loads))).mem := by
    rw [Memory.mapLib, get_bind]
    exact bind_ok hmap
  have hrun : (onMem (Memory.mapLib (spanOf c loads) ucProtAll name) : LoadM τ ℕ) s =
      .ok s.mem.libNext (s.mapped name (pageAlignUp (spanOf c loads))) := by
    simp only [onMem, hlib]
    rfl
  exact bind_ok hrun

/-- There is place for an image exactly if the range behind the last library is free. -/
theorem place_error {c : ElfClass} {name : String} {loads : List Phdr}
    (h : ¬s.mem.engine.Mappable s.mem.libNext (pageAlignUp (spanOf c loads))) :
    place c name loads s = .error (.thrown (.engine "uc_mem_map")) s := by
  have hmap := Memory.mapRegion_apply
    ⟨s.mem.libNext, pageAlignUp (spanOf c loads), ucProtAll, .lib, name⟩ s.mem
  rw [if_neg (by exact h)] at hmap
  have hlib : Memory.mapLib (spanOf c loads) ucProtAll name s.mem =
      .error (.engine "uc_mem_map") s.mem := by
    rw [Memory.mapLib, get_bind]
    exact bind_error hmap
  have hrun : (onMem (Memory.mapLib (spanOf c loads) ucProtAll name) : LoadM τ ℕ) s =
      .error (.thrown (.engine "uc_mem_map")) s := by
    simp only [onMem, hlib]
  exact bind_error hrun

/-- The new image is accessible. -/
theorem accessible_mapped (name : String) {size : ℕ}
    (h : s.mem.engine.Mappable s.mem.libNext size) :
    (s.mapped name size).Accessible s.mem.libNext size :=
  h.accessible (Nat.le_refl _) ucProtAll

/-! ## Slots -/

/-- The bytes of a slot after the load bias was added. -/
def biased (bias : ℕ) (x : List UInt8) : List UInt8 := toBytes 8 (add64 (ofBytes x) bias)

theorem length_biased (bias : ℕ) (x : List UInt8) : (biased bias x).length = 8 := length_toBytes _ _

theorem biasSlot_eq {bias : ℕ} (h : s.Accessible addr 8) :
    biasSlot bias addr s = .ok () (s.withBytes (update (biased bias) 8 s.byte addr)) := by
  rw [biasSlot, bind_ok (readWord_eq h), writeWord_eq h]
  rfl

/-- Biasing slots one after the other. -/
theorem forM_biasSlot_eq {bias : ℕ} {slots : List ℕ} (h : ∀ a ∈ slots, s.Accessible a 8) :
    slots.forM (biasSlot bias) s = .ok () (s.withBytes (updated (biased bias) 8 s.byte slots)) := by
  induction slots generalizing s with
  | nil => rfl
  | cons a slots ih =>
    have hrest := ih (s := s.withBytes (update (biased bias) 8 s.byte a)) fun b hb =>
      h b (List.mem_cons_of_mem _ hb)
    rw [forM_cons_apply]
    exact (bind_ok (biasSlot_eq (h a List.mem_cons_self))).trans hrest

end Vardoger.Elf
