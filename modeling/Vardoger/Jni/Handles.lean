import Vardoger.Jni.Fields

/-!
# Fresh handles

Every handle is the address of a shadow object that the Java region's cursor has passed. A new
record therefore gets a handle that was not in use, and no operation of the runtime replaces the
record of a handle by one of another kind.
-/

namespace Vardoger

open Stateful Words

namespace Memory

/-- The cursor of the Java region lies in the region. -/
def JavaOk (m : Memory) : Prop :=
  m.javaNext ≠ 0 →
    m.javaEnd = kJavaBase + kJavaSize ∧ kJavaBase ≤ m.javaNext ∧ m.javaNext ≤ m.javaEnd

/-- The Java region. -/
def javaRegion : Region := ⟨kJavaBase, kJavaSize, ucProtRw, .java, "java"⟩

/-- The state after the region was mapped. -/
def openJava (m : Memory) : Memory :=
  { m.addRegion javaRegion with javaNext := kJavaBase, javaEnd := kJavaBase + kJavaSize }

/-- The first request maps the region if its range is free. -/
theorem javaInit_of_mappable {m : Memory} (hinit : m.javaNext = 0)
    (hok : m.engine.Mappable kJavaBase kJavaSize) : javaInit m = .ok () m.openJava := by
  have hmap := mapRegion_apply javaRegion m
  rw [if_pos (by exact hok)] at hmap
  rw [javaInit, get_bind, if_pos hinit]
  exact bind_ok hmap

/-- The region is mapped already, gets mapped, or cannot be mapped. -/
theorem javaInit_cases (m : Memory) :
    (m.javaNext ≠ 0 ∧ javaInit m = .ok () m) ∨
      (m.javaNext = 0 ∧ javaInit m = .ok () m.openJava) ∨
      ∃ err, javaInit m = .error err m := by
  by_cases hinit : m.javaNext = 0
  · by_cases hok : m.engine.Mappable kJavaBase kJavaSize
    · exact .inr (.inl ⟨hinit, javaInit_of_mappable hinit hok⟩)
    · have hmap := mapRegion_apply javaRegion m
      rw [if_neg (by exact hok)] at hmap
      rw [javaInit, get_bind, if_pos hinit]
      exact .inr (.inr ⟨_, bind_error hmap⟩)
  · rw [javaInit, get_bind, if_neg hinit]
    exact .inl ⟨hinit, rfl⟩

/-- With the region mapped, a block lies behind the cursor and the cursor moves behind the block;
without room nothing happens. -/
theorem javaAlloc_of_init {m m₁ : Memory} {len k : ℕ} (hinit : javaInit m = .ok () m₁)
    (hm₁ : JavaOk m₁) (hnext : m₁.javaNext ≠ 0) (hlen : len < 2 ^ 32) (hk : k ≤ 12) :
    (∃ err, javaAlloc len (2 ^ k) m = .error err m₁) ∨
      ∃ p, m₁.javaNext ≤ p ∧ p + len ≤ m₁.javaEnd ∧
        javaAlloc len (2 ^ k) m = .ok p { m₁ with javaNext := p + len } := by
  obtain ⟨hend, -, hhigh⟩ := hm₁ hnext
  have htop : kJavaBase + kJavaSize = 0x34000000 := by decide
  have halign : 2 ^ k ≤ 2 ^ 12 := Nat.pow_le_pow_right (by decide) hk
  have hround : roundUp m₁.javaNext (2 ^ k) ≤ m₁.javaNext + (2 ^ k - 1) := Nat.div_mul_le_self _ _
  have hle := le_roundUp m₁.javaNext (Nat.two_pow_pos k)
  unfold javaAlloc
  rw [bind_ok hinit, get_bind, maskUp_eq_roundUp (by omega) (by omega), add64_of_lt (by omega)]
  by_cases hfull : roundUp m₁.javaNext (2 ^ k) + len > m₁.javaEnd
  · left
    simp only [if_pos hfull]
    exact ⟨_, rfl⟩
  · right
    simp only [if_neg hfull]
    exact ⟨_, hle, not_lt.mp hfull, rfl⟩

/-- A block of the Java region lies between the old and the new cursor. -/
theorem javaAlloc_spec {m : Memory} {len k : ℕ} (hm : JavaOk m) (hlen : len < 2 ^ 32)
    (hk : k ≤ 12) :
    (∃ err m', javaAlloc len (2 ^ k) m = .error err m' ∧ JavaOk m' ∧ m.javaNext ≤ m'.javaNext) ∨
      ∃ p m', javaAlloc len (2 ^ k) m = .ok p m' ∧ JavaOk m' ∧ kJavaBase ≤ p ∧ m.javaNext ≤ p ∧
        p + len = m'.javaNext ∧ m'.javaNext < 2 ^ 64 := by
  have htop : kJavaBase + kJavaSize < 2 ^ 64 := by decide
  have hfrom : ∀ m₁, javaInit m = .ok () m₁ → JavaOk m₁ → m₁.javaNext ≠ 0 →
      m.javaNext ≤ m₁.javaNext →
      (∃ err m', javaAlloc len (2 ^ k) m = .error err m' ∧ JavaOk m' ∧ m.javaNext ≤ m'.javaNext) ∨
        ∃ p m', javaAlloc len (2 ^ k) m = .ok p m' ∧ JavaOk m' ∧ kJavaBase ≤ p ∧
          m.javaNext ≤ p ∧ p + len = m'.javaNext ∧ m'.javaNext < 2 ^ 64 := by
    intro m₁ hinit hm₁ hnext hle
    obtain ⟨hend, hlow, -⟩ := hm₁ hnext
    rcases javaAlloc_of_init hinit hm₁ hnext hlen hk with ⟨err, herr⟩ | ⟨p, hp, hroom, hok⟩
    · exact .inl ⟨err, m₁, herr, hm₁, hle⟩
    · refine .inr ⟨p, _, hok, fun _ => ⟨hend, ?_, hroom⟩, hlow.trans hp, hle.trans hp, rfl, ?_⟩
      · change kJavaBase ≤ p + len
        omega
      · change p + len < 2 ^ 64
        omega
  rcases javaInit_cases m with ⟨hnext, hinit⟩ | ⟨hnext, hinit⟩ | ⟨err, hinit⟩
  · exact hfrom m hinit hm hnext (le_refl _)
  · have hopen : m.openJava.JavaOk := fun _ => ⟨rfl, le_refl _, Nat.le_add_right _ _⟩
    refine hfrom m.openJava hinit hopen (by decide : kJavaBase ≠ 0) ?_
    rw [hnext]
    exact Nat.zero_le _
  · exact .inl ⟨err, m, bind_error hinit, hm, le_refl _⟩

end Memory

namespace JavaRuntime

variable {s s' : JavaRuntime} {h : BitVec 64}

/-- The handles in use are addresses below the cursor of the Java region. -/
structure Fresh (s : JavaRuntime) : Prop where
  region : s.mem.JavaOk
  below : ∀ h, (s.handles h).isSome → h.toNat < s.mem.javaNext

/-- Two records describe the same array. -/
def SameArray (r r' : Record) : Prop := r'.kind = r.kind ∧ r'.bytes = r.bytes ∧ r'.elems = r.elems

/-- A step that keeps handles fresh and arrays as they are. -/
def Extends (s s' : JavaRuntime) : Prop :=
  Fresh s → Fresh s' ∧ ∀ h r, s.handles h = some r → ∃ r', s'.handles h = some r' ∧ SameArray r r'

instance : Std.Refl Extends :=
  ⟨fun _ hs => ⟨hs, fun _ r hr => ⟨r, hr, rfl, rfl, rfl⟩⟩⟩

instance : IsTrans JavaRuntime Extends := by
  refine ⟨fun s₁ s₂ s₃ h h' hs => ?_⟩
  obtain ⟨hs₂, hkeep⟩ := h hs
  obtain ⟨hs₃, hkeep'⟩ := h' hs₂
  refine ⟨hs₃, fun a r hr => ?_⟩
  obtain ⟨r₂, hr₂, hkind, hbytes, helems⟩ := hkeep a r hr
  obtain ⟨r₃, hr₃, hkind', hbytes', helems'⟩ := hkeep' a r₂ hr₂
  exact ⟨r₃, hr₃, hkind'.trans hkind, hbytes'.trans hbytes, helems'.trans helems⟩

/-- Steps that leave the records and the cursor alone. -/
theorem extends_of_eq (hhandles : s'.handles = s.handles)
    (hnext : s'.mem.javaNext = s.mem.javaNext) (hend : s'.mem.javaEnd = s.mem.javaEnd) :
    Extends s s' := by
  intro hs
  refine ⟨⟨?_, ?_⟩, fun a r hr => ⟨r, by rw [hhandles, hr], rfl, rfl, rfl⟩⟩
  · have hregion := hs.region
    unfold Memory.JavaOk at *
    rwa [hnext, hend]
  · rw [hhandles, hnext]
    exact hs.below

theorem write32_moves (addr v : ℕ) : Moves Extends (write32 addr v) := by
  intro s
  simp only [write32, onMem, Memory.onEngine]
  cases s.mem.engine.write addr (LittleEndian.toBytes 4 v) with
  | ok e => exact extends_of_eq rfl rfl rfl
  | error err => exact extends_of_eq rfl rfl rfl

theorem onMem_ok {α : Type} {x : MemM α} {a : α} {m : Memory} (hx : x s.mem = .ok a m) :
    onMem x s = .ok a { s with mem := m } := by
  simp only [onMem, hx]

theorem onMem_error {α : Type} {x : MemM α} {err : Failure} {m : Memory}
    (hx : x s.mem = .error err m) : onMem x s = .error err { s with mem := m } := by
  simp only [onMem, hx]

/-- Taking memory of the Java region moves its cursor on. -/
theorem onMem_javaAlloc (len : ℕ) {k : ℕ} (hs : Fresh s) (hlen : len < 2 ^ 32) (hk : k ≤ 12) :
    (∃ err m, onMem (Memory.javaAlloc len (2 ^ k)) s = .error err { s with mem := m } ∧
        Fresh { s with mem := m }) ∨
      ∃ p m, onMem (Memory.javaAlloc len (2 ^ k)) s = .ok p { s with mem := m } ∧
        Fresh { s with mem := m } ∧ s.mem.javaNext ≤ p ∧ p + len = m.javaNext ∧
        m.javaNext < 2 ^ 64 := by
  rcases Memory.javaAlloc_spec hs.region hlen hk with
    ⟨err, m, hrun, hm, hle⟩ | ⟨p, m, hrun, hm, -, hp, hnext, hlt⟩
  · exact .inl ⟨err, m, onMem_error hrun, hm, fun h hh => lt_of_lt_of_le (hs.below h hh) hle⟩
  · refine .inr ⟨p, m, onMem_ok hrun, ⟨hm, fun h hh => ?_⟩, hp, hnext, hlt⟩
    have hbelow := hs.below h hh
    change h.toNat < m.javaNext
    omega

/-- A new record gets a handle that was not in use. -/
theorem alloc_spec (hs : Fresh s) (r : Record) :
    (∃ err s', alloc r s = .error err s' ∧ Fresh s' ∧ s'.handles = s.handles) ∨
      ∃ h s', alloc r s = .ok h s' ∧ Fresh s' ∧ s.handles h = none ∧
        s'.handles = Function.update s.handles h (some r) := by
  rcases onMem_javaAlloc kShadowSize hs (k := 4) (by decide) (by decide) with
    ⟨err, m, hrun, hfresh⟩ | ⟨p, m, hrun, hfresh, hp, hnext, hlt⟩
  · exact .inl ⟨err, _, bind_error hrun, hfresh, rfl⟩
  · have hsize : kShadowSize = 0x80 := rfl
    have hvalue : (BitVec.ofNat 64 p).toNat = p := by
      rw [BitVec.toNat_ofNat]
      omega
    have hnone : s.handles (BitVec.ofNat 64 p) = none := by
      rw [← Option.not_isSome_iff_eq_none]
      intro hsome
      have := hs.below _ hsome
      omega
    have hplaced : emplace (BitVec.ofNat 64 p) r { s with mem := m } =
        { s with mem := m, handles := Function.update s.handles (BitVec.ofNat 64 p) (some r) } := by
      rw [emplace, if_neg]
      simp [hnone]
    have halloc : alloc r s = .ok (BitVec.ofNat 64 p)
        { s with mem := m, handles := Function.update s.handles (BitVec.ofNat 64 p) (some r) } := by
      rw [← hplaced]
      exact bind_ok hrun
    refine .inr ⟨_, _, halloc, ⟨hfresh.region, fun h hh => ?_⟩, hnone, rfl⟩
    by_cases heq : h = BitVec.ofNat 64 p
    · change h.toNat < m.javaNext
      rw [heq]
      omega
    · refine hfresh.below h ?_
      dsimp only at hh
      rwa [Function.update_of_ne heq] at hh

theorem alloc_moves (r : Record) : Moves Extends (alloc r) := by
  intro s hs
  rcases alloc_spec hs r with
    ⟨err, s', halloc, hfresh, hhandles⟩ | ⟨h, s', halloc, hfresh, hnone, hhandles⟩
  · rw [halloc]
    refine ⟨hfresh, fun a r' hr' => ⟨r', ?_, rfl, rfl, rfl⟩⟩
    rw [final, hhandles, hr']
  · rw [halloc]
    refine ⟨hfresh, fun a r' hr' => ⟨r', ?_, rfl, rfl, rfl⟩⟩
    have hne : a ≠ h := fun heq => by
      rw [heq, hnone] at hr'
      cases hr'
    rw [final, hhandles, Function.update_of_ne hne, hr']

theorem findClass_moves (name : List UInt8) : Moves Extends (findClass name) := by
  refine moves_bind moves_get fun s => ?_
  split
  · exact moves_pure _
  · refine moves_bind (alloc_moves _) fun h => ?_
    refine moves_bind (moves_modify fun _ => extends_of_eq rfl rfl rfl) fun _ => ?_
    exact moves_bind (write32_moves _ _) fun _ => moves_pure _

theorem newObject_moves (cls : List UInt8) : Moves Extends (newObject cls) :=
  moves_bind (alloc_moves _) fun _ => moves_bind (findClass_moves _) fun _ =>
    moves_bind (write32_moves _ _) fun _ => moves_pure _

theorem memberId_moves (kind : RecordKind) (letter : String) (clazz : BitVec 64)
    (name sig : List UInt8) (isStatic : Bool) :
    Moves Extends (memberId kind letter clazz name sig isStatic) := by
  refine moves_bind moves_get fun s => ?_
  dsimp only
  split
  · exact moves_pure _
  · refine moves_bind (alloc_moves _) fun h => ?_
    exact moves_bind (moves_modify fun _ => extends_of_eq rfl rfl rfl) fun _ => moves_pure _

/-- The state in which a handle has a new record. -/
def putRecord (s : JavaRuntime) (h : BitVec 64) (r : Record) : JavaRuntime :=
  { s with handles := Function.update s.handles h (some r) }

theorem handles_putRecord (s : JavaRuntime) (h a : BitVec 64) (r : Record) :
    (s.putRecord h r).handles a = if a = h then some r else s.handles a :=
  Function.update_apply _ _ _ _

/-- Changing the record of a handle in use keeps handles fresh. -/
theorem Fresh.putRecord (hs : Fresh s) (hh : (s.handles h).isSome) (r : Record) :
    Fresh (s.putRecord h r) := by
  refine ⟨hs.region, fun a ha => hs.below a ?_⟩
  rw [handles_putRecord] at ha
  split at ha
  · rwa [‹a = h›]
  · exact ha

/-- A field write changes neither the kind nor the elements of a record. -/
theorem extends_setField (obj : BitVec 64) (name : List UInt8) (v : DvmValue) (s : JavaRuntime) :
    Extends s (s.setField obj name v) := by
  cases hobj : s.handles obj with
  | none =>
    rw [setField_none hobj]
    exact refl_of Extends s
  | some r =>
    rw [setField_some hobj]
    intro hs
    refine ⟨hs.putRecord (by simp [hobj]) _, fun h r' hr' => ?_⟩
    by_cases heq : h = obj
    · obtain rfl := Option.some.inj (hobj.symm.trans (heq ▸ hr'))
      exact ⟨_, (handles_putRecord s obj h _).trans (if_pos heq), rfl, rfl, rfl⟩
    · exact ⟨r', ((handles_putRecord s obj h _).trans (if_neg heq)).trans hr', rfl, rfl, rfl⟩

/-- A new array is the record it was made from, under a handle that was not in use. -/
theorem newArray_spec (hs : Fresh s) {r : Record} {cls : List UInt8} {n : ℕ}
    (hrun : newArray r cls n s = .ok h s') :
    s.handles h = none ∧ ∃ r', s'.handles h = some r' ∧ SameArray r r' := by
  obtain ⟨h₁, s₁, halloc, hrest⟩ := of_bind_ok hrun
  have hmoves : Moves Extends (do
      let c ← findClass cls
      write32 (h₁.toNat + kClassOff) c.toNat
      write32 (h₁.toNat + kLengthOff) n
      return h₁ : JavaM (BitVec 64)) :=
    moves_bind (findClass_moves _) fun _ => moves_bind (write32_moves _ _) fun _ =>
      moves_bind (write32_moves _ _) fun _ => moves_pure _
  have hextends := hmoves s₁
  rw [hrest] at hextends
  obtain ⟨c, s₂, -, hrest⟩ := of_bind_ok hrest
  obtain ⟨-, s₃, -, hrest⟩ := of_bind_ok hrest
  obtain ⟨-, s₄, -, hrest⟩ := of_bind_ok hrest
  obtain ⟨rfl, rfl⟩ := EStateM.Result.ok.inj hrest
  rcases alloc_spec hs r with ⟨err, s₅, herror, -⟩ | ⟨h₅, s₅, hok, hfresh, hnone, hhandles⟩
  · cases halloc.symm.trans herror
  · obtain ⟨rfl, rfl⟩ := EStateM.Result.ok.inj (halloc.symm.trans hok)
    refine ⟨hnone, (hextends hfresh).2 h₁ r ?_⟩
    rw [hhandles, Function.update_self]

theorem newArray_moves (r : Record) (cls : List UInt8) (n : ℕ) :
    Moves Extends (newArray r cls n) :=
  moves_bind (alloc_moves _) fun _ => moves_bind (findClass_moves _) fun _ =>
    moves_bind (write32_moves _ _) fun _ => moves_bind (write32_moves _ _) fun _ => moves_pure _

end JavaRuntime

/-! ## The first handle -/

open JavaRuntime

/-- The memory in which the first shadow object was taken. -/
def afterFirst : Memory :=
  { (Memory.init .arm64 false false).openJava with javaNext := kJavaBase + kShadowSize }

/-- The handle of the first record. -/
def firstHandle : BitVec 64 := BitVec.ofNat 64 kJavaBase

/-- The first record of a fresh runtime has the address of the Java region as its handle. -/
theorem alloc_init (r : Record) : alloc r { mem := Memory.init .arm64 false false } =
    .ok firstHandle (emplace firstHandle r { mem := afterFirst }) := by
  have hok : (Memory.init .arm64 false false).engine.Mappable kJavaBase kJavaSize := by
    refine Engine.mappable_of_not_mapped (by decide) (by decide) (by decide) (by decide) ?_
    simp [Memory.init, Engine.fresh, Engine.Mapped]
  have hjava : Memory.javaAlloc kShadowSize 16 (Memory.init .arm64 false false) =
      .ok kJavaBase afterFirst := by
    have hstart : maskUp (Memory.init .arm64 false false).openJava.javaNext 16 = kJavaBase := by
      decide
    have hstop : add64 kJavaBase kShadowSize = kJavaBase + kShadowSize := by decide
    have hroom : ¬kJavaBase + kShadowSize > (Memory.init .arm64 false false).openJava.javaEnd := by
      decide
    rw [Memory.javaAlloc, bind_ok (Memory.javaInit_of_mappable rfl hok), get_bind]
    simp only [hstart, hstop, if_neg hroom]
    rfl
  exact bind_ok (onMem_ok hjava)

end Vardoger
