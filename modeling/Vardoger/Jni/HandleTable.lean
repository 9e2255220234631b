import Vardoger.Engine.Allocation
import Vardoger.Engine.Strings
import Vardoger.Jni.Handles

/-!
# The handle table

The runtime hands out handles for classes, members, objects, strings and arrays, and keeps a record
for each. The shadow objects behind the handles lie apart from each other in the Java region. An
operation may add records and names, but what a handle stands for stays as it is.
-/

namespace Vardoger.JavaRuntime

open Stateful Bytes

variable {s s' s₁ : JavaRuntime} {h : BitVec 64} {r : Record} {name : List UInt8}

/-- The state behind a write. -/
def setBytes (s : JavaRuntime) (addr : ℕ) (x : List UInt8) : JavaRuntime :=
  { s with mem := s.mem.setBytes addr x }

/-- The same handle at two times: fields, the contents of an array and the native function may
differ. -/
structure SameRecord (r r' : Record) : Prop where
  kind : r'.kind = r.kind
  name : r'.name = r.name
  sig : r'.sig = r.sig
  owner : r'.owner = r.owner
  isStatic : r'.isStatic = r.isStatic
  utf8 : r'.utf8 = r.utf8
  bytes : r'.bytes.length = r.bytes.length
  elems : r'.elems.length = r.elems.length

theorem SameRecord.refl (r : Record) : SameRecord r r := ⟨rfl, rfl, rfl, rfl, rfl, rfl, rfl, rfl⟩

theorem SameRecord.trans {r r' r'' : Record} (h : SameRecord r r') (h' : SameRecord r' r'') :
    SameRecord r r'' :=
  ⟨h'.kind.trans h.kind, h'.name.trans h.name, h'.sig.trans h.sig, h'.owner.trans h.owner,
    h'.isStatic.trans h.isStatic, h'.utf8.trans h.utf8, h'.bytes.trans h.bytes,
    h'.elems.trans h.elems⟩

/-- The shadow objects lie apart in the part of the Java region that was handed out, and the names
of classes and the keys of members lead to their records. -/
structure Table (s : JavaRuntime) : Prop where
  region : s.mem.JavaOk
  within : ∀ h, (s.handles h).isSome →
    kJavaBase ≤ h.toNat ∧ h.toNat + kShadowSize ≤ s.mem.javaNext
  apart : ∀ h h', (s.handles h).isSome → (s.handles h').isSome → h ≠ h' →
    h.toNat + kShadowSize ≤ h'.toNat ∨ h'.toNat + kShadowSize ≤ h.toNat
  classes : ∀ n h, s.classByName n = some h →
    ∃ r, s.handles h = some r ∧ r.kind = .clazz ∧ r.name = n
  members : ∀ key h, s.memberCache key = some h →
    ∃ r, s.handles h = some r ∧ (r.kind = .method ∨ r.kind = .field)

/-- Records, classes and members are added, and those that exist stay. -/
structure Later (s s' : JavaRuntime) : Prop where
  records : ∀ h r, s.handles h = some r → ∃ r', s'.handles h = some r' ∧ SameRecord r r'
  classes : ∀ n h, s.classByName n = some h → s'.classByName n = some h
  members : ∀ key h, s.memberCache key = some h → s'.memberCache key = some h

/-- A step that keeps the table. -/
def Grows (s s' : JavaRuntime) : Prop := Table s → Table s' ∧ Later s s'

theorem Later.refl (s : JavaRuntime) : Later s s :=
  ⟨fun _ r hr => ⟨r, hr, .refl r⟩, fun _ _ hc => hc, fun _ _ hk => hk⟩

theorem Later.trans (h : Later s s₁) (h' : Later s₁ s') : Later s s' where
  records a r hr := by
    obtain ⟨r₁, hr₁, hsame₁⟩ := h.records a r hr
    obtain ⟨r₂, hr₂, hsame₂⟩ := h'.records a r₁ hr₁
    exact ⟨r₂, hr₂, hsame₁.trans hsame₂⟩
  classes n c hc := h'.classes n c (h.classes n c hc)
  members key a ha := h'.members key a (h.members key a ha)

instance : Std.Refl Grows := ⟨fun s hs => ⟨hs, .refl s⟩⟩

instance : IsTrans JavaRuntime Grows := by
  constructor
  intro s₁ s₂ s₃ h h' hs
  obtain ⟨hs₂, hlater⟩ := h hs
  obtain ⟨hs₃, hlater'⟩ := h' hs₂
  exact ⟨hs₃, hlater.trans hlater'⟩

/-- A step that leaves the tables and the cursor alone. -/
theorem grows_of_eq (hhandles : s'.handles = s.handles) (hclasses : s'.classByName = s.classByName)
    (hmembers : s'.memberCache = s.memberCache) (hnext : s'.mem.javaNext = s.mem.javaNext)
    (hend : s'.mem.javaEnd = s.mem.javaEnd) : Grows s s' := by
  intro hs
  constructor
  · constructor
    · have hregion := hs.region
      unfold Memory.JavaOk at *
      rwa [hnext, hend]
    · rw [hhandles, hnext]
      exact hs.within
    · rw [hhandles]
      exact hs.apart
    · rw [hhandles, hclasses]
      exact hs.classes
    · rw [hhandles, hmembers]
      exact hs.members
  · constructor
    · rw [hhandles]
      exact fun _ r hr => ⟨r, hr, .refl r⟩
    · rw [hclasses]
      exact fun _ _ hc => hc
    · rw [hmembers]
      exact fun _ _ hk => hk

/-- Changing a record into one of the same handle. -/
theorem grows_putRecord {r' : Record} (hr : s.handles h = some r) (hsame : SameRecord r r') :
    Grows s (s.putRecord h r') := by
  intro hs
  have hisSome (a : BitVec 64) : ((s.putRecord h r').handles a).isSome ↔ (s.handles a).isSome := by
    rw [handles_putRecord]
    split
    · simp [‹a = h›, hr]
    · exact Iff.rfl
  have hrecords (a : BitVec 64) (q : Record) (hq : s.handles a = some q) :
      ∃ q', (s.putRecord h r').handles a = some q' ∧ SameRecord q q' := by
    rw [handles_putRecord]
    by_cases ha : a = h
    · obtain rfl := Option.some.inj (hr.symm.trans (ha ▸ hq))
      exact ⟨r', if_pos ha, hsame⟩
    · exact ⟨q, (if_neg ha).trans hq, .refl q⟩
  constructor
  · constructor
    · exact hs.region
    · exact fun a ha => hs.within a ((hisSome a).mp ha)
    · exact fun a b ha hb => hs.apart a b ((hisSome a).mp ha) ((hisSome b).mp hb)
    · intro n c hc
      obtain ⟨q, hq, hkind, hname⟩ := hs.classes n c hc
      obtain ⟨q', hq', hsame'⟩ := hrecords c q hq
      exact ⟨q', hq', hsame'.kind.trans hkind, hsame'.name.trans hname⟩
    · intro key a ha
      obtain ⟨q, hq, hkind⟩ := hs.members key a ha
      obtain ⟨q', hq', hsame'⟩ := hrecords a q hq
      exact ⟨q', hq', by rwa [hsame'.kind]⟩
  · exact ⟨hrecords, fun _ _ hc => hc, fun _ _ hk => hk⟩

/-! ## New records -/

/-- A record under a handle behind the cursor. -/
theorem Table.putRecord {m : Memory} (hs : Table s) (hm : m.JavaOk) (hbase : kJavaBase ≤ h.toNat)
    (hnext : s.mem.javaNext ≤ h.toNat) (hstop : h.toNat + kShadowSize = m.javaNext) (r : Record) :
    s.handles h = none ∧ Table (({ s with mem := m } : JavaRuntime).putRecord h r) ∧
      Later s (({ s with mem := m } : JavaRuntime).putRecord h r) := by
  have hsize : kShadowSize = 0x80 := rfl
  have hnone : s.handles h = none := by
    rw [← Option.not_isSome_iff_eq_none]
    intro hsome
    have hwithin := hs.within h hsome
    omega
  have hne {a : BitVec 64} (ha : (s.handles a).isSome) : a ≠ h := by
    rintro rfl
    rw [hnone] at ha
    cases ha
  have hrecords (a : BitVec 64) (q : Record) (hq : s.handles a = some q) :
      (({ s with mem := m } : JavaRuntime).putRecord h r).handles a = some q := by
    rw [handles_putRecord, if_neg (hne (by simp [hq])), hq]
  refine ⟨hnone, ⟨hm, ?_, ?_, ?_, ?_⟩, ⟨?_, fun _ _ hc => hc, fun _ _ hk => hk⟩⟩
  · intro a ha
    change kJavaBase ≤ a.toNat ∧ a.toNat + kShadowSize ≤ m.javaNext
    rw [handles_putRecord] at ha
    split at ha
    · rw [‹a = h›]
      omega
    · have hwithin := hs.within a ha
      omega
  · intro a b ha hb hab
    rw [handles_putRecord] at ha hb
    split at ha
    · split at hb
      · exact absurd (‹a = h›.trans ‹b = h›.symm) hab
      · have hwithin := hs.within b hb
        rw [‹a = h›]
        omega
    · split at hb
      · have hwithin := hs.within a ha
        rw [‹b = h›]
        omega
      · exact hs.apart a b ha hb hab
  · intro n c hc
    obtain ⟨q, hq, hkind, hname⟩ := hs.classes n c hc
    exact ⟨q, hrecords c q hq, hkind, hname⟩
  · intro key a ha
    obtain ⟨q, hq, hkind⟩ := hs.members key a ha
    exact ⟨q, hrecords a q hq, hkind⟩
  · exact fun a q hq => ⟨q, hrecords a q hq, .refl q⟩

/-- Memory of the Java region for something else. -/
theorem javaAlloc_grows {len k : ℕ} (hlen : len < 2 ^ 32) (hk : k ≤ 12) :
    Moves Grows (onMem (Memory.javaAlloc len (2 ^ k))) := by
  intro s hs
  have hmove {m : Memory} (hm : m.JavaOk) (hle : s.mem.javaNext ≤ m.javaNext) :
      Table { s with mem := m } ∧ Later s { s with mem := m } := by
    refine ⟨⟨hm, fun a ha => ?_, hs.apart, hs.classes, hs.members⟩,
      ⟨fun _ q hq => ⟨q, hq, .refl q⟩, fun _ _ hc => hc, fun _ _ hk => hk⟩⟩
    have hwithin := hs.within a ha
    exact ⟨hwithin.1, hwithin.2.trans hle⟩
  rcases Memory.javaAlloc_spec hs.region hlen hk with
    ⟨err, m, hrun, hm, hle⟩ | ⟨p, m, hrun, hm, -, hp, hnext, -⟩
  · rw [onMem_error hrun]
    exact hmove hm hle
  · rw [onMem_ok hrun]
    exact hmove hm (by omega)

/-- A new record gets a new handle, or there is no room. -/
theorem alloc_table (hs : Table s) (r : Record) :
    (∃ err m, alloc r s = .error err { s with mem := m } ∧ Table { s with mem := m } ∧
        Later s { s with mem := m }) ∨
      ∃ h m, alloc r s = .ok h (({ s with mem := m } : JavaRuntime).putRecord h r) ∧
        s.handles h = none ∧ Table (({ s with mem := m } : JavaRuntime).putRecord h r) ∧
        Later s (({ s with mem := m } : JavaRuntime).putRecord h r) := by
  have hsize : kShadowSize = 0x80 := rfl
  have hsmall : kShadowSize < 2 ^ 32 := by decide
  rcases Memory.javaAlloc_spec (k := 4) hs.region hsmall (by decide) with
    ⟨err, m, hrun, -⟩ | ⟨p, m, hrun, hm, hbase, hp, hnext, hlt⟩
  · have hgrows := javaAlloc_grows (k := 4) (by decide : kShadowSize < 2 ^ 32) (by decide) s hs
    rw [onMem_error hrun] at hgrows
    exact .inl ⟨err, m, bind_error (onMem_error hrun), hgrows⟩
  · have hvalue : (BitVec.ofNat 64 p).toNat = p := by
      rw [BitVec.toNat_ofNat]
      omega
    obtain ⟨hnone, htable, hlater⟩ := hs.putRecord (h := BitVec.ofNat 64 p) hm (by rwa [hvalue])
      (by rwa [hvalue]) (by rwa [hvalue]) r
    have hplaced : emplace (BitVec.ofNat 64 p) r { s with mem := m } =
        ({ s with mem := m } : JavaRuntime).putRecord (BitVec.ofNat 64 p) r := by
      rw [emplace, if_neg]
      · rfl
      · simp [hnone]
    refine .inr ⟨BitVec.ofNat 64 p, m, ?_, hnone, htable, hlater⟩
    rw [← hplaced]
    exact bind_ok (onMem_ok hrun)

/-! ## Classes and members -/

/-- A name for a class record. -/
theorem Table.putClass (hs : Table s) (hnew : s.classByName name = none)
    (hr : s.handles h = some r) (hkind : r.kind = .clazz) (hname : r.name = name) :
    Table { s with classByName := Function.update s.classByName name (some h) } ∧
      Later s { s with classByName := Function.update s.classByName name (some h) } := by
  refine ⟨⟨hs.region, hs.within, hs.apart, fun n c hc => ?_, hs.members⟩,
    ⟨fun _ q hq => ⟨q, hq, .refl q⟩, fun n c hc => ?_, fun _ _ hk => hk⟩⟩
  · dsimp only at hc
    by_cases hn : n = name
    · subst hn
      rw [Function.update_self] at hc
      obtain rfl := Option.some.inj hc
      exact ⟨r, hr, hkind, hname⟩
    · rw [Function.update_of_ne hn] at hc
      exact hs.classes n c hc
  · have hn : n ≠ name := by
      rintro rfl
      rw [hnew] at hc
      cases hc
    exact (Function.update_of_ne hn _ _).trans hc

/-- A key for a member record. -/
theorem Table.putMember {key : List UInt8} (hs : Table s) (hnew : s.memberCache key = none)
    (hr : s.handles h = some r) (hkind : r.kind = .method ∨ r.kind = .field) :
    Table { s with memberCache := Function.update s.memberCache key (some h) } ∧
      Later s { s with memberCache := Function.update s.memberCache key (some h) } := by
  refine ⟨⟨hs.region, hs.within, hs.apart, hs.classes, fun k a ha => ?_⟩,
    ⟨fun _ q hq => ⟨q, hq, .refl q⟩, fun _ _ hc => hc, fun k a ha => ?_⟩⟩
  · dsimp only at ha
    by_cases hk : k = key
    · subst hk
      rw [Function.update_self] at ha
      obtain rfl := Option.some.inj ha
      exact ⟨r, hr, hkind⟩
    · rw [Function.update_of_ne hk] at ha
      exact hs.members k a ha
  · have hk : k ≠ key := by
      rintro rfl
      rw [hnew] at ha
      cases ha
    exact (Function.update_of_ne hk _ _).trans ha

/-- A write of the host goes through or throws. -/
theorem write32_cases (addr v : ℕ) (s : JavaRuntime) :
    (s.mem.engine.Accessible addr 4 ∧
        write32 addr v s = .ok () (s.setBytes addr (LittleEndian.toBytes 4 v))) ∨
      ∃ err, write32 addr v s = .error err s := by
  by_cases haccess : s.mem.engine.Accessible addr 4
  · have hlength : s.mem.engine.Accessible addr (LittleEndian.toBytes 4 v).length := by
      rwa [LittleEndian.length_toBytes]
    refine .inl ⟨haccess, ?_⟩
    simp only [write32, onMem, Memory.onEngine, Engine.write_eq hlength]
    rfl
  · refine .inr ⟨.engine "uc_mem_write", ?_⟩
    simp only [write32, onMem, Memory.onEngine, Engine.write, LittleEndian.length_toBytes,
      if_neg haccess]

theorem grows_setBytes (addr : ℕ) (x : List UInt8) (s : JavaRuntime) :
    Grows s (s.setBytes addr x) := grows_of_eq rfl rfl rfl rfl rfl

/-- A class is found under its name, before and after it has a record; or there is no room. -/
theorem findClass_table (hs : Table s) (name : List UInt8) :
    (∃ err s', findClass name s = .error err s' ∧ Table s' ∧ Later s s' ∧
        s'.memberCache = s.memberCache) ∨
      ∃ h s', findClass name s = .ok h s' ∧ Table s' ∧ Later s s' ∧
        s'.memberCache = s.memberCache ∧ s'.classByName name = some h ∧
        (s.handles h = none ∨ s' = s) := by
  rw [findClass, get_bind]
  cases hclass : s.classByName name with
  | some c => exact .inr ⟨c, s, rfl, hs, .refl s, rfl, hclass, .inr rfl⟩
  | none =>
    dsimp only
    rcases alloc_table hs { kind := .clazz, name := name } with
      ⟨err, m, hrun, htable, hlater⟩ | ⟨h, m, hrun, hnone, htable, hlater⟩
    · exact .inl ⟨err, _, bind_error hrun, htable, hlater, rfl⟩
    · rw [bind_ok hrun, modify_bind]
      obtain ⟨s₁, hs₁⟩ : ∃ s₁, s₁ = ({ s with mem := m } : JavaRuntime).putRecord h
          { kind := .clazz, name := name } := ⟨_, rfl⟩
      rw [← hs₁] at htable hlater ⊢
      have hrecord : s₁.handles h = some { kind := .clazz, name := name } := by
        rw [hs₁, handles_putRecord, if_pos rfl]
      have hnew : s₁.classByName name = none := by
        rw [hs₁]
        exact hclass
      have hmembers : s₁.memberCache = s.memberCache := by
        rw [hs₁]
        rfl
      obtain ⟨htable₂, hlater₂⟩ := htable.putClass hnew hrecord rfl rfl
      rcases write32_cases h.toNat h.toNat
          { s₁ with classByName := Function.update s₁.classByName name (some h) } with
        ⟨-, hwrite⟩ | ⟨err, hwrite⟩
      · rw [bind_ok hwrite]
        obtain ⟨htable₃, hlater₃⟩ :=
          grows_setBytes h.toNat (LittleEndian.toBytes 4 h.toNat) _ htable₂
        exact .inr ⟨h, _, rfl, htable₃, (hlater.trans hlater₂).trans hlater₃, hmembers,
          Function.update_self .., .inl hnone⟩
      · rw [bind_error hwrite]
        exact .inl ⟨err, _, rfl, htable₂, hlater.trans hlater₂, hmembers⟩

theorem findClass_grows (name : List UInt8) : Moves Grows (findClass name) := by
  intro s hs
  rcases findClass_table hs name with ⟨err, s', hrun, htable, hlater, -⟩ |
    ⟨h, s', hrun, htable, hlater, -⟩
  · rw [hrun]
    exact ⟨htable, hlater⟩
  · rw [hrun]
    exact ⟨htable, hlater⟩

/-- A class with a name is found without a change. -/
theorem findClass_of_some (hclass : s.classByName name = some h) :
    findClass name s = .ok h s := by
  rw [findClass, get_bind, hclass]
  rfl

/-- The record of a member. -/
def memberRecord (s : JavaRuntime) (kind : RecordKind) (clazz : BitVec 64) (name sig : List UInt8)
    (isStatic : Bool) : Record :=
  { kind, name, sig, owner := s.className clazz, isStatic }

/-- A member is found under its key, or gets a new record; or there is no room. -/
theorem memberId_table (hs : Table s) {kind : RecordKind} (hkind : kind = .method ∨ kind = .field)
    (letter : String) (clazz : BitVec 64) (name sig : List UInt8) (isStatic : Bool) :
    (∃ err s', memberId kind letter clazz name sig isStatic s = .error err s' ∧ Table s' ∧
        Later s s' ∧ s'.memberCache = s.memberCache) ∨
      (∃ h, s.memberCache (memberKey (s.className clazz) letter isStatic name sig) = some h ∧
        memberId kind letter clazz name sig isStatic s = .ok h s) ∨
      ∃ h s', memberId kind letter clazz name sig isStatic s = .ok h s' ∧ Table s' ∧ Later s s' ∧
        s.memberCache (memberKey (s.className clazz) letter isStatic name sig) = none ∧
        s'.memberCache = Function.update s.memberCache
          (memberKey (s.className clazz) letter isStatic name sig) (some h) ∧
        s.handles h = none ∧ s'.handles h = some (s.memberRecord kind clazz name sig isStatic) := by
  rw [memberId, get_bind]
  cases hcache : s.memberCache (memberKey (s.className clazz) letter isStatic name sig) with
  | some h => exact .inr (.inl ⟨h, rfl, rfl⟩)
  | none =>
    dsimp only
    rcases alloc_table hs (s.memberRecord kind clazz name sig isStatic) with
      ⟨err, m, hrun, htable, hlater⟩ | ⟨h, m, hrun, hnone, htable, hlater⟩
    · exact .inl ⟨err, _, bind_error hrun, htable, hlater, rfl⟩
    · obtain ⟨s₁, hs₁⟩ : ∃ s₁, s₁ = ({ s with mem := m } : JavaRuntime).putRecord h
          (s.memberRecord kind clazz name sig isStatic) := ⟨_, rfl⟩
      rw [← hs₁] at hrun htable hlater
      have hrecord : s₁.handles h = some (s.memberRecord kind clazz name sig isStatic) := by
        rw [hs₁, handles_putRecord, if_pos rfl]
      have hmembers : s₁.memberCache = s.memberCache := by
        rw [hs₁]
        rfl
      obtain ⟨htable₂, hlater₂⟩ :=
        htable.putMember (by rw [hmembers]; exact hcache) hrecord hkind
      refine .inr (.inr ⟨h, _, (bind_ok hrun).trans (modify_bind _ _ _), htable₂,
        hlater.trans hlater₂, rfl, ?_, hnone, hrecord⟩)
      rw [hmembers]

theorem memberId_grows {kind : RecordKind} (hkind : kind = .method ∨ kind = .field)
    (letter : String) (clazz : BitVec 64) (name sig : List UInt8) (isStatic : Bool) :
    Moves Grows (memberId kind letter clazz name sig isStatic) := by
  intro s hs
  rcases memberId_table hs hkind letter clazz name sig isStatic with
    ⟨err, s', hrun, htable, hlater, -⟩ | ⟨h, -, hrun⟩ | ⟨h, s', hrun, htable, hlater, -⟩
  · rw [hrun]
    exact ⟨htable, hlater⟩
  · rw [hrun]
    exact ⟨hs, .refl s⟩
  · rw [hrun]
    exact ⟨htable, hlater⟩

/-! ## Objects, strings and arrays -/

/-- A new shadow object: a new handle with its record, and the handle of the class in its first
word. -/
structure Makes (s : JavaRuntime) (h : BitVec 64) (r : Record) (cls : List UInt8)
    (s' : JavaRuntime) : Prop where
  table : Table s'
  later : Later s s'
  isNew : s.handles h = none
  record : s'.handles h = some r
  clazz : ∃ c, s'.classByName cls = some c ∧
    s'.mem.engine.Holds h.toNat (LittleEndian.toBytes 4 c.toNat)

theorem of_alloc_ok (hs : Table s) (hrun : alloc r s = .ok h s') :
    s.handles h = none ∧ s'.handles h = some r ∧ Table s' ∧ Later s s' := by
  rcases alloc_table hs r with ⟨err, m, herror, -⟩ | ⟨h₁, m, hok, hnone, htable, hlater⟩
  · cases hrun.symm.trans herror
  · obtain ⟨rfl, rfl⟩ := EStateM.Result.ok.inj (hrun.symm.trans hok)
    exact ⟨hnone, (handles_putRecord _ h h r).trans (if_pos rfl), htable, hlater⟩

theorem of_findClass_ok (hs : Table s) (hrun : findClass name s = .ok h s') :
    Table s' ∧ Later s s' ∧ s'.classByName name = some h ∧ (s.handles h = none ∨ s' = s) := by
  rcases findClass_table hs name with
    ⟨err, s₁, herror, -⟩ | ⟨h₁, s₁, hok, htable, hlater, -, hname, hnew⟩
  · cases hrun.symm.trans herror
  · obtain ⟨rfl, rfl⟩ := EStateM.Result.ok.inj (hrun.symm.trans hok)
    exact ⟨htable, hlater, hname, hnew⟩

theorem of_write32_ok {addr v : ℕ} (hrun : write32 addr v s = .ok () s') :
    s.mem.engine.Accessible addr 4 ∧ s' = s.setBytes addr (LittleEndian.toBytes 4 v) := by
  rcases write32_cases addr v s with ⟨haccess, hok⟩ | ⟨err, herror⟩
  · exact ⟨haccess, (EStateM.Result.ok.inj (hrun.symm.trans hok)).2⟩
  · cases hrun.symm.trans herror

/-- The steps with which every shadow object starts. A record made before its class is found stays
the same record. -/
theorem shadow_makes (hs : Table s) {cls : List UInt8} {f : BitVec 64 → JavaM (BitVec 64)}
    (hrun : (alloc r >>= fun h => findClass cls >>= fun c =>
      write32 (h.toNat + kClassOff) c.toNat >>= fun _ => f h) s = .ok h s') :
    ∃ h₁ r₁ s₁, f h₁ s₁ = .ok h s' ∧ SameRecord r r₁ ∧ Makes s h₁ r₁ cls s₁ := by
  obtain ⟨h₁, s₁, halloc, hrun⟩ := of_bind_ok hrun
  obtain ⟨c, s₂, hfind, hrun⟩ := of_bind_ok hrun
  obtain ⟨_, s₃, hwrite, hrun⟩ := of_bind_ok hrun
  obtain ⟨hnone, hrecord, htable₁, hlater₁⟩ := of_alloc_ok hs halloc
  obtain ⟨htable₂, hlater₂, hname, -⟩ := of_findClass_ok htable₁ hfind
  obtain ⟨haccess, rfl⟩ := of_write32_ok hwrite
  obtain ⟨htable₃, hlater₃⟩ := grows_setBytes (h₁.toNat + kClassOff)
    (LittleEndian.toBytes 4 c.toNat) s₂ htable₂
  obtain ⟨r₁, hr₁, hsame⟩ := hlater₂.records h₁ r hrecord
  have hholds : (s₂.setBytes (h₁.toNat + kClassOff)
      (LittleEndian.toBytes 4 c.toNat)).mem.engine.Holds h₁.toNat
        (LittleEndian.toBytes 4 c.toNat) := by
    apply Engine.holds_setBytes
    rwa [LittleEndian.length_toBytes]
  exact ⟨h₁, r₁, _, hrun, hsame, htable₃, (hlater₁.trans hlater₂).trans hlater₃, hnone, hr₁,
    c, hname, hholds⟩

/-- The length word of an array does not touch its class word. -/
theorem Makes.length {cls : List UInt8} {n : ℕ} (hmade : Makes s h r cls s₁)
    (hrun : write32 (h.toNat + kLengthOff) n s₁ = .ok () s') : Makes s h r cls s' := by
  obtain ⟨-, rfl⟩ := of_write32_ok hrun
  obtain ⟨htable, hlater⟩ := grows_setBytes (h.toNat + kLengthOff)
    (LittleEndian.toBytes 4 n) s₁ hmade.table
  obtain ⟨c, hc, hholds⟩ := hmade.clazz
  refine ⟨htable, hmade.later.trans hlater, hmade.isNew, hmade.record, c, hc, hholds.setBytes ?_⟩
  right
  rw [LittleEndian.length_toBytes]
  exact Nat.add_le_add_left (by decide) _

theorem newObject_makes (hs : Table s) {cls : List UInt8} (hrun : newObject cls s = .ok h s') :
    ∃ r, SameRecord { kind := .object, owner := cls } r ∧ Makes s h r cls s' := by
  obtain ⟨h₁, r₁, s₁, hrest, hsame, hmade⟩ := shadow_makes hs hrun
  obtain ⟨rfl, rfl⟩ := EStateM.Result.ok.inj hrest
  exact ⟨r₁, hsame, hmade⟩

theorem newStringUtf_makes (hs : Table s) {x : List UInt8} (hrun : newStringUtf x s = .ok h s') :
    ∃ r, SameRecord { kind := .string, utf8 := x } r ∧
      Makes s h r (ascii "java/lang/String") s' := by
  obtain ⟨h₁, r₁, s₁, hrest, hsame, hmade⟩ := shadow_makes hs hrun
  obtain ⟨rfl, rfl⟩ := EStateM.Result.ok.inj hrest
  exact ⟨r₁, hsame, hmade⟩

theorem newArray_makes (hs : Table s) {cls : List UInt8} {n : ℕ}
    (hrun : newArray r cls n s = .ok h s') : ∃ r', SameRecord r r' ∧ Makes s h r' cls s' := by
  obtain ⟨h₁, r₁, s₁, hrest, hsame, hmade⟩ :=
    shadow_makes (f := fun h => write32 (h.toNat + kLengthOff) n >>= fun _ => pure h) hs hrun
  obtain ⟨_, s₂, hwrite, hrest⟩ := of_bind_ok hrest
  obtain ⟨rfl, rfl⟩ := EStateM.Result.ok.inj hrest
  exact ⟨r₁, hsame, hmade.length hwrite⟩

/-! ## The operations -/

/-- Overwrite a part of the bytes behind `bytes_ptr`. -/
def storeBytes (arr : BitVec 64) (off : ℕ) (x : List UInt8) (s : JavaRuntime) : JavaRuntime :=
  match s.byteRecord arr with
  | some r =>
      if off + x.length ≤ r.bytes.length then
        s.putRecord arr { r with bytes := overwrite r.bytes off x }
      else s
  | none => s

/-- The operations of the runtime, and the allocation of a table of the JNI bridge. -/
inductive JavaOp
  | findClass (name : List UInt8)
  | getMethodId (clazz : BitVec 64) (name sig : List UInt8) (isStatic : Bool)
  | getFieldId (clazz : BitVec 64) (name sig : List UInt8) (isStatic : Bool)
  | registerNative (clazz : BitVec 64) (name sig : List UInt8) (fn : BitVec 64)
  | newObject (cls : List UInt8)
  | newStringUtf (x : List UInt8)
  | newByteArray (len : ℕ)
  | newByteArrayOf (bytes : List UInt8)
  | newObjectArray (elems : List (BitVec 64))
  | setObjectArrayElement (arr : BitVec 64) (i : ℕ) (v : BitVec 64)
  | storeBytes (arr : BitVec 64) (off : ℕ) (x : List UInt8)
  | setField (obj : BitVec 64) (name : List UInt8) (v : DvmValue)
  | setFieldDefault (name : List UInt8) (v : DvmValue)
  | setStatic (cls name : List UInt8) (v : DvmValue)
  | table (len : BitVec 32)

namespace JavaOp

/-- Run an operation; the result is the handle it returns, if it returns one. -/
def run : JavaOp → JavaM (Option (BitVec 64))
  | .findClass name => some <$> JavaRuntime.findClass name
  | .getMethodId clazz name sig isStatic => some <$> JavaRuntime.getMethodId clazz name sig isStatic
  | .getFieldId clazz name sig isStatic => some <$> JavaRuntime.getFieldId clazz name sig isStatic
  | .registerNative clazz name sig fn => do
      JavaRuntime.registerNative clazz name sig fn
      return none
  | .newObject cls => some <$> JavaRuntime.newObject cls
  | .newStringUtf x => some <$> JavaRuntime.newStringUtf x
  | .newByteArray len => some <$> JavaRuntime.newByteArray len
  | .newByteArrayOf bytes => some <$> JavaRuntime.newByteArrayOf bytes
  | .newObjectArray elems => some <$> JavaRuntime.newObjectArray elems
  | .setObjectArrayElement arr i v => do
      modify (JavaRuntime.setObjectArrayElement arr i v)
      return none
  | .storeBytes arr off x => do
      modify (JavaRuntime.storeBytes arr off x)
      return none
  | .setField obj name v => do
      modify (JavaRuntime.setField obj name v)
      return none
  | .setFieldDefault name v => do
      modify (JavaRuntime.setFieldDefault name v)
      return none
  | .setStatic cls name v => do
      modify (JavaRuntime.setStatic cls name v)
      return none
  | .table len => do
      let _ ← onMem (Memory.javaAlloc len.toNat 16)
      return none

/-- The class of the shadow object that an operation makes. -/
def made : JavaOp → Option (List UInt8)
  | .newObject cls => some cls
  | .newStringUtf _ => some (ascii "java/lang/String")
  | .newByteArray _ | .newByteArrayOf _ => some (ascii "[B")
  | .newObjectArray _ => some (ascii "[Ljava/lang/Object;")
  | _ => none

end JavaOp

/-- A state that operations lead to, none of which throws. -/
inductive Reaches (s : JavaRuntime) : JavaRuntime → Prop
  | refl : Reaches s s
  | step {s₁ s₂ : JavaRuntime} {res : Option (BitVec 64)} (op : JavaOp) :
      Reaches s s₁ → op.run s₁ = .ok res s₂ → Reaches s s₂

theorem setNativeFn_grows (mid fn : BitVec 64) (s : JavaRuntime) :
    Grows s (s.setNativeFn mid fn) := by
  unfold setNativeFn
  split
  next r hr => exact grows_putRecord hr ⟨rfl, rfl, rfl, rfl, rfl, rfl, rfl, rfl⟩
  · exact refl_of Grows s

theorem registerNative_grows (clazz : BitVec 64) (name sig : List UInt8) (fn : BitVec 64) :
    Moves Grows (registerNative clazz name sig fn) :=
  moves_bind (memberId_grows (.inl rfl) "M" clazz name sig false) fun _ =>
    moves_bind (moves_modify (setNativeFn_grows _ _)) fun _ =>
      moves_modify fun _ => grows_of_eq rfl rfl rfl rfl rfl

theorem setField_grows (obj : BitVec 64) (name : List UInt8) (v : DvmValue) (s : JavaRuntime) :
    Grows s (s.setField obj name v) := by
  unfold setField
  split
  · exact refl_of Grows s
  next r hr => exact grows_putRecord hr ⟨rfl, rfl, rfl, rfl, rfl, rfl, rfl, rfl⟩

theorem setObjectArrayElement_grows (arr : BitVec 64) (i : ℕ) (v : BitVec 64) (s : JavaRuntime) :
    Grows s (s.setObjectArrayElement arr i v) := by
  unfold setObjectArrayElement
  split
  next r hr =>
    split
    · exact grows_putRecord hr ⟨rfl, rfl, rfl, rfl, rfl, rfl, rfl, List.length_set⟩
    · exact refl_of Grows s
  · exact refl_of Grows s

theorem storeBytes_grows (arr : BitVec 64) (off : ℕ) (x : List UInt8) (s : JavaRuntime) :
    Grows s (s.storeBytes arr off x) := by
  unfold storeBytes
  split
  next r hr =>
    have hhandle : s.handles arr = some r := (Option.filter_eq_some_iff.mp hr).1
    split
    next hfits =>
      exact grows_putRecord hhandle ⟨rfl, rfl, rfl, rfl, rfl, rfl, length_overwrite hfits, rfl⟩
    · exact refl_of Grows s
  · exact refl_of Grows s

theorem alloc_grows (r : Record) : Moves Grows (alloc r) := by
  intro s hs
  rcases alloc_table hs r with ⟨err, m, hrun, htable, hlater⟩ | ⟨h, m, hrun, -, htable, hlater⟩
  · rw [hrun]
    exact ⟨htable, hlater⟩
  · rw [hrun]
    exact ⟨htable, hlater⟩

theorem write32_grows (addr v : ℕ) : Moves Grows (write32 addr v) := by
  intro s
  rcases write32_cases addr v s with ⟨-, hrun⟩ | ⟨err, hrun⟩
  · rw [hrun]
    exact grows_setBytes _ _ s
  · rw [hrun]
    exact refl_of Grows s

theorem newObject_grows (cls : List UInt8) : Moves Grows (newObject cls) :=
  moves_bind (alloc_grows _) fun _ => moves_bind (findClass_grows _) fun _ =>
    moves_bind (write32_grows _ _) fun _ => moves_pure _

theorem newStringUtf_grows (x : List UInt8) : Moves Grows (newStringUtf x) :=
  moves_bind (alloc_grows _) fun _ => moves_bind (findClass_grows _) fun _ =>
    moves_bind (write32_grows _ _) fun _ => moves_pure _

theorem newArray_grows (r : Record) (cls : List UInt8) (n : ℕ) : Moves Grows (newArray r cls n) :=
  moves_bind (alloc_grows _) fun _ => moves_bind (findClass_grows _) fun _ =>
    moves_bind (write32_grows _ _) fun _ => moves_bind (write32_grows _ _) fun _ => moves_pure _

/-- Every operation keeps the table, also when it throws. -/
theorem JavaOp.run_grows (op : JavaOp) : Moves Grows op.run := by
  have hupdate {f : JavaRuntime → JavaRuntime} (hf : ∀ s, Grows s (f s)) :
      Moves Grows (modify f >>= fun _ => pure none : JavaM (Option (BitVec 64))) :=
    moves_bind (moves_modify hf) fun _ => moves_pure _
  cases op with
  | findClass name => exact moves_map (findClass_grows name)
  | getMethodId clazz name sig isStatic => exact moves_map (memberId_grows (.inl rfl) _ _ _ _ _)
  | getFieldId clazz name sig isStatic => exact moves_map (memberId_grows (.inr rfl) _ _ _ _ _)
  | registerNative clazz name sig fn =>
    exact moves_bind (registerNative_grows clazz name sig fn) fun _ => moves_pure _
  | newObject cls => exact moves_map (newObject_grows cls)
  | newStringUtf x => exact moves_map (newStringUtf_grows x)
  | newByteArray len => exact moves_map (newArray_grows _ _ _)
  | newByteArrayOf bytes => exact moves_map (newArray_grows _ _ _)
  | newObjectArray elems => exact moves_map (newArray_grows _ _ _)
  | setObjectArrayElement arr i v => exact hupdate (setObjectArrayElement_grows arr i v)
  | storeBytes arr off x => exact hupdate (storeBytes_grows arr off x)
  | setField obj name v => exact hupdate (setField_grows obj name v)
  | setFieldDefault name v => exact hupdate fun _ => grows_of_eq rfl rfl rfl rfl rfl
  | setStatic cls name v => exact hupdate fun _ => grows_of_eq rfl rfl rfl rfl rfl
  | table len =>
    exact moves_bind (javaAlloc_grows (k := 4) len.isLt (by decide)) fun _ => moves_pure _

theorem of_run_ok {op : JavaOp} {res : Option (BitVec 64)} (hs : Table s)
    (hrun : op.run s = .ok res s') : Table s' ∧ Later s s' := by
  have hgrows := op.run_grows s hs
  rwa [hrun] at hgrows

/-- What a whole run keeps. -/
theorem Reaches.table (h : Reaches s s') (hs : Table s) : Table s' ∧ Later s s' := by
  induction h with
  | refl => exact ⟨hs, .refl s⟩
  | step op _ hrun ih =>
    obtain ⟨htable, hlater⟩ := of_run_ok ih.1 hrun
    exact ⟨htable, ih.2.trans hlater⟩

theorem table_init {m : Memory} (hm : m.JavaOk) : Table { mem := m } where
  region := hm
  within _ hh := absurd hh (by simp)
  apart _ _ hh := absurd hh (by simp)
  classes _ _ hc := by cases hc
  members _ _ hk := by cases hk

/-! ## What the operations return -/

/-- An object or a string whose class has a name. -/
def Classed (s : JavaRuntime) (h : BitVec 64) : Prop :=
  ∀ r, s.handles h = some r → (r.kind = .object → (s.classByName r.owner).isSome) ∧
    (r.kind = .string → (s.classByName (ascii "java/lang/String")).isSome)

/-- What stays of a handle. -/
structure Stays (h : BitVec 64) (s s' : JavaRuntime) : Prop where
  kind : (s'.handles h).map Record.kind = (s.handles h).map Record.kind
  className : s'.className h = s.className h
  classOf : s'.classOf h = s.classOf h
  stringOf : s'.stringOf h = s.stringOf h
  arrayLength : s'.arrayLength h = s.arrayLength h

theorem Later.stays (hlater : Later s s') (hr : s.handles h = some r) (hclassed : Classed s h) :
    Stays h s s' := by
  obtain ⟨r', hr', hsame⟩ := hlater.records h r hr
  have hclass {n : List UInt8} (hn : (s.classByName n).isSome) :
      s'.classByName n = s.classByName n := by
    obtain ⟨c, hc⟩ := Option.isSome_iff_exists.mp hn
    rw [hc, hlater.classes n c hc]
  obtain ⟨hobject, hstring⟩ := hclassed r hr
  constructor
  · rw [hr, hr', Option.map_some, Option.map_some, hsame.kind]
  · rw [JavaRuntime.className, JavaRuntime.className, text, text, hr, hr']
    simp only [hsame.kind, hsame.name]
  · rw [JavaRuntime.classOf, JavaRuntime.classOf, hr, hr']
    simp only [hsame.kind, hsame.owner]
    cases hkind : r.kind with
    | object => rw [hclass (hobject hkind)]
    | string => rw [hclass (hstring hkind)]
    | _ => rfl
  · rw [JavaRuntime.stringOf, JavaRuntime.stringOf, hr, hr']
    simp only [Option.filter_some, hsame.kind]
    split
    · simp only [Option.map_some, hsame.utf8]
    · rfl
  · rw [JavaRuntime.arrayLength, JavaRuntime.arrayLength, hr, hr']
    simp only [hsame.kind, hsame.bytes, hsame.elems]

/-- The word in which the shadow object holds its class. -/
def classWord (s : JavaRuntime) (h : BitVec 64) : ℕ :=
  LittleEndian.ofBytes (Patches.slice s.mem.engine.byte (h.toNat + kClassOff) 4)

/-- What holds of a handle that an operation returns: it is not zero, its shadow object lies in the
Java region and apart from all others, it is new if it was not found in a table, it keeps what it
stands for, and a new shadow object names its class. -/
structure Returned (op : JavaOp) (s : JavaRuntime) (h : BitVec 64) (t : JavaRuntime) : Prop where
  nonzero : h ≠ 0
  shadow : kJavaBase ≤ h.toNat ∧ h.toNat + kShadowSize ≤ kJavaBase + kJavaSize
  apart : ∀ h', (t.handles h').isSome → h' ≠ h →
    h'.toNat + kShadowSize ≤ h.toNat ∨ h.toNat + kShadowSize ≤ h'.toNat
  isNew : s.handles h = none ∨ t = s
  stays : ∀ s', Reaches t s' → Stays h t s'
  made : ∀ cls, op.made = some cls → s.handles h = none ∧
    ∃ c, findClass cls t = .ok c t ∧ t.classWord h = c.toNat % 2 ^ 32

/-- A record other than an object or a string has no class to lose. -/
theorem classed_of_kind (hr : s.handles h = some r) (hkind : r.kind ≠ .object ∧ r.kind ≠ .string) :
    Classed s h := by
  intro r' hr'
  obtain rfl := Option.some.inj (hr.symm.trans hr')
  exact ⟨fun hobject => absurd hobject hkind.1, fun hstring => absurd hstring hkind.2⟩

/-- A member that a lookup returns has its record. -/
theorem of_memberId_ok {kind : RecordKind} (hs : Table s) (hkind : kind = .method ∨ kind = .field)
    {letter : String} {clazz : BitVec 64} {sig : List UInt8} {isStatic : Bool}
    (hrun : memberId kind letter clazz name sig isStatic s = .ok h s') :
    (∃ r, s'.handles h = some r ∧ (r.kind = .method ∨ r.kind = .field)) ∧
      (s.handles h = none ∨ s' = s) := by
  rcases memberId_table hs hkind letter clazz name sig isStatic with
    ⟨err, s₁, herror, -⟩ | ⟨h₁, hcache, hok⟩ | ⟨h₁, s₁, hok, -, -, -, -, hnone, hrecord⟩
  · cases hrun.symm.trans herror
  · obtain ⟨rfl, rfl⟩ := EStateM.Result.ok.inj (hrun.symm.trans hok)
    exact ⟨hs.members _ h hcache, .inr rfl⟩
  · obtain ⟨rfl, rfl⟩ := EStateM.Result.ok.inj (hrun.symm.trans hok)
    exact ⟨⟨_, hrecord, hkind⟩, .inl hnone⟩

theorem Makes.classed {cls : List UInt8} (hmade : Makes s h r cls s')
    (hobject : r.kind = .object → r.owner = cls)
    (hstring : r.kind = .string → cls = ascii "java/lang/String") : Classed s' h := by
  intro q hq
  obtain rfl := Option.some.inj (hmade.record.symm.trans hq)
  obtain ⟨c, hc, -⟩ := hmade.clazz
  constructor
  · intro hkind
    rw [hobject hkind, hc]
    rfl
  · intro hkind
    rw [← hstring hkind, hc]
    rfl

/-- What an operation says of the handle it returns. -/
structure Handled (op : JavaOp) (s : JavaRuntime) (h : BitVec 64) (t : JavaRuntime) : Prop where
  record : ∃ r, t.handles h = some r
  classed : Classed t h
  isNew : s.handles h = none ∨ t = s
  made : ∀ cls, op.made = some cls → ∃ r, Makes s h r cls t

theorem handled_of_made {op : JavaOp} {t : JavaRuntime} {cls : List UInt8}
    (hmade : Makes s h r cls t) (hop : op.made = some cls)
    (hobject : r.kind = .object → r.owner = cls)
    (hstring : r.kind = .string → cls = ascii "java/lang/String") : Handled op s h t where
  record := ⟨r, hmade.record⟩
  classed := hmade.classed hobject hstring
  isNew := .inl hmade.isNew
  made cls' hcls' := by
    obtain rfl := Option.some.inj (hop.symm.trans hcls')
    exact ⟨r, hmade⟩

theorem handled_of_found {op : JavaOp} {t : JavaRuntime} (hr : t.handles h = some r)
    (hkind : r.kind ≠ .object ∧ r.kind ≠ .string) (hnew : s.handles h = none ∨ t = s)
    (hop : op.made = none) : Handled op s h t where
  record := ⟨r, hr⟩
  classed := classed_of_kind hr hkind
  isNew := hnew
  made cls hcls := by
    rw [hop] at hcls
    cases hcls

theorem of_run_some {op : JavaOp} {t : JavaRuntime} (hs : Table s)
    (hrun : op.run s = .ok (some h) t) : Handled op s h t := by
  have hnothing {x : JavaM Unit}
      (hx : (x >>= fun _ => pure none : JavaM (Option (BitVec 64))) s = .ok (some h) t) :
      False := by
    obtain ⟨_, s₁, -, hpure⟩ := of_bind_ok hx
    cases hpure
  have hmember {kind : RecordKind} {letter : String} {clazz : BitVec 64} {name sig : List UInt8}
      {isStatic : Bool} (hkind : kind = .method ∨ kind = .field)
      (hx : (some <$> memberId kind letter clazz name sig isStatic) s = .ok (some h) t)
      (hop : op.made = none) : Handled op s h t := by
    obtain ⟨h₁, hfound, hsome⟩ := of_map_ok hx
    obtain rfl := Option.some.inj hsome
    obtain ⟨⟨r, hr, hmember⟩, hnew⟩ := of_memberId_ok hs hkind hfound
    apply handled_of_found hr _ hnew hop
    rcases hmember with hm | hm
    · simp [hm]
    · simp [hm]
  have harray {r : Record} {cls : List UInt8} {n : ℕ}
      (hx : (some <$> newArray r cls n) s = .ok (some h) t) (hop : op.made = some cls)
      (hkind : r.kind ≠ .object ∧ r.kind ≠ .string) : Handled op s h t := by
    obtain ⟨h₁, hnew, hsome⟩ := of_map_ok hx
    obtain rfl := Option.some.inj hsome
    obtain ⟨r', hsame, hmade⟩ := newArray_makes hs hnew
    apply handled_of_made hmade hop
    · intro hobject
      exact absurd (hsame.kind.symm.trans hobject) hkind.1
    · intro hstring
      exact absurd (hsame.kind.symm.trans hstring) hkind.2
  cases op with
  | findClass name =>
    obtain ⟨h₁, hx, hsome⟩ := of_map_ok hrun
    obtain rfl := Option.some.inj hsome
    obtain ⟨htable, -, hname, hnew⟩ := of_findClass_ok hs hx
    obtain ⟨r, hr, hkind, -⟩ := htable.classes name h₁ hname
    exact handled_of_found hr (by simp [hkind]) hnew rfl
  | getMethodId clazz name sig isStatic => exact hmember (.inl rfl) hrun rfl
  | getFieldId clazz name sig isStatic => exact hmember (.inr rfl) hrun rfl
  | registerNative clazz name sig fn => exact (hnothing hrun).elim
  | newObject cls =>
    obtain ⟨h₁, hx, hsome⟩ := of_map_ok hrun
    obtain rfl := Option.some.inj hsome
    obtain ⟨r, hsame, hmade⟩ := newObject_makes hs hx
    apply handled_of_made hmade rfl
    · intro _
      exact hsame.owner
    · intro hstring
      cases hsame.kind.symm.trans hstring
  | newStringUtf x =>
    obtain ⟨h₁, hx, hsome⟩ := of_map_ok hrun
    obtain rfl := Option.some.inj hsome
    obtain ⟨r, hsame, hmade⟩ := newStringUtf_makes hs hx
    apply handled_of_made hmade rfl
    · intro hobject
      cases hsame.kind.symm.trans hobject
    · intro _
      rfl
  | newByteArray len => exact harray hrun rfl (by simp)
  | newByteArrayOf bytes => exact harray hrun rfl (by simp)
  | newObjectArray elems => exact harray hrun rfl (by simp)
  | setObjectArrayElement arr i v => exact (hnothing hrun).elim
  | storeBytes arr off x => exact (hnothing hrun).elim
  | setField obj name v => exact (hnothing hrun).elim
  | setFieldDefault name v => exact (hnothing hrun).elim
  | setStatic cls name v => exact (hnothing hrun).elim
  | table len =>
    obtain ⟨_, s₁, -, hpure⟩ := of_bind_ok hrun
    cases hpure

/-- Inside the region that was handed out means inside the Java region. -/
theorem Table.shadow (hs : Table s) (hh : (s.handles h).isSome) :
    kJavaBase ≤ h.toNat ∧ h.toNat + kShadowSize ≤ kJavaBase + kJavaSize := by
  have hsize : kShadowSize = 0x80 := rfl
  obtain ⟨hlow, hhigh⟩ := hs.within h hh
  obtain ⟨hend, -, hnext⟩ := hs.region (by omega)
  exact ⟨hlow, hhigh.trans (hend ▸ hnext)⟩

theorem returned_of_run {op : JavaOp} {t : JavaRuntime} (hs : Table s)
    (hrun : op.run s = .ok (some h) t) : Returned op s h t := by
  obtain ⟨htable, -⟩ := of_run_ok hs hrun
  obtain ⟨⟨r, hr⟩, hclassed, hnew, hmade⟩ := of_run_some hs hrun
  have hisSome : (t.handles h).isSome := by simp [hr]
  obtain ⟨hlow, hhigh⟩ := htable.shadow hisSome
  constructor
  · rintro rfl
    exact absurd hlow (by decide)
  · exact ⟨hlow, hhigh⟩
  · exact fun h' hh' hne => htable.apart h' h hh' hisSome hne
  · exact hnew
  · intro s' hreach
    exact (hreach.table htable).2.stays hr hclassed
  · intro cls hcls
    obtain ⟨r, hmakes⟩ := hmade cls hcls
    obtain ⟨c, hc, hholds⟩ := hmakes.clazz
    refine ⟨hmakes.isNew, c, findClass_of_some hc, ?_⟩
    have hslice := hholds.2
    rw [LittleEndian.length_toBytes] at hslice
    have hbytes : 256 ^ 4 = 2 ^ 32 := by decide
    rw [classWord, kClassOff, Nat.add_zero, hslice, LittleEndian.ofBytes_toBytes, hbytes]

/-- In every run of operations of which none throws: what an operation returns is sound, a class is
found again under its name and under no other, and the class of a new object is the one with the
name of its class. -/
theorem handles_sound {m : Memory} (hm : m.JavaOk) {s : JavaRuntime}
    (hs : Reaches { mem := m } s) :
    (∀ op h t, JavaOp.run op s = .ok (some h) t → Returned op s h t) ∧
    (∀ n h t, findClass n s = .ok h t → t.className h = n ∧
      ∀ s', Reaches t s' → findClass n s' = .ok h s' ∧
        ∀ n' t', findClass n' s' = .ok h t' → n' = n) ∧
    (∀ c h t, newObject c s = .ok h t → findClass c t = .ok (t.classOf h) t) := by
  obtain ⟨htable, -⟩ := hs.table (table_init hm)
  refine ⟨fun op h t hrun => returned_of_run htable hrun, fun n h t hrun => ?_,
    fun c h t hrun => ?_⟩
  · obtain ⟨htable₁, -, hname, -⟩ := of_findClass_ok htable hrun
    obtain ⟨r, hr, hkind, hrname⟩ := htable₁.classes n h hname
    refine ⟨by simp [className, text, hr, hkind, hrname], fun s' hreach => ?_⟩
    obtain ⟨htable', hlater⟩ := hreach.table htable₁
    have hname' := hlater.classes n h hname
    refine ⟨findClass_of_some hname', fun n' t' hrun' => ?_⟩
    obtain ⟨htable₂, hlater₂, hname₂, -⟩ := of_findClass_ok htable' hrun'
    obtain ⟨r₁, hr₁, -, hr₁name⟩ := htable₂.classes n h (hlater₂.classes n h hname')
    obtain ⟨r₂, hr₂, -, hr₂name⟩ := htable₂.classes n' h hname₂
    obtain rfl := Option.some.inj (hr₁.symm.trans hr₂)
    exact hr₂name.symm.trans hr₁name
  · obtain ⟨r, hsame, hmade⟩ := newObject_makes htable hrun
    obtain ⟨k, hk, -⟩ := hmade.clazz
    have hclass : t.classOf h = k := by
      rw [classOf, hmade.record]
      simp [hsame.kind, hsame.owner, hk]
    rw [hclass]
    exact findClass_of_some hk

/-- A fresh runtime can make an object. -/
theorem newObject_init : ∃ t,
    newObject (ascii "A") { mem := Memory.init .arm64 false false } = .ok firstHandle t := by
  rw [newObject, bind_ok (alloc_init _)]
  exact ⟨_, rfl⟩

/-- The first object of a fresh runtime has the class it was made with. -/
theorem handles_sound_first : ∃ t,
    newObject (ascii "A") { mem := Memory.init .arm64 false false } = .ok firstHandle t ∧
      findClass (ascii "A") t = .ok (t.classOf firstHandle) t := by
  have hm : (Memory.init .arm64 false false).JavaOk := fun hnext => absurd rfl hnext
  obtain ⟨t, ht⟩ := newObject_init
  exact ⟨t, ht, (handles_sound hm .refl).2.2 _ _ t ht⟩

end Vardoger.JavaRuntime
