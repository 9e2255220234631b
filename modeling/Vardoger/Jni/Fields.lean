import Vardoger.Base.WriteLog
import Vardoger.Dex.DexFile
import Vardoger.Jni.JavaRuntime

/-!
# Java fields from bytecode, from JNI and from host code

All three write to one store of tagged values. The bytecode interpreter stores every value as an
object and reads every value as one; the `Int` accessors of the JNI bridge and the host store and
read integers. A read returns the value last written to its field exactly if both used the same
member of the tagged value, or if the value is zero.
-/

namespace Vardoger

open JavaRuntime

/-- A class descriptor without its `L` and `;`; any other string as it is. -/
def jniName : List UInt8 → List UInt8
  | [] => []
  | c :: rest => if c = 0x4c ∧ rest.getLast? = some 0x3b then rest.dropLast else c :: rest

/-! ## The accessors -/

namespace LifecycleRunner

variable (dex : Dex.Tables)

def onSget (f : ℕ) (s : JavaRuntime) : BitVec 64 :=
  (s.getStatic (jniName (dex.fieldAt f).cls) (dex.fieldAt f).name).obj

def onSput (f : ℕ) (v : BitVec 64) : JavaRuntime → JavaRuntime :=
  setStatic (jniName (dex.fieldAt f).cls) (dex.fieldAt f).name (.O v)

def onIget (obj : BitVec 64) (f : ℕ) (s : JavaRuntime) : BitVec 64 :=
  (s.getField obj (dex.fieldAt f).name).obj

def onIput (obj : BitVec 64) (f : ℕ) (v : BitVec 64) : JavaRuntime → JavaRuntime :=
  setField obj (dex.fieldAt f).name (.O v)

end LifecycleRunner

namespace JniBridge

def getObjectField (obj fid : BitVec 64) (s : JavaRuntime) : BitVec 64 :=
  (s.getField obj (s.fieldName fid)).obj

def getIntField (obj fid : BitVec 64) (s : JavaRuntime) : BitVec 64 :=
  (s.getField obj (s.fieldName fid)).i

def setObjectField (obj fid val : BitVec 64) (s : JavaRuntime) : JavaRuntime :=
  s.setField obj (s.fieldName fid) (.O val)

def setIntField (obj fid val : BitVec 64) (s : JavaRuntime) : JavaRuntime :=
  s.setField obj (s.fieldName fid) (.I val)

def getStaticObjectField (fid : BitVec 64) (s : JavaRuntime) : BitVec 64 :=
  (s.getStatic (s.fieldOwner fid) (s.fieldName fid)).obj

def getStaticIntField (fid : BitVec 64) (s : JavaRuntime) : BitVec 64 :=
  (s.getStatic (s.fieldOwner fid) (s.fieldName fid)).i

end JniBridge

/-! ## Members, fields and the cells they are stored in -/

/-- The member of a tagged value that an accessor uses. -/
inductive Member
  | obj | i
  deriving DecidableEq, Repr

namespace Member

def wrap : Member → BitVec 64 → DvmValue
  | .obj => DvmValue.O
  | .i => DvmValue.I

def read : Member → DvmValue → BitVec 64
  | .obj => DvmValue.obj
  | .i => DvmValue.i

/-- A member other than the one that was set reads as zero. -/
theorem read_wrap (m m' : Member) (v : BitVec 64) :
    m.read (m'.wrap v) = if m' = m then v else 0 := by
  cases m <;> cases m' <;> rfl

end Member

/-- A field of an object, or a static field of a class. -/
inductive FieldRef
  | inst (obj : BitVec 64) (name : List UInt8)
  | static (cls name : List UInt8)
  deriving DecidableEq, Repr

/-- A cell of the store: a static field is found under one string. -/
inductive Cell
  | inst (obj : BitVec 64) (name : List UInt8)
  | static (key : List UInt8)
  deriving DecidableEq, Repr

def FieldRef.cell : FieldRef → Cell
  | .inst obj name => .inst obj name
  | .static cls name => .static (skey cls name)

/-- The object of an instance field has a record. -/
def FieldRef.Exists (s : JavaRuntime) : FieldRef → Prop
  | .inst obj _ => (s.handles obj).isSome
  | .static _ _ => True

namespace JavaRuntime

def cell (s : JavaRuntime) : Cell → Option DvmValue
  | .inst obj name => (s.handles obj).bind fun r => r.fields name
  | .static key => s.staticFields key

/-- The value of a field, as both getters compute it. -/
def value (s : JavaRuntime) : FieldRef → DvmValue
  | .inst obj name => s.getField obj name
  | .static cls name => s.getStatic cls name

def store (f : FieldRef) (v : DvmValue) (s : JavaRuntime) : JavaRuntime :=
  match f with
  | .inst obj name => s.setField obj name v
  | .static cls name => s.setStatic cls name v

end JavaRuntime

/-- A write to a field by one of the six ways. -/
inductive FieldWrite
  | iput (obj : BitVec 64) (f : ℕ) (v : BitVec 64)
  | sput (f : ℕ) (v : BitVec 64)
  | setObjectField (obj fid v : BitVec 64)
  | setIntField (obj fid v : BitVec 64)
  | setField (obj : BitVec 64) (name : List UInt8) (m : Member) (v : BitVec 64)
  | setStatic (cls name : List UInt8) (m : Member) (v : BitVec 64)
  deriving DecidableEq, Repr

/-- A read of a field by one of the six ways. -/
inductive FieldRead
  | iget (obj : BitVec 64) (f : ℕ)
  | sget (f : ℕ)
  | getObjectField (obj fid : BitVec 64)
  | getIntField (obj fid : BitVec 64)
  | getStaticObjectField (fid : BitVec 64)
  | getStaticIntField (fid : BitVec 64)
  deriving DecidableEq, Repr

section Accesses

variable (dex : Dex.Tables)

namespace FieldWrite

def run : FieldWrite → JavaRuntime → JavaRuntime
  | .iput obj f v => LifecycleRunner.onIput dex obj f v
  | .sput f v => LifecycleRunner.onSput dex f v
  | .setObjectField obj fid v => JniBridge.setObjectField obj fid v
  | .setIntField obj fid v => JniBridge.setIntField obj fid v
  | .setField obj name m v => JavaRuntime.setField obj name (m.wrap v)
  | .setStatic cls name m v => JavaRuntime.setStatic cls name (m.wrap v)

/-- The field that is written. -/
def target (s : JavaRuntime) : FieldWrite → FieldRef
  | .iput obj f _ => .inst obj (dex.fieldAt f).name
  | .sput f _ => .static (jniName (dex.fieldAt f).cls) (dex.fieldAt f).name
  | .setObjectField obj fid _ => .inst obj (s.fieldName fid)
  | .setIntField obj fid _ => .inst obj (s.fieldName fid)
  | .setField obj name _ _ => .inst obj name
  | .setStatic cls name _ _ => .static cls name

def member : FieldWrite → Member
  | .iput .. | .sput .. | .setObjectField .. => .obj
  | .setIntField .. => .i
  | .setField _ _ m _ | .setStatic _ _ m _ => m

def value : FieldWrite → BitVec 64
  | .iput _ _ v | .sput _ v | .setObjectField _ _ v | .setIntField _ _ v => v
  | .setField _ _ _ v | .setStatic _ _ _ v => v

/-- Each way of writing stores its value under its member. -/
theorem run_eq (w : FieldWrite) (s : JavaRuntime) :
    w.run dex s = s.store (w.target dex s) (w.member.wrap w.value) := by
  cases w <;> rfl

end FieldWrite

namespace FieldRead

def run : FieldRead → JavaRuntime → BitVec 64
  | .iget obj f => LifecycleRunner.onIget dex obj f
  | .sget f => LifecycleRunner.onSget dex f
  | .getObjectField obj fid => JniBridge.getObjectField obj fid
  | .getIntField obj fid => JniBridge.getIntField obj fid
  | .getStaticObjectField fid => JniBridge.getStaticObjectField fid
  | .getStaticIntField fid => JniBridge.getStaticIntField fid

/-- The field that is read. -/
def target (s : JavaRuntime) : FieldRead → FieldRef
  | .iget obj f => .inst obj (dex.fieldAt f).name
  | .sget f => .static (jniName (dex.fieldAt f).cls) (dex.fieldAt f).name
  | .getObjectField obj fid | .getIntField obj fid => .inst obj (s.fieldName fid)
  | .getStaticObjectField fid | .getStaticIntField fid =>
      .static (s.fieldOwner fid) (s.fieldName fid)

def member : FieldRead → Member
  | .iget .. | .sget .. | .getObjectField .. | .getStaticObjectField .. => .obj
  | .getIntField .. | .getStaticIntField .. => .i

/-- Each way of reading returns its member of the field's value. -/
theorem run_eq (r : FieldRead) (s : JavaRuntime) :
    r.run dex s = r.member.read (s.value (r.target dex s)) := by
  cases r <;> rfl

end FieldRead

def runWrites (ws : List FieldWrite) (s : JavaRuntime) : JavaRuntime :=
  ws.foldl (fun s w => w.run dex s) s

/-- The last write to a field. -/
def lastWrite (s : JavaRuntime) (f : FieldRef) (ws : List FieldWrite) : Option FieldWrite :=
  WriteLog.last (FieldWrite.target dex s) f ws

/-- The last write to the cell of a field. -/
def lastStored (s : JavaRuntime) (f : FieldRef) (ws : List FieldWrite) : Option FieldWrite :=
  WriteLog.last (fun w => (w.target dex s).cell) f.cell ws

/-- After the writes, the read returns the value last written to its field. -/
def ReadsLatest (s : JavaRuntime) (ws : List FieldWrite) (r : FieldRead) : Prop :=
  ∀ w, lastWrite dex s (r.target dex s) ws = some w → r.run dex (runWrites dex ws s) = w.value

/-- The last write that reached the cell of the field carried the value last written to the field
and used the member of the read, or it used the other member and the value is zero. -/
def Agrees (s : JavaRuntime) (ws : List FieldWrite) (r : FieldRead) : Prop :=
  ∀ w w', lastWrite dex s (r.target dex s) ws = some w →
    lastStored dex s (r.target dex s) ws = some w' →
    (w'.member = r.member ∧ w'.value = w.value) ∨ (w'.member ≠ r.member ∧ w.value = 0)

end Accesses

/-! ## One write -/

namespace JavaRuntime

/-- The names and owners of field ids, and the existence of a field, which writes do not change. -/
structure SameFields (s s' : JavaRuntime) : Prop where
  name : s'.fieldName = s.fieldName
  owner : s'.fieldOwner = s.fieldOwner
  exist : ∀ f : FieldRef, f.Exists s' ↔ f.Exists s

theorem setField_none {s : JavaRuntime} {obj : BitVec 64} (h : s.handles obj = none)
    (name : List UInt8) (v : DvmValue) : s.setField obj name v = s := by
  rw [setField, h]

theorem setField_some {s : JavaRuntime} {obj : BitVec 64} {r : Record} (h : s.handles obj = some r)
    (name : List UInt8) (v : DvmValue) :
    s.setField obj name v = { s with
      handles := Function.update s.handles obj
        (some { r with fields := Function.update r.fields name (some v) }) } := by
  rw [setField, h]

theorem setField_text {part : Record → List UInt8}
    (hpart : ∀ (r : Record) fields, part { r with fields := fields } = part r) (kind : RecordKind)
    (obj : BitVec 64) (name : List UInt8) (v : DvmValue) (s : JavaRuntime) :
    (s.setField obj name v).text kind part = s.text kind part := by
  funext h
  cases hobj : s.handles obj with
  | none => rw [setField_none hobj]
  | some r =>
    rw [setField_some hobj, text, text]
    by_cases heq : h = obj
    · subst heq
      simp [hobj, hpart]
    · simp only [Function.update_of_ne heq]

theorem store_sameFields (f : FieldRef) (v : DvmValue) (s : JavaRuntime) :
    SameFields s (s.store f v) := by
  cases f with
  | static cls name => exact ⟨rfl, rfl, fun f => by cases f <;> rfl⟩
  | inst obj name =>
    refine ⟨setField_text (fun _ _ => rfl) _ _ _ _ _, setField_text (fun _ _ => rfl) _ _ _ _ _, ?_⟩
    intro f
    cases f with
    | static cls name => exact Iff.rfl
    | inst obj' name' =>
      change ((s.setField obj name v).handles obj').isSome ↔ (s.handles obj').isSome
      cases hobj : s.handles obj with
      | none => rw [setField_none hobj]
      | some r =>
        rw [setField_some hobj]
        by_cases heq : obj' = obj
        · simp [heq, hobj]
        · simp only [Function.update_of_ne heq]

/-- A write to a field that exists changes its cell and no other. -/
theorem cell_store {f : FieldRef} {s : JavaRuntime} (hf : f.Exists s) (v : DvmValue) (c : Cell) :
    (s.store f v).cell c = if f.cell = c then some v else s.cell c := by
  cases f with
  | static cls name =>
    cases c with
    | inst obj name' => rfl
    | static key =>
      simp only [store, setStatic, cell, FieldRef.cell, Function.update_apply, Cell.static.injEq,
        eq_comm]
  | inst obj name =>
    obtain ⟨r, hr⟩ := Option.isSome_iff_exists.mp hf
    rw [store, setField_some hr]
    cases c with
    | static key => rfl
    | inst obj' name' =>
      simp only [cell, FieldRef.cell, Cell.inst.injEq]
      by_cases hobj : obj = obj'
      · subst hobj
        simp only [Function.update_self, hr, Option.bind_some, Function.update_apply, true_and,
          eq_comm]
      · rw [Function.update_of_ne (Ne.symm hobj), if_neg fun h => hobj h.1]

/-- A write leaves the cells of other fields alone, whether its own field exists or not. -/
theorem cell_store_of_ne {f : FieldRef} {c : Cell} (h : f.cell ≠ c) (v : DvmValue)
    (s : JavaRuntime) : (s.store f v).cell c = s.cell c := by
  by_cases hf : f.Exists s
  · rw [cell_store hf, if_neg h]
  · cases f with
    | static cls name => exact absurd trivial hf
    | inst obj name =>
      rw [store, setField_none (Option.not_isSome_iff_eq_none.mp hf)]

/-- Both getters return the contents of the cell, if there are any. -/
theorem value_of_cell {f : FieldRef} {s : JavaRuntime} {v : DvmValue}
    (h : s.cell f.cell = some v) : s.value f = v := by
  cases f with
  | inst obj name =>
    have hcell : ((s.handles obj).bind fun r => r.fields name) = some v := h
    simp only [value, getField, hcell]
  | static cls name =>
    change (s.cell (.static (skey cls name))).getD _ = v
    rw [show s.cell (.static (skey cls name)) = some v from h, Option.getD_some]

end JavaRuntime

/-! ## Whole histories -/

theorem FieldRef.exists_of_cell {f f' : FieldRef} (h : f.cell = f'.cell) {s : JavaRuntime}
    (hf : f'.Exists s) : f.Exists s := by
  cases f with
  | static cls name => trivial
  | inst obj name =>
    cases f' with
    | static cls name => cases h
    | inst obj' name' =>
      obtain ⟨rfl, -⟩ := Cell.inst.inj h
      exact hf

section Histories

variable {dex : Dex.Tables} {s s' : JavaRuntime}

theorem FieldWrite.target_congr (h : SameFields s s') (w : FieldWrite) :
    w.target dex s' = w.target dex s := by
  cases w <;> simp only [target, h.name]

theorem FieldRead.target_congr (h : SameFields s s') (r : FieldRead) :
    r.target dex s' = r.target dex s := by
  cases r <;> simp only [target, h.name, h.owner]

theorem JavaRuntime.SameFields.refl (s : JavaRuntime) : SameFields s s :=
  ⟨rfl, rfl, fun _ => Iff.rfl⟩

theorem JavaRuntime.SameFields.run (h : SameFields s s') (w : FieldWrite) :
    SameFields s (w.run dex s') := by
  rw [w.run_eq]
  have hstore := store_sameFields (w.target dex s') (w.member.wrap w.value) s'
  exact ⟨hstore.name.trans h.name, hstore.owner.trans h.owner,
    fun f => (hstore.exist f).trans (h.exist f)⟩

theorem sameFields_runWrites (ws : List FieldWrite) : SameFields s (runWrites dex ws s) :=
  List.foldlRecOn ws _ (SameFields.refl s) fun _ h w _ => h.run w

/-- After a history, the cell of a field that exists holds what the last write to it stored. -/
theorem cell_runWrites (dex : Dex.Tables) {f : FieldRef} (hf : f.Exists s) (ws : List FieldWrite) :
    (runWrites dex ws s).cell f.cell =
      ((lastStored dex s f ws).map fun w => w.member.wrap w.value).or (s.cell f.cell) := by
  refine WriteLog.look_foldl (fun w => (w.target dex s).cell) f.cell (fun s => s.cell f.cell)
    (I := SameFields s) (fun s' w h => h.run w) ?_ (SameFields.refl s) ws
  intro s' w h
  rw [w.run_eq, w.target_congr h]
  by_cases hcell : (w.target dex s).cell = f.cell
  · have hexists := (h.exist _).mpr (FieldRef.exists_of_cell hcell hf)
    rw [cell_store hexists]
  · rw [cell_store_of_ne hcell, if_neg hcell]

/-- What a read returns after a history: the value of the last write to the cell if that used the
member of the read, and zero otherwise. -/
theorem run_runWrites {r : FieldRead} {ws : List FieldWrite} {w : FieldWrite}
    (hr : (r.target dex s).Exists s) (hw : lastStored dex s (r.target dex s) ws = some w) :
    r.run dex (runWrites dex ws s) = if w.member = r.member then w.value else 0 := by
  have hcell := cell_runWrites dex hr ws
  rw [hw, Option.map_some, Option.some_or] at hcell
  rw [r.run_eq, r.target_congr (sameFields_runWrites ws), value_of_cell hcell, Member.read_wrap]

/-- After any history of writes, a read of a field of an existing object or of a class returns the
value last written to that field if and only if the last write to its cell agrees with the read. -/
theorem readsLatest_iff (dex : Dex.Tables) (s : JavaRuntime) (ws : List FieldWrite) (r : FieldRead)
    (hr : (r.target dex s).Exists s) : ReadsLatest dex s ws r ↔ Agrees dex s ws r := by
  have hkey : ∀ w w' : FieldWrite, lastStored dex s (r.target dex s) ws = some w' →
      (r.run dex (runWrites dex ws s) = w.value ↔
        (w'.member = r.member ∧ w'.value = w.value) ∨ (w'.member ≠ r.member ∧ w.value = 0)) := by
    intro w w' hw'
    rw [run_runWrites hr hw']
    by_cases hmember : w'.member = r.member
    · simp [hmember]
    · simp [hmember, eq_comm]
  constructor
  · intro h w w' hw hw'
    exact (hkey w w' hw').mp (h w hw)
  · intro h w hw
    obtain ⟨hmem, htarget⟩ := WriteLog.mem_of_last hw
    obtain ⟨w', hw'⟩ := WriteLog.exists_last (fun w => (w.target dex s).cell) hmem
      (congrArg FieldRef.cell htarget)
    exact (hkey w w' hw').mpr (h w w' hw hw')

end Histories

/-- A string item: the length, the bytes and a terminator. -/
def stringItem (text : String) : List UInt8 := UInt8.ofNat text.length :: Bytes.ascii text ++ [0]

/-- A file with the one field id `Build$VERSION.SDK_INT`, of type `int`. -/
def sdkIntDex : Dex.Tables where
  data := LittleEndian.toBytes 4 28 ++ LittleEndian.toBytes 4 56 ++ LittleEndian.toBytes 4 59 ++
    LittleEndian.toBytes 4 0 ++ LittleEndian.toBytes 4 1 ++
    LittleEndian.toBytes 2 0 ++ LittleEndian.toBytes 2 1 ++ LittleEndian.toBytes 4 2 ++
    stringItem "Landroid/os/Build$VERSION;" ++ stringItem "I" ++ stringItem "SDK_INT"
  stringIds := ⟨3, 0⟩
  typeIds := ⟨2, 12⟩
  protoIds := ⟨0, 0⟩
  fieldIds := ⟨1, 20⟩
  methodIds := ⟨0, 0⟩
  classDefs := ⟨0, 0⟩

/-- A runtime with one object, at `0x1000`. -/
def oneObject : JavaRuntime where
  mem := Memory.init .arm64 false false
  handles := fun h => if h = 0x1000 then some { kind := .object } else none

/-- The object of the runtime has the field, so the equivalence applies to it. -/
theorem readsLatest_iff_oneObject :
    ((FieldRead.iget 0x1000 0).target sdkIntDex oneObject).Exists oneObject ∧
      (ReadsLatest sdkIntDex oneObject [.iput 0x1000 0 7] (.iget 0x1000 0) ↔
        Agrees sdkIntDex oneObject [.iput 0x1000 0 7] (.iget 0x1000 0)) :=
  ⟨rfl, readsLatest_iff sdkIntDex oneObject [.iput 0x1000 0 7] (.iget 0x1000 0) rfl⟩

/-- The host sets `Build$VERSION.SDK_INT` to the integer 30. -/
def hostSdkInt : FieldWrite :=
  .setStatic (Bytes.ascii "android/os/Build$VERSION") (Bytes.ascii "SDK_INT") .i 30

/-- The bytecode then reads 0 from it. -/
theorem sget_misses_host_int :
    lastWrite sdkIntDex oneObject ((FieldRead.sget 0).target sdkIntDex oneObject) [hostSdkInt] =
        some hostSdkInt ∧
      (FieldRead.sget 0).run sdkIntDex (runWrites sdkIntDex [hostSdkInt] oneObject) = 0 ∧
      ¬ReadsLatest sdkIntDex oneObject [hostSdkInt] (.sget 0) := by
  have hlast : lastWrite sdkIntDex oneObject ((FieldRead.sget 0).target sdkIntDex oneObject)
      [hostSdkInt] = some hostSdkInt := by
    decide +kernel
  have hread : (FieldRead.sget 0).run sdkIntDex (runWrites sdkIntDex [hostSdkInt] oneObject) =
      0 := by
    decide +kernel
  refine ⟨hlast, hread, fun h => ?_⟩
  have hvalue := (h _ hlast).symm.trans hread
  cases hvalue

end Vardoger
