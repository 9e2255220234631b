import Vardoger.Jni.Handles

/-!
# Arrays of the bytecode interpreter

The callbacks for `new-array`, `aget` and `aput` keep every array as one of two kinds of records: an
array of handles if its elements are of a class, and a byte string otherwise. The second kind stores
the low byte of a value and reads it back as it is. Beside the runtime we run arrays as the language
has them, and compare.
-/

namespace Vardoger

open Stateful JavaRuntime Words

/-! ## The callbacks -/

namespace LifecycleRunner

/-- The largest length that `new-array` accepts. -/
def kMaxLength : ℤ := 2 ^ 24

/-- The length an array gets; one that is out of range becomes `0`. -/
def arrayLen (len : BitVec 32) : ℕ :=
  if len.toInt < 0 ∨ len.toInt > kMaxLength then 0 else len.toInt.toNat

/-- The test for elements of a class: the second character of the descriptor. -/
def ofObjects (ty : List UInt8) : Bool := ty[1]? = some 0x4c

variable (dex : Dex.Tables)

def onNewArray (t : ℕ) (len : BitVec 32) : JavaM (BitVec 64) :=
  if ofObjects (dex.typeAt t) then newObjectArray (List.replicate (arrayLen len) 0)
  else newByteArray (arrayLen len)

def onAget (arr : BitVec 64) (i : BitVec 32) (s : JavaRuntime) : BitVec 64 :=
  if i.toInt < 0 then 0
  else
    match s.byteRecord arr with
    | some r =>
        if i.toNat < r.bytes.length then (r.bytes.getD i.toNat 0).toBitVec.setWidth 64 else 0
    | none => s.objectArrayElement arr i.toNat

def onAput (arr : BitVec 64) (i : BitVec 32) (v : BitVec 64) (s : JavaRuntime) : JavaRuntime :=
  if i.toInt < 0 then s
  else
    match s.byteRecord arr with
    | some r =>
        if i.toNat < r.bytes.length then
          { s with
            handles := Function.update s.handles arr
              (some { r with bytes := r.bytes.set i.toNat ⟨v.setWidth 8⟩ }) }
        else s
    | none => s.setObjectArrayElement arr i.toNat v

end LifecycleRunner

/-! ## Arrays as the language has them -/

/-- An array of a type: its length, and the value last stored at each index, zero at first. -/
structure JArray where
  descriptor : List UInt8
  length : ℕ
  value : ℕ → BitVec 64

/-- The arrays that exist, by handle. -/
abbrev Arrays := BitVec 64 → Option JArray

namespace JArray

def fresh (descriptor : List UInt8) (length : ℕ) : JArray := ⟨descriptor, length, fun _ => 0⟩

def put (a : JArray) (i : ℕ) (v : BitVec 64) : JArray :=
  if i < a.length then { a with value := Function.update a.value i v } else a

end JArray

/-- Store into an array; a negative index or one past the end stores nothing. -/
def Arrays.put (A : Arrays) (arr : BitVec 64) (i : BitVec 32) (v : BitVec 64) : Arrays :=
  if i.toInt < 0 then A else Function.update A arr ((A arr).map fun a => a.put i.toNat v)

/-- What the interpreter and the rest of the runtime do, one step at a time: create arrays, store
into them, create classes, objects and member ids, write fields, take memory of the Java region, and
use memory in ways that leave this region's cursor alone. -/
inductive ArrayOp
  | newArray (t : ℕ) (len : BitVec 32)
  | aput (arr : BitVec 64) (i : BitVec 32) (v : BitVec 64)
  | findClass (name : List UInt8)
  | newObject (cls : List UInt8)
  | memberId (kind : RecordKind) (letter : String) (clazz : BitVec 64) (name sig : List UInt8)
      (isStatic : Bool)
  | setField (obj : BitVec 64) (name : List UInt8) (v : DvmValue)
  | setStatic (cls name : List UInt8) (v : DvmValue)
  | javaAlloc (len : UInt32) (logAlign : Fin 13)
  | memory (f : Memory → Memory)
      (hnext : ∀ m, (f m).javaNext = m.javaNext ∧ (f m).javaEnd = m.javaEnd)

/-- Run one step on the runtime and on the arrays of the language. -/
def ArrayOp.run (dex : Dex.Tables) (w : JavaRuntime × Arrays) : ArrayOp → JavaRuntime × Arrays
  | .newArray t len =>
      match LifecycleRunner.onNewArray dex t len w.1 with
      | .ok h s =>
          (s, Function.update w.2 h
            (some (.fresh (dex.typeAt t) (LifecycleRunner.arrayLen len))))
      | .error _ s => (s, w.2)
  | .aput arr i v => (LifecycleRunner.onAput arr i v w.1, w.2.put arr i v)
  | .findClass name => (final (JavaRuntime.findClass name w.1), w.2)
  | .newObject cls => (final (JavaRuntime.newObject cls w.1), w.2)
  | .memberId kind letter clazz name sig isStatic =>
      (final (JavaRuntime.memberId kind letter clazz name sig isStatic w.1), w.2)
  | .setField obj name v => (w.1.setField obj name v, w.2)
  | .setStatic cls name v => (w.1.setStatic cls name v, w.2)
  | .javaAlloc len logAlign =>
      (final (onMem (Memory.javaAlloc len.toNat (2 ^ logAlign.val)) w.1), w.2)
  | .memory f _ => ({ w.1 with mem := f w.1.mem }, w.2)

/-- The runtime and the arrays after a run that starts with no Java object. -/
def runArrayOps (dex : Dex.Tables) (m : Memory) (ops : List ArrayOp) : JavaRuntime × Arrays :=
  ops.foldl (ArrayOp.run dex) ({ mem := m }, fun _ => none)

/-! ## The records behind the arrays -/

namespace JArray

/-- The record keeps the array: the values of an array of objects, the low bytes of any other. -/
def Backs (a : JArray) (r : Record) : Prop :=
  if LifecycleRunner.ofObjects a.descriptor then
    r.kind = .objectArray ∧ r.elems.length = a.length ∧ ∀ i < a.length, r.elems.getD i 0 = a.value i
  else
    r.kind = .byteArray ∧ r.bytes.length = a.length ∧
      ∀ i < a.length, r.bytes.getD i 0 = ⟨(a.value i).setWidth 8⟩

theorem Backs.same {a : JArray} {r r' : Record} (h : a.Backs r) (hsame : SameArray r r') :
    a.Backs r' := by
  obtain ⟨hkind, hbytes, helems⟩ := hsame
  unfold Backs at *
  rwa [hkind, hbytes, helems]

end JArray

/-- Every array of the language is kept by a record. -/
def Backed (s : JavaRuntime) (A : Arrays) : Prop :=
  ∀ arr a, A arr = some a → ∃ r, s.handles arr = some r ∧ a.Backs r

variable {dex : Dex.Tables} {s s' : JavaRuntime} {A : Arrays} {arr : BitVec 64} {a : JArray}

/-- Steps that leave the arrays alone keep them backed. -/
theorem Backed.extend (hA : Backed s A) (hs : Fresh s) (h : Extends s s') :
    Fresh s' ∧ Backed s' A := by
  obtain ⟨hs', hkeep⟩ := h hs
  refine ⟨hs', fun arr a ha => ?_⟩
  obtain ⟨r, hr, hbacks⟩ := hA arr a ha
  obtain ⟨r', hr', hsame⟩ := hkeep arr r hr
  exact ⟨r', hr', hbacks.same hsame⟩

/-! ## One access -/

namespace Record

/-- What a read of an element of a record returns. -/
def aget (r : Record) (i : ℕ) : BitVec 64 :=
  match r.kind with
  | .byteArray => (r.bytes.getD i 0).toBitVec.setWidth 64
  | .objectArray => r.elems.getD i 0
  | _ => 0

/-- The record after a write to an element. -/
def aput (r : Record) (i : ℕ) (v : BitVec 64) : Record :=
  match r.kind with
  | .byteArray => { r with bytes := r.bytes.set i ⟨v.setWidth 8⟩ }
  | .objectArray => { r with elems := r.elems.set i v }
  | _ => r

/-- A write affects one element. -/
theorem aget_aput_of_ne {i j : ℕ} (h : i ≠ j) (r : Record) (v : BitVec 64) :
    (r.aput i v).aget j = r.aget j := by
  cases hkind : r.kind with
  | byteArray =>
    simp only [aget, aput, hkind, List.getD_eq_getElem?_getD, List.getElem?_set_ne h]
  | objectArray =>
    simp only [aget, aput, hkind, List.getD_eq_getElem?_getD, List.getElem?_set_ne h]
  | _ => simp only [aget, aput, hkind]

end Record

namespace LifecycleRunner

theorem byteRecord_of_kind {r : Record} (hr : s.handles arr = some r) :
    s.byteRecord arr = if r.kind = .byteArray then some r else none := by
  simp only [byteRecord, hr, Option.filter, decide_eq_true_eq]

/-- A read goes to the record of the array. -/
theorem onAget_eq {r : Record} (hr : s.handles arr = some r) {i : BitVec 32} (hi : ¬i.toInt < 0) :
    onAget arr i s = r.aget i.toNat := by
  rw [onAget, if_neg hi, byteRecord_of_kind hr]
  cases hkind : r.kind with
  | byteArray =>
    simp only [if_true, Record.aget, hkind]
    split
    · rfl
    · rw [List.getD_eq_default _ _ (by omega)]
      rfl
  | objectArray =>
    simp only [reduceCtorEq, if_false, objectArrayElement, hr, hkind, true_and, Record.aget]
    split
    · rfl
    · rw [List.getD_eq_default _ _ (by omega)]
  | _ => simp only [reduceCtorEq, if_false, objectArrayElement, hr, hkind, false_and, Record.aget]

theorem onAget_none (hr : s.handles arr = none) (i : BitVec 32) : onAget arr i s = 0 := by
  simp only [onAget, byteRecord, objectArrayElement, hr, Option.filter, ite_self]

theorem putRecord_self {r : Record} (hr : s.handles arr = some r) : s.putRecord arr r = s := by
  rw [putRecord, ← hr, Function.update_eq_self]

/-- A write goes to the record of the array. -/
theorem onAput_eq {r : Record} (hr : s.handles arr = some r) {i : BitVec 32} (hi : ¬i.toInt < 0)
    (v : BitVec 64) : onAput arr i v s = s.putRecord arr (r.aput i.toNat v) := by
  rw [onAput, if_neg hi, byteRecord_of_kind hr]
  cases hkind : r.kind with
  | byteArray =>
    simp only [if_true, Record.aput, hkind]
    split
    · rfl
    · rw [List.set_eq_of_length_le (by omega), ← hkind]
      exact (putRecord_self hr).symm
  | objectArray =>
    simp only [reduceCtorEq, if_false, setObjectArrayElement, hr, hkind, true_and, Record.aput]
    split
    · rfl
    · rw [List.set_eq_of_length_le (by omega), ← hkind]
      exact (putRecord_self hr).symm
  | _ =>
    simp only [reduceCtorEq, if_false, setObjectArrayElement, hr, hkind, false_and, Record.aput]
    rw [putRecord_self hr]

theorem onAput_none (hr : s.handles arr = none) (i : BitVec 32) (v : BitVec 64) :
    onAput arr i v s = s := by
  simp only [onAput, byteRecord, setObjectArrayElement, hr, Option.filter, ite_self]

/-- A write changes no other element of any array. -/
theorem onAget_onAput_of_ne {arr' : BitVec 64} {i i' : BitVec 32} (h : (arr', i') ≠ (arr, i))
    (v : BitVec 64) : onAget arr i (onAput arr' i' v s) = onAget arr i s := by
  by_cases hi' : i'.toInt < 0
  · rw [onAput, if_pos hi']
  cases hr' : s.handles arr' with
  | none => rw [onAput_none hr']
  | some r' =>
    rw [onAput_eq hr' hi']
    have hhandles := handles_putRecord s arr' arr (r'.aput i'.toNat v)
    by_cases hi : i.toInt < 0
    · rw [onAget, onAget, if_pos hi, if_pos hi]
    by_cases harr : arr = arr'
    · subst harr
      have hne : i'.toNat ≠ i.toNat := fun heq => h (by rw [BitVec.eq_of_toNat_eq heq])
      rw [if_pos rfl] at hhandles
      rw [onAget_eq hhandles hi, onAget_eq hr' hi, Record.aget_aput_of_ne hne]
    · rw [if_neg harr] at hhandles
      cases hr : s.handles arr with
      | none => rw [onAget_none (hhandles.trans hr), onAget_none hr]
      | some r => rw [onAget_eq (hhandles.trans hr) hi, onAget_eq hr hi]

end LifecycleRunner

/-! ## Whole runs -/

open LifecycleRunner

theorem JArray.length_put (a : JArray) (i : ℕ) (v : BitVec 64) : (a.put i v).length = a.length := by
  unfold put
  split
  · rfl
  · rfl

theorem JArray.descriptor_put (a : JArray) (i : ℕ) (v : BitVec 64) :
    (a.put i v).descriptor = a.descriptor := by
  unfold put
  split
  · rfl
  · rfl

theorem JArray.value_put (a : JArray) {i j : ℕ} (hj : j < a.length) (v : BitVec 64) :
    (a.put i v).value j = if j = i then v else a.value j := by
  unfold put
  split
  · exact Function.update_apply _ _ _ _
  · rw [if_neg (by omega)]

/-- The element lists on both sides change alike. -/
theorem getD_set_of_lt {α : Type*} {l : List α} {i j : ℕ} (hj : j < l.length) (v d : α) :
    (l.set i v).getD j d = if j = i then v else l.getD j d := by
  rw [List.getD_eq_getElem?_getD, List.getD_eq_getElem?_getD, List.getElem?_set]
  by_cases heq : i = j
  · simp [heq, hj]
  · simp [heq, Ne.symm heq]

/-- A write keeps an array backed by its record. -/
theorem JArray.Backs.aput {r : Record} (h : a.Backs r) (i : ℕ) (v : BitVec 64) :
    (a.put i v).Backs (r.aput i v) := by
  unfold Backs at *
  rw [descriptor_put, length_put]
  split
  · rw [if_pos ‹_›] at h
    obtain ⟨hkind, hlength, hvalues⟩ := h
    simp only [Record.aput, hkind, List.length_set]
    refine ⟨trivial, hlength, fun j hj => ?_⟩
    rw [getD_set_of_lt (by omega), value_put a hj, hvalues j hj]
  · rw [if_neg ‹_›] at h
    obtain ⟨hkind, hlength, hvalues⟩ := h
    simp only [Record.aput, hkind, List.length_set]
    refine ⟨trivial, hlength, fun j hj => ?_⟩
    rw [getD_set_of_lt (by omega), value_put a hj, hvalues j hj]
    split
    · rfl
    · rfl

/-- A write on both sides keeps every array backed. -/
theorem Backed.aput (hA : Backed s A) (hs : Fresh s) (arr : BitVec 64) (i : BitVec 32)
    (v : BitVec 64) : Fresh (onAput arr i v s) ∧ Backed (onAput arr i v s) (A.put arr i v) := by
  by_cases hi : i.toInt < 0
  · rw [onAput, Arrays.put, if_pos hi, if_pos hi]
    exact ⟨hs, hA⟩
  cases hr : s.handles arr with
  | none =>
    have hnone : A arr = none := by
      cases ha : A arr with
      | none => rfl
      | some a =>
        obtain ⟨r, hr', -⟩ := hA arr a ha
        cases hr.symm.trans hr'
    rw [onAput_none hr, Arrays.put, if_neg hi, hnone, Option.map_none, ← hnone,
      Function.update_eq_self]
    exact ⟨hs, hA⟩
  | some r =>
    rw [onAput_eq hr hi, Arrays.put, if_neg hi]
    refine ⟨hs.putRecord (by simp [hr]) _, fun arr' a' ha' => ?_⟩
    rw [Function.update_apply] at ha'
    rw [handles_putRecord]
    split at ha'
    · obtain rfl := ‹arr' = arr›
      obtain ⟨a, ha, rfl⟩ := Option.map_eq_some_iff.mp ha'
      obtain ⟨r₀, hr₀, hbacks⟩ := hA arr' a ha
      obtain rfl := Option.some.inj (hr.symm.trans hr₀)
      exact ⟨_, if_pos rfl, hbacks.aput _ _⟩
    · obtain ⟨r', hr', hbacks⟩ := hA arr' a' ha'
      exact ⟨r', (if_neg ‹_›).trans hr', hbacks⟩

/-- Both kinds of records start with zeros. -/
theorem onNewArray_eq (dex : Dex.Tables) (t : ℕ) (len : BitVec 32) :
    ∃ r cls, onNewArray dex t len = JavaRuntime.newArray r cls (arrayLen len) ∧
      (JArray.fresh (dex.typeAt t) (arrayLen len)).Backs r := by
  unfold onNewArray JArray.Backs JArray.fresh
  split
  · refine ⟨_, _, by rw [newObjectArray, List.length_replicate], ?_⟩
    exact ⟨rfl, List.length_replicate, fun i hi => by simp [hi]⟩
  · refine ⟨_, _, rfl, ?_⟩
    exact ⟨rfl, List.length_replicate, fun i hi => by simp [hi]⟩

/-- A new array is backed by the record it was made from. -/
theorem Backed.newArray (hA : Backed s A) (hs : Fresh s) {t : ℕ} {len : BitVec 32}
    (hrun : onNewArray dex t len s = .ok arr s') :
    Fresh s' ∧ Backed s' (Function.update A arr
      (some (.fresh (dex.typeAt t) (arrayLen len)))) := by
  obtain ⟨r, cls, heq, hbacks⟩ := onNewArray_eq dex t len
  rw [heq] at hrun
  have hextends := newArray_moves r cls (arrayLen len) s
  rw [hrun] at hextends
  obtain ⟨hs', hA'⟩ := hA.extend hs hextends
  obtain ⟨-, r', hr', hsame⟩ := newArray_spec hs hrun
  refine ⟨hs', fun arr' a' ha' => ?_⟩
  rw [Function.update_apply] at ha'
  split at ha'
  · obtain rfl := ‹arr' = arr›
    obtain rfl := Option.some.inj ha'
    exact ⟨r', hr', hbacks.same hsame⟩
  · exact hA' arr' a' ha'

/-- One step keeps handles fresh and arrays backed. -/
theorem Backed.step (dex : Dex.Tables) {w : JavaRuntime × Arrays} (hs : Fresh w.1)
    (hA : Backed w.1 w.2) (op : ArrayOp) : Fresh (op.run dex w).1 ∧
      Backed (op.run dex w).1 (op.run dex w).2 := by
  cases op with
  | newArray t len =>
    simp only [ArrayOp.run]
    cases hrun : onNewArray dex t len w.1 with
    | ok h s => exact hA.newArray hs hrun
    | error err s =>
      obtain ⟨r, cls, heq, -⟩ := onNewArray_eq dex t len
      have hextends := newArray_moves r cls (arrayLen len) w.1
      rw [← heq, hrun] at hextends
      exact hA.extend hs hextends
  | aput arr i v => exact hA.aput hs arr i v
  | findClass name => exact hA.extend hs (findClass_moves name w.1)
  | newObject cls => exact hA.extend hs (newObject_moves cls w.1)
  | memberId kind letter clazz name sig isStatic =>
    exact hA.extend hs (memberId_moves kind letter clazz name sig isStatic w.1)
  | setField obj name v => exact hA.extend hs (extends_setField obj name v w.1)
  | setStatic cls name v => exact hA.extend hs (extends_of_eq rfl rfl rfl)
  | javaAlloc len logAlign =>
    have hk : logAlign.val ≤ 12 := by omega
    rcases onMem_javaAlloc _ hs len.toNat_lt hk with
      ⟨err, m, hrun, hfresh⟩ | ⟨p, m, hrun, hfresh, -⟩
    · simp only [ArrayOp.run, hrun, final]
      exact ⟨hfresh, hA⟩
    · simp only [ArrayOp.run, hrun, final]
      exact ⟨hfresh, hA⟩
  | memory f hf => exact hA.extend hs (extends_of_eq rfl (hf _).1 (hf _).2)

/-- Hence after every run. -/
theorem backed_runArrayOps (dex : Dex.Tables) {m : Memory} (hm : m.javaNext = 0)
    (ops : List ArrayOp) :
    Fresh (runArrayOps dex m ops).1 ∧
      Backed (runArrayOps dex m ops).1 (runArrayOps dex m ops).2 := by
  have hstart : Fresh { mem := m } ∧ Backed { mem := m } (fun _ => none) := by
    refine ⟨⟨fun hne => absurd hm hne, fun h hh => ?_⟩, fun arr a ha => ?_⟩
    · cases hh
    · cases ha
  exact foldl_keeps (I := fun w : JavaRuntime × Arrays => Fresh w.1 ∧ Backed w.1 w.2)
    (fun w op hw => Backed.step dex hw.1 hw.2 op) hstart ops

/-- What an array owes an element: a read returns the value last stored there, and a write to any
other place does not change what a read returns. -/
structure Survives (s : JavaRuntime) (arr : BitVec 64) (a : JArray) (i : BitVec 32) : Prop where
  latest : onAget arr i s = a.value i.toNat
  alone : ∀ arr' i' v, (arr', i') ≠ (arr, i) →
    onAget arr i (onAput arr' i' v s) = onAget arr i s

/-- A read of a backed array returns the value, or its low byte. -/
theorem Backed.onAget (hA : Backed s A) (ha : A arr = some a) {i : BitVec 32}
    (hi : 0 ≤ i.toInt) (hlt : i.toNat < a.length) :
    LifecycleRunner.onAget arr i s = if ofObjects a.descriptor then a.value i.toNat
      else ((a.value i.toNat).setWidth 8).setWidth 64 := by
  obtain ⟨r, hr, hbacks⟩ := hA arr a ha
  rw [onAget_eq hr (by omega)]
  unfold JArray.Backs at hbacks
  split at hbacks
  · obtain ⟨hkind, -, hvalues⟩ := hbacks
    rw [if_pos ‹_›, ← hvalues _ hlt, Record.aget, hkind]
  · obtain ⟨hkind, -, hvalues⟩ := hbacks
    rw [if_neg ‹_›, Record.aget, hkind]
    simp only [hvalues _ hlt]

/-- The low byte of a word is the word if the word is below 256. -/
theorem setWidth_setWidth_eq_iff (v : BitVec 64) :
    (v.setWidth 8).setWidth 64 = v ↔ v.toNat < 256 := by
  rw [← BitVec.toNat_inj, BitVec.toNat_setWidth, BitVec.toNat_setWidth]
  omega

/-- In every run, an element of an array created by `new-array` survives if and only if the array
is one of objects or the value last stored there is below 256. -/
theorem survives_iff (dex : Dex.Tables) (m : Memory) (hm : m.javaNext = 0) (ops : List ArrayOp)
    (arr : BitVec 64) (a : JArray) (ha : (runArrayOps dex m ops).2 arr = some a) (i : BitVec 32)
    (hi : 0 ≤ i.toInt) (hlt : i.toNat < a.length) :
    Survives (runArrayOps dex m ops).1 arr a i ↔
      ofObjects a.descriptor ∨ (a.value i.toNat).toNat < 256 := by
  have hread := (backed_runArrayOps dex hm ops).2.onAget ha hi hlt
  constructor
  · intro h
    by_cases hobjects : ofObjects a.descriptor
    · exact .inl hobjects
    · rw [if_neg hobjects, h.latest, eq_comm, setWidth_setWidth_eq_iff] at hread
      exact .inr hread
  · intro h
    refine ⟨?_, fun arr' i' v hne => onAget_onAput_of_ne hne v⟩
    rw [hread]
    rcases h with hobjects | hsmall
    · rw [if_pos hobjects]
    · rw [(setWidth_setWidth_eq_iff _).mpr hsmall, ite_self]

/-- A file whose only type is `[I`. -/
def intArrays : Dex.Tables where
  data := [0, 0, 0, 0, 8, 0, 0, 0, 2, 0x5b, 0x49, 0]
  stringIds := ⟨1, 4⟩
  typeIds := ⟨1, 0⟩
  protoIds := ⟨0, 0⟩
  fieldIds := ⟨0, 0⟩
  methodIds := ⟨0, 0⟩
  classDefs := ⟨0, 0⟩

/-- A fresh runtime can create an `int` array of one element. -/
theorem onNewArray_init : ∃ s,
    onNewArray intArrays 0 1 { mem := Memory.init .arm64 false false } = .ok firstHandle s := by
  have hbytes : onNewArray intArrays 0 1 =
      JavaRuntime.newArray { kind := .byteArray, bytes := [0] } (Bytes.ascii "[B") 1 := rfl
  rw [hbytes, JavaRuntime.newArray, bind_ok (alloc_init _)]
  exact ⟨_, rfl⟩

/-- A new array with one value stored. -/
theorem runArrayOps_newArray_aput {m : Memory} {t : ℕ} {len i : BitVec 32} {h : BitVec 64}
    (hrun : onNewArray dex t len { mem := m } = .ok h s) (hi : ¬i.toInt < 0) (v : BitVec 64) :
    (runArrayOps dex m [.newArray t len, .aput h i v]).2 h =
      some ((JArray.fresh (dex.typeAt t) (arrayLen len)).put i.toNat v) := by
  simp only [runArrayOps, List.foldl_cons, List.foldl_nil, ArrayOp.run, hrun, Arrays.put, if_neg hi,
    Function.update_self, Option.map_some]

theorem runArrayOps_store (v : BitVec 64) :
    (runArrayOps intArrays (Memory.init .arm64 false false)
      [.newArray 0 1, .aput firstHandle 0 v]).2 firstHandle =
      some ((JArray.fresh (intArrays.typeAt 0) 1).put 0 v) := by
  obtain ⟨s, hs⟩ := onNewArray_init
  exact runArrayOps_newArray_aput hs (by decide) v

/-- A small value in an `int` array survives. -/
theorem survives_iff_seven :
    (runArrayOps intArrays (Memory.init .arm64 false false)
      [.newArray 0 1, .aput firstHandle 0 7]).2 firstHandle =
        some ((JArray.fresh (intArrays.typeAt 0) 1).put 0 7) ∧
    Survives (runArrayOps intArrays (Memory.init .arm64 false false)
      [.newArray 0 1, .aput firstHandle 0 7]).1 firstHandle
      ((JArray.fresh (intArrays.typeAt 0) 1).put 0 7) 0 := by
  refine ⟨runArrayOps_store 7, ?_⟩
  exact (survives_iff intArrays (Memory.init .arm64 false false) rfl _ _ _ (runArrayOps_store 7) 0
    (by decide) (by decide)).mpr (.inr (by decide))

/-- A larger one reads back as its low byte. -/
theorem int_element_truncated :
    ¬Survives (runArrayOps intArrays (Memory.init .arm64 false false)
      [.newArray 0 1, .aput firstHandle 0 300]).1 firstHandle
      ((JArray.fresh (intArrays.typeAt 0) 1).put 0 300) 0 := by
  intro h
  have hread := (backed_runArrayOps intArrays (m := Memory.init .arm64 false false) rfl
    [.newArray 0 1, .aput firstHandle 0 300]).2.onAget (runArrayOps_store 300) (i := 0)
    (by decide) (by decide)
  rw [h.latest] at hread
  revert hread
  decide

end Vardoger
