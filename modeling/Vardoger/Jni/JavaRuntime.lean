import Vardoger.Engine.Memory
import Mathlib.Logic.Function.Basic

/-!
# The Java runtime behind the JNI bridge

A handle that the guest sees is the address of a shadow object in the Java region. The runtime keeps
a record for each handle, caches classes and members by name, and holds the values of the fields.
A value is a tagged triple of which each accessor reads one member. All 64-bit words are bit
vectors, so the casts between `int64_t` and `uint64_t` are silent; strings are byte strings.
-/

namespace Vardoger

open Bytes

inductive ValueKind
  | void | int | double | object
  deriving DecidableEq, Repr

/-- A Java value at the JNI boundary; a `double` is its bit pattern. -/
structure DvmValue where
  kind : ValueKind := .void
  i : BitVec 64 := 0
  d : BitVec 64 := 0
  obj : BitVec 64 := 0
  deriving DecidableEq, Repr

namespace DvmValue

def V : DvmValue := {}

def I (x : BitVec 64) : DvmValue := { kind := .int, i := x }

def D (x : BitVec 64) : DvmValue := { kind := .double, d := x }

def O (h : BitVec 64) : DvmValue := { kind := .object, obj := h }

end DvmValue

inductive RecordKind
  | clazz | method | field | string | object | byteArray | objectArray
  deriving DecidableEq, Repr

/-- What the runtime knows of a handle. -/
structure Record where
  kind : RecordKind
  name : List UInt8 := []
  sig : List UInt8 := []
  owner : List UInt8 := []
  utf8 : List UInt8 := []
  isStatic : Bool := false
  nativeFn : BitVec 64 := 0
  fields : List UInt8 → Option DvmValue := fun _ => none
  bytes : List UInt8 := []
  elems : List (BitVec 64) := []

/-- A native method that the guest has registered. -/
structure Native where
  cls : List UInt8
  name : List UInt8
  sig : List UInt8
  fn : BitVec 64
  deriving DecidableEq, Repr

structure JavaRuntime where
  mem : Memory
  handles : BitVec 64 → Option Record := fun _ => none
  classByName : List UInt8 → Option (BitVec 64) := fun _ => none
  memberCache : List UInt8 → Option (BitVec 64) := fun _ => none
  staticFields : List UInt8 → Option DvmValue := fun _ => none
  fieldDefaults : List UInt8 → Option DvmValue := fun _ => none
  /-- Whether an observer of byte arrays is installed. -/
  observed : Bool := false
  /-- The byte strings the observer was told of, with where they were seen, the latest one last. -/
  notified : List (List UInt8 × List UInt8) := []
  /-- The native methods in the order of their registration. -/
  registered : List Native := []

abbrev JavaM := EStateM Failure JavaRuntime

namespace JavaRuntime

def kShadowSize : ℕ := 0x80

def kClassOff : ℕ := 0

def kLengthOff : ℕ := 8

def onMem {α : Type} (x : MemM α) : JavaM α := fun s =>
  match x s.mem with
  | .ok a m => .ok a { s with mem := m }
  | .error err m => .error err { s with mem := m }

/-- `write_t<uint32_t>`. -/
def write32 (addr v : ℕ) : JavaM Unit :=
  onMem (Memory.onEngine (·.write addr (LittleEndian.toBytes 4 v)))

/-! ## Handles -/

/-- `handles_.emplace`: an entry that exists is kept. -/
def emplace (h : BitVec 64) (r : Record) (s : JavaRuntime) : JavaRuntime :=
  if (s.handles h).isSome then s else { s with handles := Function.update s.handles h (some r) }

/-- A fresh shadow object for a record. -/
def alloc (r : Record) : JavaM (BitVec 64) := do
  let addr ← onMem (Memory.javaAlloc kShadowSize 16)
  let h := BitVec.ofNat 64 addr
  modify (emplace h r)
  return h

/-- A string of a record of the expected kind, empty for any other handle. -/
def text (s : JavaRuntime) (kind : RecordKind) (part : Record → List UInt8) (h : BitVec 64) :
    List UInt8 :=
  match s.handles h with
  | some r => if r.kind = kind then part r else []
  | none => []

def className (s : JavaRuntime) (h : BitVec 64) : List UInt8 := s.text .clazz Record.name h

def methodName (s : JavaRuntime) (mid : BitVec 64) : List UInt8 := s.text .method Record.name mid

def methodSig (s : JavaRuntime) (mid : BitVec 64) : List UInt8 := s.text .method Record.sig mid

def fieldName (s : JavaRuntime) (fid : BitVec 64) : List UInt8 := s.text .field Record.name fid

def fieldOwner (s : JavaRuntime) (fid : BitVec 64) : List UInt8 := s.text .field Record.owner fid

/-! ## Classes and members -/

def findClass (name : List UInt8) : JavaM (BitVec 64) := do
  match (← get).classByName name with
  | some h => return h
  | none =>
      let h ← alloc { kind := .clazz, name := name }
      modify fun s => { s with classByName := Function.update s.classByName name (some h) }
      write32 h.toNat h.toNat
      return h

/-- The key under which a member is cached. -/
def memberKey (owner : List UInt8) (kind : String) (isStatic : Bool) (name sig : List UInt8) :
    List UInt8 :=
  owner ++ ascii "|" ++ ascii (if isStatic then "S" else "v") ++ ascii kind ++ ascii "|" ++ name ++
    ascii "|" ++ sig

/-- The lookup that methods and fields share. -/
def memberId (kind : RecordKind) (letter : String) (clazz : BitVec 64) (name sig : List UInt8)
    (isStatic : Bool) : JavaM (BitVec 64) := do
  let s ← get
  let owner := s.className clazz
  let key := memberKey owner letter isStatic name sig
  match s.memberCache key with
  | some h => return h
  | none =>
      let h ← alloc { kind, name, sig, owner, isStatic }
      modify fun s => { s with memberCache := Function.update s.memberCache key (some h) }
      return h

def getMethodId (clazz : BitVec 64) (name sig : List UInt8) (isStatic : Bool) :
    JavaM (BitVec 64) :=
  memberId .method "M" clazz name sig isStatic

def getFieldId (clazz : BitVec 64) (name sig : List UInt8) (isStatic : Bool) :
    JavaM (BitVec 64) :=
  memberId .field "F" clazz name sig isStatic

/-- Set the function of a method record, `get(mid)->native_fn = fn`. -/
def setNativeFn (mid fn : BitVec 64) (s : JavaRuntime) : JavaRuntime :=
  match s.handles mid with
  | some r => { s with handles := Function.update s.handles mid (some { r with nativeFn := fn }) }
  | none => s

def registerNative (clazz : BitVec 64) (name sig : List UInt8) (fn : BitVec 64) : JavaM Unit := do
  let mid ← getMethodId clazz name sig false
  modify (setNativeFn mid fn)
  modify fun s => { s with registered := s.registered ++ [⟨s.className clazz, name, sig, fn⟩] }

/-- The first registration for the class, or else the only one with the name. -/
def lookupNative (s : JavaRuntime) (cls name : List UInt8) : BitVec 64 :=
  match s.registered.find? fun n => n.cls = cls && n.name = name with
  | some n => n.fn
  | none =>
      match s.registered.filter fun n => n.name = name with
      | [n] => n.fn
      | _ => 0

/-! ## Objects -/

def newObject (cls : List UInt8) : JavaM (BitVec 64) := do
  let h ← alloc { kind := .object, owner := cls }
  let c ← findClass cls
  write32 (h.toNat + kClassOff) c.toNat
  return h

def newStringUtf (x : List UInt8) : JavaM (BitVec 64) := do
  let h ← alloc { kind := .string, utf8 := x }
  let c ← findClass (ascii "java/lang/String")
  write32 (h.toNat + kClassOff) c.toNat
  return h

def stringOf (s : JavaRuntime) (h : BitVec 64) : Option (List UInt8) :=
  ((s.handles h).filter fun r => r.kind = .string).map Record.utf8

/-- The class of an object or a string, `0` if there is none. -/
def classOf (s : JavaRuntime) (obj : BitVec 64) : BitVec 64 :=
  match s.handles obj with
  | none => 0
  | some r =>
      match r.kind with
      | .object => (s.classByName r.owner).getD 0
      | .string => (s.classByName (ascii "java/lang/String")).getD 0
      | _ => 0

/-! ## Arrays -/

/-- The steps that both kinds of arrays share: the record, the class word and the length word. -/
def newArray (r : Record) (cls : List UInt8) (n : ℕ) : JavaM (BitVec 64) := do
  let h ← alloc r
  let c ← findClass cls
  write32 (h.toNat + kClassOff) c.toNat
  write32 (h.toNat + kLengthOff) n
  return h

def newByteArray (len : ℕ) : JavaM (BitVec 64) :=
  newArray { kind := .byteArray, bytes := List.replicate len 0 } (ascii "[B") len

/-- `new_byte_array` with the contents of the array. -/
def newByteArrayOf (bytes : List UInt8) : JavaM (BitVec 64) :=
  newArray { kind := .byteArray, bytes } (ascii "[B") bytes.length

def newObjectArray (elems : List (BitVec 64)) : JavaM (BitVec 64) :=
  newArray { kind := .objectArray, elems } (ascii "[Ljava/lang/Object;") elems.length

/-- The record of a byte array; `bytes_ptr` and `bytes_view`. -/
def byteRecord (s : JavaRuntime) (arr : BitVec 64) : Option Record :=
  (s.handles arr).filter fun r => r.kind = .byteArray

/-- Tell the observer, if there is one. -/
def notifyBytes (bytes src : List UInt8) (s : JavaRuntime) : JavaRuntime :=
  if s.observed then { s with notified := s.notified ++ [(bytes, src)] } else s

/-- The length of an array, `0` for any other handle. -/
def arrayLength (s : JavaRuntime) (arr : BitVec 64) : ℕ :=
  match s.handles arr with
  | none => 0
  | some r =>
      match r.kind with
      | .byteArray => r.bytes.length
      | .objectArray => r.elems.length
      | _ => 0

def objectArrayElement (s : JavaRuntime) (arr : BitVec 64) (i : ℕ) : BitVec 64 :=
  match s.handles arr with
  | some r => if r.kind = .objectArray ∧ i < r.elems.length then r.elems.getD i 0 else 0
  | none => 0

def setObjectArrayElement (arr : BitVec 64) (i : ℕ) (v : BitVec 64) (s : JavaRuntime) :
    JavaRuntime :=
  match s.handles arr with
  | some r =>
      if r.kind = .objectArray ∧ i < r.elems.length then
        { s with
          handles := Function.update s.handles arr (some { r with elems := r.elems.set i v }) }
      else s
  | none => s

/-! ## Fields -/

/-- Store a field of an object; a handle without a record is ignored. -/
def setField (obj : BitVec 64) (name : List UInt8) (v : DvmValue) (s : JavaRuntime) :
    JavaRuntime :=
  match s.handles obj with
  | none => s
  | some r =>
      let r := { r with fields := Function.update r.fields name (some v) }
      { s with handles := Function.update s.handles obj (some r) }

/-- The field of an object, or the default of that field name. -/
def getField (s : JavaRuntime) (obj : BitVec 64) (name : List UInt8) : DvmValue :=
  match (s.handles obj).bind fun r => r.fields name with
  | some v => v
  | none => (s.fieldDefaults name).getD DvmValue.V

def setFieldDefault (name : List UInt8) (v : DvmValue) (s : JavaRuntime) : JavaRuntime :=
  { s with fieldDefaults := Function.update s.fieldDefaults name (some v) }

/-- The key of a static field. -/
def skey (cls name : List UInt8) : List UInt8 := cls ++ [0x1f] ++ name

def setStatic (cls name : List UInt8) (v : DvmValue) (s : JavaRuntime) : JavaRuntime :=
  { s with staticFields := Function.update s.staticFields (skey cls name) (some v) }

def getStatic (s : JavaRuntime) (cls name : List UInt8) : DvmValue :=
  (s.staticFields (skey cls name)).getD DvmValue.V

end JavaRuntime

end Vardoger
