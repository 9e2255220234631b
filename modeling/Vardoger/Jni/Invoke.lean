import Vardoger.Dex.ClassData
import Vardoger.Dex.Dalvik
import Vardoger.Jni.Handles

/-!
# Method calls of the bytecode interpreter

The callback for the `invoke` instructions looks a method up by its name and its shorty, in at most
eight classes: those of the receiver for a virtual call, then those of the declared class. What
a call should run is said in terms of method indices and full prototypes. The two agree exactly
if the lookup gets as far as the right method and meets no other one of its name and shorty before.
-/

namespace Vardoger

open Stateful Bytes

/-! ## The callback -/

namespace Dex

/-- The descriptor of a class name with dots or slashes; a name that starts with `L` is taken for
a descriptor. -/
def binaryToDescriptor (bin : List UInt8) : List UInt8 :=
  if bin ≠ [] ∧ (0x2f : UInt8) ∉ bin ∧ (0x2e : UInt8) ∈ bin then
    ascii "L" ++ bin.map (fun c => if c = 0x2e then 0x2f else c) ++ ascii ";"
  else if bin ≠ [] ∧ bin.head? ≠ some 0x4c then ascii "L" ++ bin ++ ascii ";"
  else bin

/-- The methods of a class in the order of the lookup. -/
def ClassDef.methods (c : ClassDef) : List Method := c.directMethods ++ c.virtualMethods

namespace DexFile

/-- The first class with a descriptor. -/
def classOf (f : DexFile) (desc : List UInt8) : Option ClassDef :=
  f.classes.find? fun c => c.descriptor = desc

/-- The test of the lookup: same name, same shorty, and there is code. -/
def candidate (name sig : List UInt8) (m : Method) : Bool :=
  m.name = name && m.sig = sig && m.codeOff ≠ 0

end DexFile

end Dex

open Dex

namespace LifecycleRunner

/-- The number of classes a lookup goes through. -/
def kMaxHops : ℕ := 8

/-- The loop of `find_code`, from a class up its superclasses. -/
def findCodeLoop (f : DexFile) (name sig : List UInt8) : (hops : ℕ) → (cur : List UInt8) → ℕ
  | 0, _ => 0
  | hops + 1, cur =>
      if cur = [] then 0
      else
        match f.classOf cur with
        | none => 0
        | some c =>
            match c.directMethods.find? (DexFile.candidate name sig) with
            | some mm => mm.codeOff
            | none =>
                match c.virtualMethods.find? (DexFile.candidate name sig) with
                | some mm => mm.codeOff
                | none => findCodeLoop f name sig hops c.superclass

def findCode (f : DexFile) (desc name sig : List UInt8) : ℕ := findCodeLoop f name sig kMaxHops desc

/-- What a call does: interpret a code item, or something else (a native, a host method, the model
of a class loader, nothing). -/
inductive Action
  | run (codeOff : ℕ) (args : List (BitVec 64))
  | elsewhere
  deriving DecidableEq, Repr

/-- The methods that take a class name. -/
def namey : List (List UInt8) :=
  ["loadClass", "forName", "interface23", "findClass", "al"].map ascii

/-- The place of the class name among the arguments. -/
def nameSlot (kind : InvokeKind) (a : List (BitVec 64)) : ℕ :=
  if kind = .static then a.length - 1 else 1

/-- Whether a class name is missing. -/
def lacksName (kind : InvokeKind) (m : Method) (a : List (BitVec 64)) : Bool :=
  m.name ∈ namey && !a.isEmpty && a[nameSlot kind a]? = some 0

/-- The guard against a missing class name: the call is made again with the entry class. Its name
has a handle other than zero, so the guard does not apply twice. -/
def guardName (entryClass : List UInt8) (kind : InvokeKind) (m : Method) (a : List (BitVec 64)) :
    JavaM (List (BitVec 64)) := do
  if lacksName kind m a then
    let h ← JavaRuntime.newStringUtf entryClass
    return a.set (nameSlot kind a) h
  else
    return a

/-- The code offset for the class of the receiver, `0` if there is none or no receiver. -/
def receiverCode (f : DexFile) (s : JavaRuntime) (kind : InvokeKind) (m : Method)
    (a : List (BitVec 64)) : ℕ :=
  match a with
  | [] => 0
  | obj :: _ =>
      if (kind = .virtual ∨ kind = .interface) ∧ obj ≠ 0 ∧ s.className (s.classOf obj) ≠ [] then
        findCode f (binaryToDescriptor (s.className (s.classOf obj))) m.name m.sig
      else 0

/-- The choice between the code of the superclass, of the receiver and of the declared class. -/
def dispatch (f : DexFile) (s : JavaRuntime) (kind : InvokeKind) (m : Method)
    (a : List (BitVec 64)) : Action :=
  if kind = .super then
    let sup := ((f.classOf m.cls).map ClassDef.superclass).getD []
    if findCode f sup m.name m.sig ≠ 0 then .run (findCode f sup m.name m.sig) a else .elsewhere
  else if receiverCode f s kind m a ≠ 0 then .run (receiverCode f s kind m a) a
  else if findCode f m.cls m.name m.sig ≠ 0 then .run (findCode f m.cls m.name m.sig) a
  else .elsewhere

def onInvoke (f : DexFile) (entryClass : List UInt8) (kind : InvokeKind) (midx : ℕ)
    (a : List (BitVec 64)) : JavaM Action := do
  let m := f.methodAt midx
  let a ← guardName entryClass kind m a
  return dispatch f (← get) kind m a

end LifecycleRunner

open LifecycleRunner

/-- The call interprets the code item at an offset: it is chosen, it is valid, and the nesting is
not too deep. -/
def Interprets (f : DexFile) (depth off : ℕ) : EStateM.Result Failure JavaRuntime Action → Prop
  | .ok (.run codeOff _) _ => codeOff = off ∧ (f.codeAt off).valid ∧ depth < Dalvik.kMaxDepth
  | _ => False

/-! ## What a call should run -/

namespace Dex

/-- A full prototype. -/
structure Proto where
  returnType : List UInt8
  params : List (List UInt8)
  deriving DecidableEq, Repr

namespace Tables

/-- The types of a `type_list`; offset `0` stands for the empty list. -/
def typeList (t : Tables) (off : ℕ) : List (List UInt8) :=
  if off = 0 then []
  else (List.range (rd32 t.data off)).map fun i =>
    t.typeAt (LittleEndian.wordAt 2 t.data (off + 4 + 2 * i))

/-- The prototype of a `proto_id`. -/
def protoAt (t : Tables) (idx : ℕ) : Proto :=
  ⟨t.typeAt (rd32 t.data (t.protoIds.off + idx * 12 + 4)),
    t.typeList (rd32 t.data (t.protoIds.off + idx * 12 + 8))⟩

/-- The prototype of a `method_id`. -/
def methodProto (t : Tables) (midx : ℕ) : Proto :=
  t.protoAt (t.idEntry (t.methodIds.off + midx * 8)).2.1

/-- The class data of a class lists a method with code. -/
def Defines (t : Tables) (c : ClassDef) (midx off : ℕ) : Prop :=
  off ≠ 0 ∧ ∃ e, e.codeOff = off ∧
    (midx, e) ∈ indexed 0 (t.classData c.classDataOff).directMethods ++
      indexed 0 (t.classData c.classDataOff).virtualMethods

/-- Two method ids with one name and one prototype. -/
def SameSignature (t : Tables) (midx midx' : ℕ) : Prop :=
  (t.methodAt midx').name = (t.methodAt midx).name ∧ t.methodProto midx' = t.methodProto midx

end Tables

/-- The code of the first class, from a class up its superclasses, that defines a method with the
name and the prototype of `midx`. -/
inductive Overrides (f : DexFile) (midx : ℕ) : List UInt8 → ℕ → Prop
  | here {desc : List UInt8} {c : ClassDef} {midx' off : ℕ} : f.classOf desc = some c →
      f.Defines c midx' off → f.SameSignature midx midx' → Overrides f midx desc off
  | inherited {desc : List UInt8} {c : ClassDef} {off : ℕ} : f.classOf desc = some c →
      (∀ midx' off', f.Defines c midx' off' → ¬f.SameSignature midx midx') →
      Overrides f midx c.superclass off → Overrides f midx desc off

end Dex

/-- An object or a string has a class of that name. -/
def JavaRuntime.HasClass (s : JavaRuntime) (obj : BitVec 64) (name : List UInt8) : Prop :=
  ∃ r c rc, s.handles obj = some r ∧
    (r.kind = .object ∧ s.classByName r.owner = some c ∨
      r.kind = .string ∧ s.classByName (ascii "java/lang/String") = some c) ∧
    s.handles c = some rc ∧ rc.kind = .clazz ∧ rc.name = name

/-- The code item that a call should run: the method's own for a static or direct call, and that of
the overriding method for a virtual call. -/
inductive Expected (f : DexFile) (s : JavaRuntime) (kind : InvokeKind) (midx : ℕ) :
    List (BitVec 64) → ℕ → Prop
  | own {a : List (BitVec 64)} {c : ClassDef} {off : ℕ} : kind = .static ∨ kind = .direct →
      f.classOf (f.methodAt midx).cls = some c → f.Defines c midx off → Expected f s kind midx a off
  | override {obj : BitVec 64} {a : List (BitVec 64)} {desc : List UInt8} {off : ℕ} :
      kind = .virtual → obj ≠ 0 → s.HasClass obj (jniName desc) → jniName desc ≠ [] →
      Overrides f midx desc off → Expected f s kind midx (obj :: a) off

/-- The call runs the code item it should. -/
def InvokesRight (f : DexFile) (s : JavaRuntime) (depth : ℕ) (entryClass : List UInt8)
    (kind : InvokeKind) (midx : ℕ) (a : List (BitVec 64)) : Prop :=
  ∀ off, Expected f s kind midx a off →
    Interprets f depth off (onInvoke f entryClass kind midx a s)

/-! ## When it does -/

namespace Dex.DexFile

/-- The classes from a descriptor up its superclasses, at most `n` of them. -/
def chain (f : DexFile) : (n : ℕ) → (desc : List UInt8) → List ClassDef
  | 0, _ => []
  | n + 1, desc =>
      if desc = [] then []
      else
        match f.classOf desc with
        | none => []
        | some c => c :: f.chain n c.superclass

end Dex.DexFile

namespace LifecycleRunner

/-- The methods a lookup from a class meets, in its order. -/
def visible (f : DexFile) (desc : List UInt8) : List Method :=
  (f.chain kMaxHops desc).flatMap ClassDef.methods

/-- The methods of the receiver's class that a virtual call meets. -/
def receiverVisible (f : DexFile) (s : JavaRuntime) (kind : InvokeKind) :
    List (BitVec 64) → List Method
  | [] => []
  | obj :: _ =>
      if (kind = .virtual ∨ kind = .interface) ∧ obj ≠ 0 ∧ s.className (s.classOf obj) ≠ [] then
        visible f (binaryToDescriptor (s.className (s.classOf obj)))
      else []

/-- The methods that a call other than one to the superclass meets. -/
def searched (f : DexFile) (s : JavaRuntime) (kind : InvokeKind) (m : Method)
    (a : List (BitVec 64)) : List Method := receiverVisible f s kind a ++ visible f m.cls

/-- Some method of the list with the name and shorty of `m` has the code, and every other method
with this name and shorty that has other code comes after one with the code. -/
def Unrivalled (methods : List Method) (m : Method) (off : ℕ) : Prop :=
  (∃ e ∈ methods, DexFile.candidate m.name m.sig e ∧ e.codeOff = off) ∧
    ∀ before rival after, methods = before ++ rival :: after →
      DexFile.candidate m.name m.sig rival → rival.codeOff ≠ off →
      ∃ e ∈ before, DexFile.candidate m.name m.sig e ∧ e.codeOff = off

/-- The conditions for a call to run a code item: the lookup meets it before any rival, the code is
valid, the nesting is not too deep, and a missing class name can be replaced. -/
structure Reaches (f : DexFile) (s : JavaRuntime) (depth : ℕ) (entryClass : List UInt8)
    (kind : InvokeKind) (m : Method) (a : List (BitVec 64)) (off : ℕ) : Prop where
  unrivalled : Unrivalled (searched f s kind m a) m off
  valid : (f.codeAt off).valid
  shallow : depth < Dalvik.kMaxDepth
  named : lacksName kind m a → ∃ h s', JavaRuntime.newStringUtf entryClass s = .ok h s'

variable {f : DexFile} {s s' : JavaRuntime} {kind : InvokeKind} {m : Method}
  {a : List (BitVec 64)} {off : ℕ}

/-- The lookup is a search in the methods it meets. -/
theorem findCode_eq (f : DexFile) (desc name sig : List UInt8) :
    findCode f desc name sig =
      (((visible f desc).find? (DexFile.candidate name sig)).map Method.codeOff).getD 0 := by
  unfold findCode visible
  generalize kMaxHops = hops
  induction hops generalizing desc with
  | zero => rfl
  | succ hops ih =>
    rw [findCodeLoop, DexFile.chain]
    by_cases hempty : desc = []
    · rw [if_pos hempty, if_pos hempty]
      rfl
    · rw [if_neg hempty, if_neg hempty]
      cases hclass : f.classOf desc with
      | none => rfl
      | some c =>
        simp only [List.flatMap_cons, List.find?_append, ClassDef.methods]
        cases hdirect : c.directMethods.find? (DexFile.candidate name sig) with
        | some mm => rfl
        | none =>
          cases hvirtual : c.virtualMethods.find? (DexFile.candidate name sig) with
          | some mm => rfl
          | none => exact ih c.superclass

theorem codeOff_ne_zero {name sig : List UInt8} {e : Method} {methods : List Method}
    (h : methods.find? (DexFile.candidate name sig) = some e) : e.codeOff ≠ 0 := by
  have hcandidate := List.find?_some h
  simp only [DexFile.candidate, Bool.and_eq_true, decide_eq_true_eq] at hcandidate
  exact hcandidate.2

theorem receiverCode_eq (f : DexFile) (s : JavaRuntime) (kind : InvokeKind) (m : Method)
    (a : List (BitVec 64)) :
    receiverCode f s kind m a = (((receiverVisible f s kind a).find?
      (DexFile.candidate m.name m.sig)).map Method.codeOff).getD 0 := by
  cases a with
  | nil => rfl
  | cons obj a =>
    simp only [receiverCode, receiverVisible]
    split
    · exact findCode_eq _ _ _ _
    · rfl

/-- A call runs the first method it meets that has the name, the shorty and code. -/
theorem dispatch_eq (hkind : kind ≠ .super) :
    dispatch f s kind m a =
      match (searched f s kind m a).find? (DexFile.candidate m.name m.sig) with
      | some e => .run e.codeOff a
      | none => .elsewhere := by
  rw [dispatch, if_neg hkind, receiverCode_eq, findCode_eq, searched, List.find?_append]
  cases hfirst : (receiverVisible f s kind a).find? (DexFile.candidate m.name m.sig) with
  | some e =>
    rw [if_pos]
    · rfl
    · exact codeOff_ne_zero hfirst
  | none =>
    rw [if_neg (by simp), Option.none_or]
    cases hsecond : (visible f m.cls).find? (DexFile.candidate m.name m.sig) with
    | some e =>
      rw [if_pos]
      · rfl
      · exact codeOff_ne_zero hsecond
    | none => rfl

/-- The code is unrivalled exactly if the search finds it. -/
theorem unrivalled_iff (methods : List Method) (m : Method) (off : ℕ) :
    Unrivalled methods m off ↔
      ∃ e, methods.find? (DexFile.candidate m.name m.sig) = some e ∧ e.codeOff = off := by
  constructor
  · rintro ⟨⟨e, hmem, hcandidate, hcode⟩, hrivals⟩
    obtain ⟨first, hfirst⟩ : ∃ e, methods.find? (DexFile.candidate m.name m.sig) = some e := by
      rw [← Option.isSome_iff_exists, List.find?_isSome]
      exact ⟨e, hmem, hcandidate⟩
    refine ⟨first, hfirst, Classical.byContradiction fun hother => ?_⟩
    obtain ⟨hcandidate', before, after, hsplit, hnone⟩ := List.find?_eq_some_iff_append.mp hfirst
    obtain ⟨e', hmem', he', -⟩ := hrivals before first after hsplit hcandidate' hother
    have hnot := hnone e' hmem'
    rw [he'] at hnot
    cases hnot
  · rintro ⟨e, hfirst, hcode⟩
    refine ⟨⟨e, List.mem_of_find?_eq_some hfirst, List.find?_some hfirst, hcode⟩, ?_⟩
    rintro before rival after rfl hcandidate hother
    rw [List.find?_append] at hfirst
    cases hbefore : before.find? (DexFile.candidate m.name m.sig) with
    | some e' =>
      rw [hbefore] at hfirst
      obtain rfl := Option.some.inj hfirst
      exact ⟨e', List.mem_of_find?_eq_some hbefore, List.find?_some hbefore, hcode⟩
    | none =>
      rw [hbefore, Option.none_or, List.find?_cons_of_pos hcandidate] at hfirst
      obtain rfl := Option.some.inj hfirst
      exact absurd hcode hother

end LifecycleRunner

/-! ## The guard -/

namespace JavaRuntime

variable {s s' : JavaRuntime}

/-- Records and classes are added, none is replaced. -/
def Adds (s s' : JavaRuntime) : Prop :=
  (∀ h r, s.handles h = some r → s'.handles h = some r) ∧
    ∀ n c, s.classByName n = some c → s'.classByName n = some c

instance : Std.Refl Adds := ⟨fun _ => ⟨fun _ _ h => h, fun _ _ h => h⟩⟩

instance : IsTrans JavaRuntime Adds :=
  ⟨fun _ _ _ h h' => ⟨fun a r hr => h'.1 a r (h.1 a r hr), fun n c hc => h'.2 n c (h.2 n c hc)⟩⟩

/-- An operation of the memory manager changes no record. -/
theorem onMem_keeps {α : Type} (x : MemM α) (s : JavaRuntime) :
    (final (onMem x s)).handles = s.handles ∧ (final (onMem x s)).classByName = s.classByName := by
  unfold onMem
  cases x s.mem with
  | ok a m => exact ⟨rfl, rfl⟩
  | error err m => exact ⟨rfl, rfl⟩

theorem adds_of_eq (hhandles : s'.handles = s.handles) (hclasses : s'.classByName = s.classByName) :
    Adds s s' := by
  refine ⟨fun a r hr => ?_, fun n c hc => ?_⟩
  · rw [hhandles, hr]
  · rw [hclasses, hc]

theorem onMem_adds {α : Type} (x : MemM α) : Moves Adds (onMem x) :=
  fun s => adds_of_eq (onMem_keeps x s).1 (onMem_keeps x s).2

theorem emplace_adds (h : BitVec 64) (r : Record) (s : JavaRuntime) : Adds s (emplace h r s) := by
  unfold emplace
  split
  · exact refl_of Adds s
  · refine ⟨fun a r' hr' => ?_, fun n c hc => hc⟩
    have hne : a ≠ h := fun heq => by
      rw [heq] at hr'
      simp_all
    exact (Function.update_of_ne hne _ _).trans hr'

theorem alloc_adds (r : Record) : Moves Adds (alloc r) := by
  refine moves_bind (onMem_adds _) fun addr => ?_
  exact moves_bind (moves_modify fun s => emplace_adds _ _ s) fun _ => moves_pure _

/-- A class that is not known yet is added. -/
theorem findClass_adds (name : List UInt8) : Moves Adds (findClass name) := by
  intro s
  rw [findClass, get_bind]
  cases hknown : s.classByName name with
  | some h => exact refl_of Adds s
  | none =>
    have hadds := alloc_adds { kind := .clazz, name := name } s
    cases hrun : alloc { kind := .clazz, name := name } s with
    | error err s₁ =>
      rw [hrun] at hadds
      dsimp only
      rw [bind_error hrun]
      exact hadds
    | ok h s₁ =>
      rw [hrun] at hadds
      dsimp only
      rw [bind_ok hrun, modify_bind]
      have hmid : Adds s
          { s₁ with classByName := Function.update s₁.classByName name (some h) } := by
        refine ⟨hadds.1, fun n c hc => ?_⟩
        have hne : n ≠ name := fun heq => by
          rw [heq, hknown] at hc
          cases hc
        exact (Function.update_of_ne hne _ _).trans (hadds.2 n c hc)
      exact trans_of Adds hmid (moves_bind (onMem_adds _) (fun _ => moves_pure h) _)

theorem newStringUtf_adds (x : List UInt8) : Moves Adds (newStringUtf x) :=
  moves_bind (alloc_adds _) fun _ => moves_bind (findClass_adds _) fun _ =>
    moves_bind (onMem_adds _) fun _ => moves_pure _

/-- An object keeps its class. -/
theorem HasClass.add {obj : BitVec 64} {name : List UInt8} (h : s.HasClass obj name)
    (hadds : Adds s s') : s'.HasClass obj name := by
  obtain ⟨r, c, rc, hr, hclass, hrc, hkind, hname⟩ := h
  refine ⟨r, c, rc, hadds.1 _ _ hr, ?_, hadds.1 _ _ hrc, hkind, hname⟩
  exact hclass.imp (fun h => ⟨h.1, hadds.2 _ _ h.2⟩) fun h => ⟨h.1, hadds.2 _ _ h.2⟩

theorem HasClass.className_eq {obj : BitVec 64} {name : List UInt8} (h : s.HasClass obj name) :
    s.className (s.classOf obj) = name := by
  obtain ⟨r, c, rc, hr, hclass, hrc, hkind, hname⟩ := h
  have hc : s.classOf obj = c := by
    rcases hclass with ⟨hobject, hc⟩ | ⟨hstring, hc⟩
    · simp only [classOf, hr, hobject, hc, Option.getD_some]
    · simp only [classOf, hr, hstring, hc, Option.getD_some]
  simp only [className, text, hc, hrc, hkind, if_true, hname]

end JavaRuntime

/-! ## Calls -/

section Calls

variable {f : DexFile} {s s' : JavaRuntime} {depth : ℕ} {entryClass : List UInt8}
  {kind : InvokeKind} {m : Method} {midx off : ℕ} {a : List (BitVec 64)}

/-- A choice leads to a code item exactly if this is unrivalled among the methods met. -/
theorem interprets_dispatch_iff (hkind : kind ≠ .super) :
    Interprets f depth off (.ok (dispatch f s kind m a) s') ↔
      Unrivalled (searched f s kind m a) m off ∧ (f.codeAt off).valid ∧
        depth < Dalvik.kMaxDepth := by
  rw [unrivalled_iff, dispatch_eq hkind]
  cases hfind : (searched f s kind m a).find? (DexFile.candidate m.name m.sig) with
  | some e => simp only [Interprets, Option.some.injEq, exists_eq_left']
  | none => simp only [Interprets, reduceCtorEq, false_and, exists_false]

theorem onInvoke_named (h : lacksName kind (f.methodAt midx) a = false) :
    onInvoke f entryClass kind midx a s = .ok (dispatch f s kind (f.methodAt midx) a) s := by
  have hguard : guardName entryClass kind (f.methodAt midx) a s = .ok a s := by
    rw [guardName, if_neg (by simp [h])]
    rfl
  exact bind_ok hguard

theorem onInvoke_nameless {h : BitVec 64} (hlacks : lacksName kind (f.methodAt midx) a)
    (hname : JavaRuntime.newStringUtf entryClass s = .ok h s') :
    onInvoke f entryClass kind midx a s =
      .ok (dispatch f s' kind (f.methodAt midx) (a.set (nameSlot kind a) h)) s' := by
  have hguard : guardName entryClass kind (f.methodAt midx) a s =
      .ok (a.set (nameSlot kind a) h) s' := by
    rw [guardName, if_pos hlacks, bind_ok hname]
    rfl
  exact bind_ok hguard

theorem onInvoke_throws {err : Failure} (hlacks : lacksName kind (f.methodAt midx) a)
    (hname : JavaRuntime.newStringUtf entryClass s = .error err s') :
    onInvoke f entryClass kind midx a s = .error err s' := by
  have hguard : guardName entryClass kind (f.methodAt midx) a s = .error err s' := by
    rw [guardName, if_pos hlacks, bind_error hname]
  exact bind_error hguard

theorem Expected.ne_super (h : Expected f s kind midx a off) : kind ≠ .super := by
  rintro rfl
  cases h with
  | own hkind => simp at hkind
  | override hkind => cases hkind

/-- The methods met do not depend on the replaced class name. -/
theorem Expected.searched_eq (h : Expected f s kind midx a off) (hadds : JavaRuntime.Adds s s')
    (name : BitVec 64) : searched f s' kind m (a.set (nameSlot kind a) name) =
      searched f s kind m a := by
  unfold searched
  congr 1
  cases h with
  | own hkind =>
    have hnone : ∀ (s : JavaRuntime) (a : List (BitVec 64)), receiverVisible f s kind a = [] := by
      intro s a
      cases a with
      | nil => rfl
      | cons obj a =>
        rw [receiverVisible, if_neg]
        rintro ⟨rfl | rfl, -⟩
        · simp at hkind
        · simp at hkind
    rw [hnone, hnone]
  | @override obj a desc off hkind hobj hclass hne hoverrides =>
    subst hkind
    have hset : (obj :: a).set (nameSlot .virtual (obj :: a)) name = obj :: a.set 0 name := rfl
    rw [hset, receiverVisible, receiverVisible, (hclass.add hadds).className_eq,
      hclass.className_eq]

/-- A call runs the code item it should if and only if its lookup reaches it. -/
theorem invokesRight_iff (f : DexFile) (s : JavaRuntime) (depth : ℕ) (entryClass : List UInt8)
    (kind : InvokeKind) (midx : ℕ) (a : List (BitVec 64)) :
    InvokesRight f s depth entryClass kind midx a ↔
      ∀ off, Expected f s kind midx a off →
        Reaches f s depth entryClass kind (f.methodAt midx) a off := by
  refine forall_congr' fun off => forall_congr' fun hexpected => ?_
  have hkind := hexpected.ne_super
  cases hlacks : lacksName kind (f.methodAt midx) a with
  | false =>
    rw [onInvoke_named hlacks, interprets_dispatch_iff hkind]
    constructor
    · rintro ⟨hunrivalled, hvalid, hshallow⟩
      exact ⟨hunrivalled, hvalid, hshallow, fun h => by cases hlacks.symm.trans h⟩
    · rintro ⟨hunrivalled, hvalid, hshallow, -⟩
      exact ⟨hunrivalled, hvalid, hshallow⟩
  | true =>
    cases hname : JavaRuntime.newStringUtf entryClass s with
    | ok h s' =>
      have hadds : JavaRuntime.Adds s s' := by
        have hmoves := JavaRuntime.newStringUtf_adds entryClass s
        rwa [hname] at hmoves
      rw [onInvoke_nameless hlacks hname, interprets_dispatch_iff hkind,
        hexpected.searched_eq hadds]
      constructor
      · rintro ⟨hunrivalled, hvalid, hshallow⟩
        exact ⟨hunrivalled, hvalid, hshallow, fun _ => ⟨h, s', hname⟩⟩
      · rintro ⟨hunrivalled, hvalid, hshallow, -⟩
        exact ⟨hunrivalled, hvalid, hshallow⟩
    | error err s' =>
      rw [onInvoke_throws hlacks hname]
      constructor
      · exact False.elim
      · rintro ⟨-, -, -, hnamed⟩
        obtain ⟨h, t, hok⟩ := hnamed hlacks
        cases hname.symm.trans hok

/-- A call that is led to other code is wrong. -/
theorem not_invokesRight {off' : ℕ} {a' : List (BitVec 64)}
    (hexpected : Expected f s kind midx a off)
    (hnamed : lacksName kind (f.methodAt midx) a = false)
    (hdispatch : dispatch f s kind (f.methodAt midx) a = .run off' a') (hne : off' ≠ off) :
    ¬InvokesRight f s depth entryClass kind midx a := by
  intro h
  have hruns := h off hexpected
  rw [onInvoke_named hnamed, hdispatch] at hruns
  exact hne hruns.1

end Calls

/-- A file with one class and two static methods, `f(LI;)` with code at 240 and `f(LS;)` with code
at 260. -/
def overloads : List UInt8 := [
    0x64, 0x65, 0x78, 0xa, 0x30, 0x33, 0x35, 0, 0, 0, 0, 0, 0, 0, 0, 0, 0, 0, 0, 0, 0, 0, 0, 0,
    0, 0, 0, 0, 0, 0, 0, 0, 0x3d, 1, 0, 0, 0x70, 0, 0, 0, 0x78, 0x56, 0x34, 0x12, 0, 0, 0, 0, 0,
    0, 0, 0, 0, 0, 0, 0, 6, 0, 0, 0, 0x70, 0, 0, 0, 4, 0, 0, 0, 0x88, 0, 0, 0, 2, 0, 0, 0, 0x98,
    0, 0, 0, 0, 0, 0, 0, 0, 0, 0, 0, 2, 0, 0, 0, 0xb0, 0, 0, 0, 1, 0, 0, 0, 0xc0, 0, 0, 0, 0x5d,
    0, 0, 0, 0xe0, 0, 0, 0, 0x18, 1, 0, 0, 0x1d, 1, 0, 0, 0x22, 1, 0, 0, 0x27, 1, 0, 0, 0x2a, 1,
    0, 0, 0x2e, 1, 0, 0, 0, 0, 0, 0, 1, 0, 0, 0, 2, 0, 0, 0, 3, 0, 0, 0, 4, 0, 0, 0, 3, 0, 0, 0,
    0xe0, 0, 0, 0, 4, 0, 0, 0, 3, 0, 0, 0, 0xe8, 0, 0, 0, 0, 0, 0, 0, 5, 0, 0, 0, 0, 0, 1, 0, 5,
    0, 0, 0, 0, 0, 0, 0, 1, 0, 0, 0, 0xff, 0xff, 0xff, 0xff, 0, 0, 0, 0, 0xff, 0xff, 0xff, 0xff,
    0, 0, 0, 0, 0x31, 1, 0, 0, 0, 0, 0, 0, 1, 0, 0, 0, 1, 0, 0, 0, 1, 0, 0, 0, 2, 0, 0, 0, 1, 0,
    1, 0, 0, 0, 0, 0, 0, 0, 0, 0, 1, 0, 0, 0, 0xe, 0, 0, 0, 1, 0, 1, 0, 0, 0, 0, 0, 0, 0, 0, 0,
    1, 0, 0, 0, 0xe, 0, 0, 0, 3, 0x4c, 0x41, 0x3b, 0, 3, 0x4c, 0x49, 0x3b, 0, 3, 0x4c, 0x53,
    0x3b, 0, 1, 0x56, 0, 2, 0x56, 0x4c, 0, 1, 0x66, 0, 0, 0, 2, 0, 0, 9, 0xf0, 1, 1, 9, 0x84, 2]

/-- The file as it is parsed. -/
def overloadsFile : DexFile :=
  { Tables.ofHeader overloads with classes := [(Tables.ofHeader overloads).parseClassDef 0xc0] }

theorem parse_overloads : parse overloads = .ok overloadsFile := by
  have hheader : ¬(overloads.length < 0x70 ∨ overloads.take 4 ≠ ascii "dex\n") := by decide +kernel
  have htable : (Tables.ofHeader overloads).classDefs = ⟨1, 0xc0⟩ := by decide +kernel
  have hinside : ¬0xc0 + 1 * 32 > overloads.length := by decide +kernel
  rw [parse, if_neg hheader]
  dsimp only
  rw [htable, if_neg hinside]
  rfl

/-- A call of the second method runs the code of the first. -/
theorem overload_shadowed : parse overloads = .ok overloadsFile ∧
    ¬InvokesRight overloadsFile { mem := Memory.init .arm64 false false } 0 [] .static 1 [0] := by
  have hexpected : Expected overloadsFile { mem := Memory.init .arm64 false false } .static 1 [0]
      260 := by
    refine .own (c := (Tables.ofHeader overloads).parseClassDef 0xc0) (.inl rfl) ?_ ?_
    · decide +kernel
    · exact ⟨by decide, ⟨1, 9, 260⟩, rfl, by decide +kernel⟩
  have hnamed : lacksName .static (overloadsFile.methodAt 1) [0] = false := by decide +kernel
  have hdispatch : dispatch overloadsFile { mem := Memory.init .arm64 false false } .static
      (overloadsFile.methodAt 1) [0] = .run 240 [0] := by
    decide +kernel
  exact ⟨parse_overloads, not_invokesRight hexpected hnamed hdispatch (by decide)⟩

end Vardoger
