import Vardoger.Jni.HandleTable
import Vardoger.Jni.Invoke

/-!
# Class names and descriptors

A class is named in three forms: with slashes, with dots, and as a descriptor. The conversion back
to a descriptor guesses the form of its argument, and takes a slashed name that starts with `L` for
a descriptor. For all other names it is right, and a virtual call finds the methods of the class of
its receiver.
-/

namespace Vardoger

open Bytes Dex JavaRuntime LifecycleRunner

namespace Dex

def descriptorToBinary (desc : List UInt8) : List UInt8 :=
  if 2 ≤ desc.length ∧ desc.head? = some 0x4c ∧ desc.getLast? = some 0x3b then
    (desc.drop 1).dropLast.map fun c => if c = 0x2f then 0x2e else c
  else desc

end Dex

/-- `on_new_instance`. -/
def LifecycleRunner.onNewInstance (dex : Dex.Tables) (t : ℕ) : JavaM (BitVec 64) :=
  newObject (jniName (dex.typeAt t))

/-! ## Names -/

/-- The segments with a separator between them. -/
def joined (sep : UInt8) : List (List UInt8) → List UInt8
  | [] => []
  | [x] => x
  | x :: y :: rest => x ++ sep :: joined sep (y :: rest)

/-- A class name: segments without `/`, `.`, `;` and `[`, none of them empty. -/
structure BinaryName where
  segments : List (List UInt8)
  ne_nil : segments ≠ []
  plain : ∀ x ∈ segments, x ≠ [] ∧ 0x2f ∉ x ∧ 0x2e ∉ x ∧ 0x3b ∉ x ∧ 0x5b ∉ x

namespace BinaryName

def slashed (n : BinaryName) : List UInt8 := joined 0x2f n.segments

def dotted (n : BinaryName) : List UInt8 := joined 0x2e n.segments

def descriptor (n : BinaryName) : List UInt8 := ascii "L" ++ n.slashed ++ ascii ";"

/-- In every run and for every class of that name in the file: an object that a `new-instance` made
is from then on dispatched to the methods of the class itself. -/
def DispatchesOwn (n : BinaryName) : Prop :=
  ∀ m, m.JavaOk → ∀ s, Reaches { mem := m } s → ∀ (f : DexFile) c t,
    f.typeAt t = n.descriptor → f.classOf n.descriptor = some c →
    ∀ h s₁ s₂, onNewInstance f.toTables t s = .ok h s₁ → Reaches s₁ s₂ →
      ∀ called own rest, c.methods.find? (DexFile.candidate called.name called.sig) = some own →
        dispatch f s₂ .virtual called (h :: rest) = .run own.codeOff (h :: rest)

/-- The conversions of a name, and what depends on them. -/
structure Converts (n : BinaryName) : Prop where
  slashed : binaryToDescriptor n.slashed = n.descriptor
  dotted : binaryToDescriptor n.dotted = n.descriptor
  roundTrip : binaryToDescriptor (descriptorToBinary n.descriptor) = n.descriptor
  dispatches : n.DispatchesOwn

/-! ## Conversions -/

theorem not_mem_joined {c sep : UInt8} (hsep : c ≠ sep) {segments : List (List UInt8)}
    (h : ∀ x ∈ segments, c ∉ x) : c ∉ joined sep segments := by
  induction segments with
  | nil => simp [joined]
  | cons x rest ih =>
    cases rest with
    | nil => exact h x (by simp)
    | cons y rest =>
      simp only [joined, List.mem_append, List.mem_cons, not_or]
      exact ⟨h x (by simp), hsep, ih fun z hz => h z (List.mem_cons_of_mem _ hz)⟩

theorem map_of_not_mem {sep : UInt8} (sep' : UInt8) {x : List UInt8} (hx : sep ∉ x) :
    x.map (fun c => if c = sep then sep' else c) = x := by
  conv_rhs => rw [← List.map_id x]
  apply List.map_congr_left
  intro c hc
  exact if_neg fun heq : c = sep => hx (heq ▸ hc)

/-- Replacing the separator turns one form into the other. -/
theorem map_joined {sep sep' : UInt8} {segments : List (List UInt8)} (h : ∀ x ∈ segments, sep ∉ x) :
    (joined sep segments).map (fun c => if c = sep then sep' else c) = joined sep' segments := by
  induction segments with
  | nil => rfl
  | cons x rest ih =>
    cases rest with
    | nil => exact map_of_not_mem sep' (h x (by simp))
    | cons y rest =>
      simp only [joined, List.map_append, List.map_cons, if_true,
        map_of_not_mem sep' (h x (by simp))]
      rw [ih fun z hz => h z (List.mem_cons_of_mem _ hz)]

variable (n : BinaryName)

theorem slashed_ne_nil : n.slashed ≠ [] := by
  obtain ⟨x, rest, hrest⟩ := List.exists_cons_of_ne_nil n.ne_nil
  have hx := (n.plain x (by simp [hrest])).1
  rw [slashed, hrest]
  cases rest with
  | nil => exact hx
  | cons y rest => simp [joined]

theorem dot_not_mem_slashed : (0x2e : UInt8) ∉ n.slashed :=
  not_mem_joined (by decide) fun x hx => (n.plain x hx).2.2.1

theorem slash_not_mem_dotted : (0x2f : UInt8) ∉ n.dotted :=
  not_mem_joined (by decide) fun x hx => (n.plain x hx).2.1

theorem map_slashed : n.slashed.map (fun c => if c = 0x2f then 0x2e else c) = n.dotted :=
  map_joined fun x hx => (n.plain x hx).2.1

theorem map_dotted : n.dotted.map (fun c => if c = 0x2e then 0x2f else c) = n.slashed :=
  map_joined fun x hx => (n.plain x hx).2.2.1

theorem dotted_ne_nil : n.dotted ≠ [] := by
  rw [← map_slashed]
  simpa using n.slashed_ne_nil

theorem descriptorToBinary_descriptor : descriptorToBinary n.descriptor = n.dotted := by
  have hlast : (76 :: (n.slashed ++ [59])).getLast? = some 59 := by
    rw [← List.cons_append, List.getLast?_concat]
  rw [← map_slashed, descriptorToBinary, descriptor]
  simp [ascii, hlast]

theorem jniName_descriptor : jniName n.descriptor = n.slashed := by
  simp [jniName, descriptor, ascii]

variable {n}

/-- The slashed form is taken for a name unless it starts with `L`. -/
theorem binaryToDescriptor_slashed (h : n.slashed.head? ≠ some 0x4c) :
    binaryToDescriptor n.slashed = n.descriptor := by
  rw [binaryToDescriptor, if_neg fun hdot => n.dot_not_mem_slashed hdot.2.2,
    if_pos ⟨n.slashed_ne_nil, h⟩, descriptor]

theorem binaryToDescriptor_of_head (h : n.slashed.head? = some 0x4c) :
    binaryToDescriptor n.slashed = n.slashed := by
  rw [binaryToDescriptor, if_neg fun hdot => n.dot_not_mem_slashed hdot.2.2,
    if_neg fun hname => hname.2 h]

theorem binaryToDescriptor_dotted (h : n.slashed.head? ≠ some 0x4c) :
    binaryToDescriptor n.dotted = n.descriptor := by
  by_cases hdot : (0x2e : UInt8) ∈ n.dotted
  · rw [binaryToDescriptor, if_pos ⟨n.dotted_ne_nil, n.slash_not_mem_dotted, hdot⟩, map_dotted,
      descriptor]
  · rw [← map_of_not_mem 0x2f hdot, map_dotted]
    exact binaryToDescriptor_slashed h

/-! ## Dispatch -/

/-- The lookup starts with the methods of the class. -/
theorem findCode_own {f : DexFile} {c : ClassDef} {desc name sig : List UInt8} {own : Method}
    (hdesc : desc ≠ []) (hclass : f.classOf desc = some c)
    (hown : c.methods.find? (DexFile.candidate name sig) = some own) :
    findCode f desc name sig = own.codeOff := by
  rw [ClassDef.methods, List.find?_append] at hown
  rw [findCode, kMaxHops, findCodeLoop, if_neg hdesc, hclass]
  cases hdirect : c.directMethods.find? (DexFile.candidate name sig) with
  | some m =>
    rw [hdirect, Option.some_or] at hown
    simp only [hdirect, Option.some.inj hown]
  | none =>
    rw [hdirect, Option.none_or] at hown
    simp only [hdirect, hown]

/-- A new object has a class with the name it was made with, from then on. -/
theorem className_of_newObject {s s₁ s₂ : JavaRuntime} {cls : List UInt8} {h : BitVec 64}
    (hs : Table s) (hnew : newObject cls s = .ok h s₁) (hreach : Reaches s₁ s₂) :
    s₂.className (s₂.classOf h) = cls ∧ h ≠ 0 := by
  obtain ⟨r, hsame, hmade⟩ := newObject_makes hs hnew
  obtain ⟨k, hk, -⟩ := hmade.clazz
  obtain ⟨htable, hlater⟩ := hreach.table hmade.table
  obtain ⟨r₂, hr₂, hsame₂⟩ := hlater.records h r hmade.record
  obtain ⟨rk, hrk, hkind, hname⟩ := htable.classes cls k (hlater.classes cls k hk)
  have hclass : s₂.classOf h = k := by
    rw [classOf, hr₂]
    simp only [hsame₂.kind, hsame₂.owner, hsame.kind, hsame.owner, hlater.classes cls k hk,
      Option.getD_some]
  refine ⟨?_, ?_⟩
  · rw [hclass, className, text, hrk]
    simp only [hkind, if_true, hname]
  · rintro rfl
    have hlow := (htable.shadow (Option.isSome_of_eq_some hr₂)).1
    exact absurd hlow (by decide)

theorem dispatchesOwn (h : n.slashed.head? ≠ some 0x4c) : n.DispatchesOwn := by
  intro m hm s hs f c t htype hclass obj s₁ s₂ hnew hreach called own rest hown
  rw [onNewInstance, htype, jniName_descriptor] at hnew
  obtain ⟨hname, hobj⟩ := className_of_newObject (hs.table (table_init hm)).1 hnew hreach
  have hcode : receiverCode f s₂ .virtual called (obj :: rest) = own.codeOff := by
    rw [receiverCode, if_pos ⟨.inl rfl, hobj, by rw [hname]; exact n.slashed_ne_nil⟩, hname,
      binaryToDescriptor_slashed h]
    exact findCode_own (by simp [descriptor, ascii]) hclass hown
  have hfound := List.find?_some hown
  have hne : own.codeOff ≠ 0 := by
    simp only [DexFile.candidate, Bool.and_eq_true, decide_eq_true_eq] at hfound
    exact hfound.2
  rw [dispatch, if_neg (by decide), hcode, if_pos hne]

/-- A name converts both ways, and its objects are dispatched to it, exactly if it does not start
with `L`. -/
theorem converts_iff (n : BinaryName) : n.Converts ↔ n.slashed.head? ≠ some 0x4c := by
  constructor
  · intro hconverts hhead
    have hsame := (binaryToDescriptor_of_head hhead).symm.trans hconverts.slashed
    have hlength := congrArg List.length hsame
    simp [descriptor, ascii] at hlength
    omega
  · intro h
    refine ⟨binaryToDescriptor_slashed h, binaryToDescriptor_dotted h, ?_, dispatchesOwn h⟩
    rw [descriptorToBinary_descriptor]
    exact binaryToDescriptor_dotted h

/-- The name `Lib` is taken for a descriptor. -/
theorem lib_not_converted :
    let lib : BinaryName := ⟨[ascii "Lib"], by simp, by decide⟩
    lib.descriptor = ascii "LLib;" ∧ binaryToDescriptor lib.slashed = ascii "Lib" ∧
      ¬lib.Converts := by
  have hlib : binaryToDescriptor (ascii "Lib") = ascii "Lib" := by decide
  refine ⟨by decide, hlib, fun hconverts => ?_⟩
  exact absurd (hlib.symm.trans hconverts.slashed) (by decide)

end BinaryName

end Vardoger
