import Vardoger.Jni.Args
import Vardoger.Jni.Handles
import Vardoger.Android.StringStubs

/-!
# Native methods

`RegisterNatives` reads a table of methods from guest memory and appends them to the registrations
of the runtime. A method that is registered again gets a second entry, and a lookup takes the first
one.
-/

namespace Vardoger

open Bytes JavaRuntime Stateful

namespace JniBridge

/-- The arguments of `RegisterNatives` behind the environment. -/
structure NativesArgs where
  cls : BitVec 64
  arr : BitVec 64
  n : BitVec 64
  deriving DecidableEq, Repr

def nativesArgs (e : Engine) : Except Failure NativesArgs := do
  let (_, a) ← Args.nextInt e {}
  let (cls, a) ← a.nextInt e
  let (arr, a) ← a.nextInt e
  let (n, _) ← a.nextInt e
  return ⟨cls, arr, n⟩

/-- An entry of the table: a name, a signature and a function. -/
structure NativeMethod where
  name : List UInt8
  sig : List UInt8
  fn : BitVec 64
  deriving DecidableEq, Repr

/-- Where an entry of the table stands. -/
def NativesArgs.entry (g : NativesArgs) (e : Engine) (i : ℕ) : BitVec 64 :=
  g.arr + BitVec.ofNat 64 (i * 3 * e.abi.pointerSize)

/-- Read the entry `{name*, sig*, fnPtr}` at an address. -/
def methodAt (e : Engine) (entry : BitVec 64) : Except Failure NativeMethod := do
  let psz := e.abi.pointerSize
  let name ← e.readWord psz entry
  let sig ← e.readWord psz (entry + BitVec.ofNat 64 psz)
  let fn ← e.readWord psz (entry + BitVec.ofNat 64 (2 * psz))
  return ⟨e.readCstr name.toNat kCstrMax, e.readCstr sig.toNat kCstrMax, fn⟩

/-- One round of the loop. -/
def registerAt (g : NativesArgs) (i : ℕ) : JavaM Unit := do
  let s ← get
  match methodAt s.mem.engine (g.entry s.mem.engine i) with
  | .error err => throw err
  | .ok m => registerNative g.cls m.name m.sig m.fn

def registerNatives : JavaM Unit := do
  let s ← get
  match nativesArgs s.mem.engine with
  | .error err => throw err
  | .ok g =>
      (List.range g.n.toNat).forM (registerAt g)
      onMem (Memory.onEngine (·.writeReg .ret0 0))

/-! ## What a call registers -/

/-- The entry at an address in guest memory, with its strings as they stand there. -/
structure Spells (e : Engine) (entry : BitVec 64) (m : NativeMethod) : Prop where
  name : ∃ p, e.readWord e.abi.pointerSize entry = .ok p ∧ e.IsCstr p.toNat m.name
  sig : ∃ p, e.readWord e.abi.pointerSize (entry + BitVec.ofNat 64 e.abi.pointerSize) = .ok p ∧
    e.IsCstr p.toNat m.sig
  fn : e.readWord e.abi.pointerSize (entry + BitVec.ofNat 64 (2 * e.abi.pointerSize)) = .ok m.fn

/-- The first entries of the table. -/
def MethodTable (e : Engine) (g : NativesArgs) (methods : List NativeMethod) : Prop :=
  ∀ i m, methods[i]? = some m → Spells e (g.entry e i) m

/-- Reads give a method with its strings cut to the length that the engine reads. -/
theorem Spells.methodAt {e : Engine} {entry : BitVec 64} {m : NativeMethod} (h : Spells e entry m) :
    methodAt e entry = .ok ⟨m.name.take kCstrMax, m.sig.take kCstrMax, m.fn⟩ := by
  obtain ⟨p, hp, hname⟩ := h.name
  obtain ⟨q, hq, hsig⟩ := h.sig
  rw [JniBridge.methodAt, except_bind_ok hp, except_bind_ok hq, except_bind_ok h.fn,
    Engine.readCstr_eq hname.nonzero hname.holds, Engine.readCstr_eq hsig.nonzero hsig.holds]
  rfl

end JniBridge

/-! ## What stays the same during a call -/

/-- Mapped memory keeps its contents. -/
structure Engine.Covers (e e' : Engine) : Prop where
  abi : e'.abi = e.abi
  mapped : ∀ a, e.Mapped a → e'.Mapped a
  byte : ∀ a, e.Mapped a → e'.byte a = e.byte a

namespace Engine.Covers

variable {e e' : Engine}

theorem refl (e : Engine) : Covers e e := ⟨rfl, fun _ h => h, fun _ _ => rfl⟩

theorem trans {e'' : Engine} (h : Covers e e') (h' : Covers e' e'') : Covers e e'' :=
  ⟨h'.abi.trans h.abi, fun a ha => h'.mapped a (h.mapped a ha),
    fun a ha => (h'.byte a (h.mapped a ha)).trans (h.byte a ha)⟩

theorem holds (h : Covers e e') {addr : ℕ} {x : List UInt8} (hx : e.Holds addr x) :
    e'.Holds addr x := by
  obtain ⟨⟨hfits, hmapped⟩, hslice⟩ := hx
  refine ⟨⟨hfits, fun i hi => h.mapped _ (hmapped i hi)⟩, ?_⟩
  rw [← hslice, Patches.length_slice]
  exact Patches.slice_congr fun i hi => h.byte _ (hmapped i hi)

theorem isCstr (h : Covers e e') {addr : ℕ} {x : List UInt8} (hx : e.IsCstr addr x) :
    e'.IsCstr addr x :=
  ⟨hx.nonzero, h.holds hx.holds, by rw [h.abi]; exact hx.fits⟩

theorem readWord (h : Covers e e') {n : ℕ} {addr v : BitVec 64} (hv : e.readWord n addr = .ok v) :
    e'.readWord n addr = .ok v := by
  unfold Engine.readWord Engine.read at hv ⊢
  by_cases haccess : e.Accessible addr.toNat n
  · have haccess' : e'.Accessible addr.toNat n :=
      ⟨haccess.1, fun i hi => h.mapped _ (haccess.2 i hi)⟩
    rw [if_pos haccess] at hv
    rw [if_pos haccess', ← hv]
    have hslice : Patches.slice e'.byte addr.toNat n = Patches.slice e.byte addr.toNat n :=
      Patches.slice_congr fun i hi => h.byte _ (haccess.2 i hi)
    exact congrArg (fun x => Except.ok (BitVec.ofNat 64 (LittleEndian.ofBytes x))) hslice
  · rw [if_neg haccess] at hv
    cases hv

theorem spells (h : Covers e e') {entry : BitVec 64} {m : JniBridge.NativeMethod}
    (hm : JniBridge.Spells e entry m) : JniBridge.Spells e' entry m := by
  obtain ⟨⟨p, hp, hname⟩, ⟨q, hq, hsig⟩, hfn⟩ := hm
  rw [← h.abi] at hp hq hfn
  exact ⟨⟨p, h.readWord hp, h.isCstr hname⟩, ⟨q, h.readWord hq, h.isCstr hsig⟩, h.readWord hfn⟩

end Engine.Covers

namespace JavaRuntime

/-- Mapped memory, the name of a class and the registrations stay. -/
structure Undisturbed (c : BitVec 64) (s s' : JavaRuntime) : Prop where
  covers : s.mem.engine.Covers s'.mem.engine
  className : s'.className c = s.className c
  registered : s'.registered = s.registered

instance (c : BitVec 64) : Std.Refl (Undisturbed c) := ⟨fun _ => ⟨.refl _, rfl, rfl⟩⟩

instance (c : BitVec 64) : IsTrans JavaRuntime (Undisturbed c) :=
  ⟨fun _ _ _ h h' => ⟨h.covers.trans h'.covers, h'.className.trans h.className,
    h'.registered.trans h.registered⟩⟩

/-- Taking memory of the Java region does not touch what is mapped. -/
theorem javaAlloc_covers (len align : ℕ) (m : Memory) :
    m.engine.Covers (final (Memory.javaAlloc len align m)).engine := by
  have hrest {m₁ : Memory} (hinit : Memory.javaInit m = .ok () m₁)
      (hcovers : m.engine.Covers m₁.engine) :
      m.engine.Covers (final (Memory.javaAlloc len align m)).engine := by
    rw [Memory.javaAlloc, bind_ok hinit, get_bind]
    dsimp only
    split
    · exact hcovers
    · exact hcovers
  by_cases hnext : m.javaNext = 0
  · by_cases hok : m.engine.Mappable kJavaBase kJavaSize
    · apply hrest (Memory.javaInit_of_mappable hnext hok)
      obtain ⟨-, hbase, hsize, -, -⟩ := id hok
      exact ⟨rfl, fun a ha => (Engine.mapped_mapPages hbase hsize).mpr (.inr ha),
        fun a ha => if_neg fun hin => hok.not_mapped hin ha⟩
    · have hmap := Memory.mapRegion_apply Memory.javaRegion m
      rw [if_neg (by exact hok)] at hmap
      have hinit : Memory.javaInit m = .error (.engine "uc_mem_map") m := by
        rw [Memory.javaInit, get_bind, if_pos hnext]
        exact bind_error hmap
      rw [Memory.javaAlloc, bind_error hinit]
      exact .refl _
  · have hinit : Memory.javaInit m = .ok () m := by
      rw [Memory.javaInit, get_bind, if_neg hnext]
      rfl
    exact hrest hinit (.refl _)

/-- Changing a record keeps the name of a class if the kind and the name of the record stay, and
adding one that is no class does as well. -/
theorem className_update {s : JavaRuntime} {h : BitVec 64} {r : Record}
    (hr : s.text .clazz Record.name h = if r.kind = .clazz then r.name else []) (c : BitVec 64) :
    ({ s with handles := Function.update s.handles h (some r) } : JavaRuntime).className c =
      s.className c := by
  unfold className
  by_cases hc : c = h
  · subst hc
    rw [hr]
    simp [text]
  · simp [text, Function.update_of_ne hc]

theorem alloc_undisturbed (c : BitVec 64) {r : Record} (hr : r.kind ≠ .clazz) :
    Moves (Undisturbed c) (alloc r) := by
  refine moves_bind (fun s => ?_) fun p => moves_bind (moves_modify fun s => ?_) fun _ =>
    moves_pure _
  · have hcovers := javaAlloc_covers kShadowSize 16 s.mem
    unfold onMem
    cases hrun : Memory.javaAlloc kShadowSize 16 s.mem with
    | ok a m =>
      rw [hrun] at hcovers
      exact ⟨hcovers, rfl, rfl⟩
    | error err m =>
      rw [hrun] at hcovers
      exact ⟨hcovers, rfl, rfl⟩
  · unfold emplace
    split
    · exact refl_of (Undisturbed c) s
    next hnone =>
      refine ⟨.refl _, className_update ?_ c, rfl⟩
      have hnone' : s.handles (BitVec.ofNat 64 p) = none := by simpa using hnone
      rw [text, hnone', if_neg hr]

theorem getMethodId_undisturbed (c clazz : BitVec 64) (name sig : List UInt8) (isStatic : Bool) :
    Moves (Undisturbed c) (getMethodId clazz name sig isStatic) := by
  refine moves_bind moves_get fun s => ?_
  dsimp only
  split
  · exact moves_pure _
  · refine moves_bind (alloc_undisturbed c (by simp)) fun h => ?_
    exact moves_bind (moves_modify fun _ => ⟨.refl _, rfl, rfl⟩) fun _ => moves_pure _

theorem setNativeFn_undisturbed (c mid fn : BitVec 64) (s : JavaRuntime) :
    Undisturbed c s (s.setNativeFn mid fn) := by
  unfold setNativeFn
  split
  next r hr =>
    refine ⟨.refl _, className_update ?_ c, rfl⟩
    rw [text, hr]
  · exact refl_of (Undisturbed c) s

/-- A registration appends one entry. -/
theorem registerNative_ok {s s' : JavaRuntime} {c : BitVec 64} {name sig : List UInt8}
    {fn : BitVec 64} (hrun : registerNative c name sig fn s = .ok () s') :
    s.mem.engine.Covers s'.mem.engine ∧ s'.className c = s.className c ∧
      s'.registered = s.registered ++ [⟨s.className c, name, sig, fn⟩] := by
  obtain ⟨mid, s₁, hmid, hrest⟩ := of_bind_ok hrun
  have hsame := getMethodId_undisturbed c c name sig false s
  rw [hmid] at hsame
  have hnative := setNativeFn_undisturbed c mid fn s₁
  rw [modify_bind] at hrest
  obtain ⟨-, rfl⟩ := EStateM.Result.ok.inj hrest
  have hboth := trans_of (Undisturbed c) hsame hnative
  refine ⟨hboth.covers, hboth.className, ?_⟩
  dsimp only
  rw [hboth.registered, hboth.className]

/-- A registration that throws appends nothing. -/
theorem registerNative_error {s s' : JavaRuntime} {c : BitVec 64} {name sig : List UInt8}
    {fn : BitVec 64} {err : Failure} (hrun : registerNative c name sig fn s = .error err s') :
    s'.registered = s.registered := by
  have hsame := getMethodId_undisturbed c c name sig false s
  cases hmid : getMethodId c name sig false s with
  | ok mid s₁ =>
    rw [registerNative, bind_ok hmid] at hrun
    cases hrun
  | error err' s₁ =>
    rw [registerNative, bind_error hmid] at hrun
    rw [hmid] at hsame
    obtain ⟨-, rfl⟩ := EStateM.Result.error.inj hrun
    exact hsame.registered

end JavaRuntime

namespace JniBridge

/-- The entry for a method of a class. -/
def NativeMethod.native (m : NativeMethod) (cls : List UInt8) : Native := ⟨cls, m.name, m.sig, m.fn⟩

/-- An entry with its strings cut to the length that the engine reads. -/
def cut (n : Native) : Native := { n with name := n.name.take kCstrMax, sig := n.sig.take kCstrMax }

/-- A round of the loop registers the method of its entry. -/
theorem registerAt_ok {g : NativesArgs} {i : ℕ} {m : NativeMethod} {s s' : JavaRuntime}
    (hm : Spells s.mem.engine (g.entry s.mem.engine i) m) (hrun : registerAt g i s = .ok () s') :
    s.mem.engine.Covers s'.mem.engine ∧ s'.className g.cls = s.className g.cls ∧
      s'.registered = s.registered ++ [cut (m.native (s.className g.cls))] := by
  rw [registerAt, get_bind, hm.methodAt] at hrun
  exact registerNative_ok hrun

theorem registerAt_error {g : NativesArgs} {i : ℕ} {err : Failure} {s s' : JavaRuntime}
    (hrun : registerAt g i s = .error err s') : s'.registered = s.registered := by
  rw [registerAt, get_bind] at hrun
  cases hmethod : methodAt s.mem.engine (g.entry s.mem.engine i) with
  | error err' =>
    rw [hmethod] at hrun
    obtain ⟨-, rfl⟩ := EStateM.Result.error.inj hrun
    rfl
  | ok m =>
    rw [hmethod] at hrun
    exact registerNative_error hrun

/-- The loop registers the methods of the table one after the other. -/
theorem registerLoop_ok {g : NativesArgs} {methods : List NativeMethod} {s s' : JavaRuntime}
    (htable : MethodTable s.mem.engine g methods)
    (hrun : (List.range methods.length).forM (registerAt g) s = .ok ⟨⟩ s') :
    s.mem.engine.Covers s'.mem.engine ∧ s'.className g.cls = s.className g.cls ∧
      s'.registered =
        s.registered ++ methods.map fun m => cut (m.native (s.className g.cls)) := by
  induction methods using List.reverseRecOn generalizing s' with
  | nil =>
    obtain ⟨-, rfl⟩ := EStateM.Result.ok.inj hrun
    exact ⟨.refl _, rfl, by simp⟩
  | append_singleton methods m ih =>
    rw [List.length_append, List.length_singleton, List.range_succ] at hrun
    obtain ⟨s₁, hfirst, hlast⟩ := of_forM_concat_ok hrun
    have htable₁ : MethodTable s.mem.engine g methods := by
      intro i m' hm'
      apply htable i m'
      rw [List.getElem?_append_left (List.getElem?_eq_some_iff.mp hm').1, hm']
    obtain ⟨hcovers, hname, hregistered⟩ := ih htable₁ hfirst
    have hm : Spells s₁.mem.engine (g.entry s₁.mem.engine methods.length) m := by
      have hentry : g.entry s₁.mem.engine methods.length = g.entry s.mem.engine methods.length := by
        rw [NativesArgs.entry, NativesArgs.entry, hcovers.abi]
      rw [hentry]
      exact hcovers.spells (htable methods.length m (by simp))
    obtain ⟨hcovers₂, hname₂, hregistered₂⟩ := registerAt_ok hm hlast
    refine ⟨hcovers.trans hcovers₂, hname₂.trans hname, ?_⟩
    rw [hregistered₂, hregistered, hname, List.map_append, List.append_assoc]
    rfl

/-! ## Runs -/

/-- A state of the runtime, and the registrations that calls of `RegisterNatives` have made so far
with their strings as they stood in guest memory. Between the calls anything may happen that
registers nothing. A call that throws has registered the methods before the entry it failed at. -/
inductive Registered : JavaRuntime → List Native → Prop
  | start {s : JavaRuntime} : s.registered = [] → Registered s []
  | other {s s' : JavaRuntime} {log : List Native} :
      Registered s log → s'.registered = s.registered → Registered s' log
  | call {s s' : JavaRuntime} {log : List Native} {g : NativesArgs} {methods : List NativeMethod} :
      Registered s log → nativesArgs s.mem.engine = .ok g → g.n.toNat = methods.length →
      MethodTable s.mem.engine g methods → registerNatives s = .ok () s' →
      Registered s' (log ++ methods.map (·.native (s.className g.cls)))
  | thrown {s s₁ s' : JavaRuntime} {log : List Native} {g : NativesArgs}
      {methods : List NativeMethod} {err : Failure} :
      Registered s log → nativesArgs s.mem.engine = .ok g → methods.length < g.n.toNat →
      MethodTable s.mem.engine g methods →
      (List.range methods.length).forM (registerAt g) s = .ok ⟨⟩ s₁ →
      registerAt g methods.length s₁ = .error err s' →
      Registered s' (log ++ methods.map (·.native (s.className g.cls)))

/-- The registrations of the runtime are those of the calls, cut to the length that is read. -/
theorem Registered.registered_eq {s : JavaRuntime} {log : List Native} (h : Registered s log) :
    s.registered = log.map cut := by
  induction h with
  | start hs => exact hs
  | other _ hsame ih => exact hsame.trans ih
  | @call s s' log g methods _ hargs hn htable hrun ih =>
    rw [registerNatives, get_bind, hargs] at hrun
    obtain ⟨_, s₁, hloop, hret⟩ := of_bind_ok hrun
    rw [hn] at hloop
    obtain ⟨-, -, hregistered⟩ := registerLoop_ok htable hloop
    have hsame : s'.registered = s₁.registered := by
      unfold onMem at hret
      split at hret
      · obtain ⟨-, rfl⟩ := EStateM.Result.ok.inj hret
        rfl
      · cases hret
    rw [hsame, hregistered, ih, List.map_append, List.map_map]
    rfl
  | thrown _ _ _ htable hloop hthrow ih =>
    obtain ⟨-, -, hregistered⟩ := registerLoop_ok htable hloop
    rw [registerAt_error hthrow, hregistered, ih, List.map_append, List.map_map]
    rfl

/-- The registrations of a method of a class. -/
def registrations (log : List Native) (cls name : List UInt8) : List Native :=
  log.filter fun n => n.cls = cls && n.name = name

/-- The function of a registration that is the only one. -/
def onlyFn : List Native → BitVec 64
  | [n] => n.fn
  | _ => 0

/-- The function of the latest registration for the class, or else that of the only registration
with the name. -/
def latestNative (log : List Native) (cls name : List UInt8) : BitVec 64 :=
  ((registrations log cls name).getLast?.map Native.fn).getD
    (onlyFn (log.filter fun n => n.name = name))

/-- The first and the latest registration of a method have the same function. -/
def SameFn (log : List Native) (cls name : List UInt8) : Prop :=
  (registrations log cls name).head?.map Native.fn =
    (registrations log cls name).getLast?.map Native.fn

instance (log : List Native) (cls name : List UInt8) : Decidable (SameFn log cls name) :=
  inferInstanceAs (Decidable (_ = _))

/-- Only the signatures are cut. -/
def cutSig (n : Native) : Native := { n with sig := n.sig.take kCstrMax }

theorem map_cut_of_short {log : List Native} (hshort : ∀ n ∈ log, n.name.length ≤ kCstrMax) :
    log.map cut = log.map cutSig := by
  apply List.map_congr_left
  intro n hn
  rw [cut, cutSig, List.take_of_length_le (hshort n hn)]

theorem onlyFn_map_cutSig (hits : List Native) : onlyFn (hits.map cutSig) = onlyFn hits := by
  match hits with
  | [] => rfl
  | [_] => rfl
  | _ :: _ :: _ => rfl

/-- A lookup gives the first registration for the class. -/
theorem lookupNative_of_registered {s : JavaRuntime} {log : List Native}
    (h : s.registered = log.map cutSig) (cls name : List UInt8) :
    s.lookupNative cls name = ((registrations log cls name).head?.map Native.fn).getD
      (onlyFn (log.filter fun n => n.name = name)) := by
  have hfind : s.registered.find? (fun n => n.cls = cls && n.name = name) =
      (registrations log cls name).head?.map cutSig := by
    rw [h, List.find?_map, registrations, List.head?_filter]
    rfl
  have hfilter : s.registered.filter (fun n => n.name = name) =
      (log.filter fun n => n.name = name).map cutSig := by
    rw [h, List.filter_map]
    rfl
  rw [lookupNative, hfind, hfilter]
  cases (registrations log cls name).head? with
  | some n => rfl
  | none => exact onlyFn_map_cutSig _

/-- In every state that calls of `RegisterNatives` lead to, if no registered name is longer than
the engine reads, a lookup gives the latest registration exactly for the methods whose first and
latest registration have the same function. -/
theorem lookupNative_latest_iff {s : JavaRuntime} {log : List Native} (h : Registered s log)
    (hshort : ∀ n ∈ log, n.name.length ≤ kCstrMax) (cls name : List UInt8) :
    s.lookupNative cls name = latestNative log cls name ↔ SameFn log cls name := by
  have hregistered : s.registered = log.map cutSig :=
    h.registered_eq.trans (map_cut_of_short hshort)
  rw [lookupNative_of_registered hregistered, latestNative, SameFn]
  cases hhits : registrations log cls name with
  | nil => simp
  | cons n hits =>
    rw [List.getLast?_cons]
    simp

/-! ## A method that is registered twice -/

/-- An entry for a method `f` with a function. -/
def methodF (fn : BitVec 64) : NativeMethod := ⟨ascii "f", [], fn⟩

/-- A runtime with one class, about to register that method for it. -/
def callRuntime (fn : BitVec 64) (registered : List Native) : JavaRuntime where
  mem := { Memory.init .arm64 false false with
    engine := {
      abi := .arm64
      prot := fun _ => some ucProtRw
      byte := Patches.put (Patches.put (fun _ => 0) 0x1000
        ([0x2000, 0x2001, fn.toNat].flatMap (LittleEndian.toBytes 8))) 0x2000 (ascii "f")
      reg := fun r => if r = .arm64X 1 then kJavaBase else if r = .arm64X 2 then 0x1000
        else if r = .arm64X 3 then 1 else 0 }
    javaNext := kJavaBase + kShadowSize
    javaEnd := kJavaBase + kJavaSize }
  handles := Function.update (fun _ => none) firstHandle
    (some { kind := .clazz, name := ascii "A" })
  registered := registered

/-- The call returns. -/
def returns (s : JavaRuntime) : Bool :=
  match registerNatives s with
  | .ok _ _ => true
  | .error _ _ => false

theorem exists_of_returns {s : JavaRuntime} (h : returns s = true) :
    ∃ s', registerNatives s = .ok () s' := by
  unfold returns at h
  split at h
  next u s' hrun => exact ⟨s', hrun⟩
  · cases h

/-- One more registration of the method. -/
theorem Registered.callRuntime (fn : BitVec 64) {log : List Native} {s : JavaRuntime}
    (h : Registered s log)
    (hspells : Spells (callRuntime fn []).mem.engine 0x1000 (methodF fn))
    (hreturns : returns (JniBridge.callRuntime fn s.registered) = true) :
    ∃ s', Registered s' (log ++ [(methodF fn).native (ascii "A")]) := by
  obtain ⟨s', hrun⟩ := exists_of_returns hreturns
  have hargs : nativesArgs (JniBridge.callRuntime fn s.registered).mem.engine =
      .ok ⟨firstHandle, 0x1000, 1⟩ := rfl
  have htable : MethodTable (JniBridge.callRuntime fn s.registered).mem.engine
      ⟨firstHandle, 0x1000, 1⟩ [methodF fn] := by
    intro i m hm
    cases i with
    | zero =>
      obtain rfl := Option.some.inj hm
      have hentry : NativesArgs.entry ⟨firstHandle, 0x1000, 1⟩
          (JniBridge.callRuntime fn s.registered).mem.engine 0 = 0x1000 := by
        simp [NativesArgs.entry]
      rw [hentry]
      exact hspells
    | succ i => cases hm
  have hother : Registered (JniBridge.callRuntime fn s.registered) log := .other h rfl
  have hlength : (1 : BitVec 32).toNat = [methodF fn].length := rfl
  exact ⟨s', hother.call hargs hlength htable hrun⟩

theorem exists_registered_once : ∃ s, Registered s [(methodF 1).native (ascii "A")] := by
  apply Registered.callRuntime 1 (s := callRuntime 1 []) (.start rfl)
  · exact ⟨⟨0x2000, by decide +kernel⟩, ⟨0x2001, by decide +kernel⟩, by decide +kernel⟩
  · decide +kernel

theorem exists_registered_twice :
    ∃ s, Registered s ([1, 2].map fun fn => (methodF fn).native (ascii "A")) := by
  obtain ⟨s, hs⟩ := exists_registered_once
  apply Registered.callRuntime 2 hs
  · exact ⟨⟨0x2000, by decide +kernel⟩, ⟨0x2001, by decide +kernel⟩, by decide +kernel⟩
  · rw [hs.registered_eq]
    decide +kernel

/-- A method that was registered once is found. -/
theorem lookupNative_latest_once : ∃ s, Registered s [(methodF 1).native (ascii "A")] ∧
    s.lookupNative (ascii "A") (ascii "f") =
      latestNative [(methodF 1).native (ascii "A")] (ascii "A") (ascii "f") := by
  obtain ⟨s, hs⟩ := exists_registered_once
  exact ⟨s, hs, (lookupNative_latest_iff hs (by decide) _ _).mpr (by decide)⟩

/-- Of a method that was registered twice, the first registration is found. -/
theorem lookupNative_finds_first :
    ∃ s, Registered s ([1, 2].map fun fn => (methodF fn).native (ascii "A")) ∧
      s.lookupNative (ascii "A") (ascii "f") = 1 ∧
      latestNative ([1, 2].map fun fn => (methodF fn).native (ascii "A")) (ascii "A")
        (ascii "f") = 2 := by
  obtain ⟨s, hs⟩ := exists_registered_twice
  have hregistered := hs.registered_eq.trans (map_cut_of_short (by decide))
  refine ⟨s, hs, ?_, by decide⟩
  rw [lookupNative_of_registered hregistered]
  decide

end JniBridge

end Vardoger
