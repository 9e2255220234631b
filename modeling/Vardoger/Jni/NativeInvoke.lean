import Vardoger.Engine.Slices
import Vardoger.Jni.CallArgs
import Vardoger.Jni.HandleTable
import Vardoger.Jni.Invoke

/-!
# Natives called from bytecode

An `invoke` instruction reads its argument registers, the callback puts `env` and the class or the
receiver in front of them, and the scheduler points the main thread at the registered function.
The switch over the number of words hands at most six of them on, so a longer list reaches the
function only as far as the seventh and later words are where they should be by chance.
-/

namespace Vardoger

open Stateful Bytes Dex LittleEndian

/-! ## Entering a guest function -/

namespace Scheduler

variable (cfg : SchedConfig) (fn : ℕ) (args : List ℕ) (s : Scheduler)

/-- The main thread at the start of `run`. -/
def mainThread : Thread :=
  { tid := 0, ctx := mainContext cfg s.mem.engine fn args, ctxValid := true }

theorem roundRobin_singleton {t : Thread} (ht : t.state = .runnable) :
    roundRobin [t] 0 = some (t, 0) := by
  simp [roundRobin, List.range_succ, ht]

/-- A run starts with its main thread. -/
theorem beginSlice_beginRun : ∃ rr, beginSlice cfg (s.beginRun cfg fn args) =
    .ok () ((s.beginRun cfg fn args).started cfg (s.mainThread cfg fn args) rr) := by
  rcases beginSlice_cases cfg (s.beginRun cfg fn args) with ⟨t, rr, hmem, -, hrun⟩ | ⟨err, hrun⟩
  · obtain rfl := List.mem_singleton.mp hmem
    exact ⟨rr, hrun⟩
  · exfalso
    rcases pickNext_cases (s.beginRun cfg fn args) with ⟨t, rr, -, -, hpick⟩ | hpick
    · have hget : (modifyGet pickNext : SchedM _) (s.beginRun cfg fn args) =
          .ok (some t) { s.beginRun cfg fn args with prefer := 0, rr := rr } := by
        change EStateM.Result.ok (pickNext _).1 (pickNext _).2 = _
        rw [hpick]
      rw [beginSlice, bind_ok hget] at hrun
      cases hrun
    · have hround := roundRobin_singleton (t := s.mainThread cfg fn args) rfl
      unfold pickNext at hpick
      dsimp only at hpick
      split at hpick
      · cases hpick
      · rw [show roundRobin (s.beginRun cfg fn args).threads (s.beginRun cfg fn args).rr = _ from
          hround] at hpick
        cases hpick

/-- The emulator when it enters `fn` for `run(fn, args)`. -/
def enter : Option Engine :=
  match (World.start cfg fn args s).step cfg .pick with
  | some ⟨s, .slice⟩ => some s.mem.engine
  | _ => none

theorem enter_eq : enter cfg fn args s = some ((s.mem.engine.loadCtx cfg.noVregs
    (mainContext cfg s.mem.engine fn args)).writeUcReg .arm64Pc fn) := by
  obtain ⟨rr, hrun⟩ := beginSlice_beginRun cfg fn args s
  have hstep : (World.start cfg fn args s).step cfg .pick =
      some ⟨(s.beginRun cfg fn args).started cfg (s.mainThread cfg fn args) rr, .slice⟩ := by
    simp only [World.step, World.start, hrun]
  rw [enter, hstep]
  rfl

/-- The function is entered with the given arguments in its first argument registers; the others,
and the words on the stack, are those of before. -/
theorem argument_enter {e : Engine} (h : enter cfg fn args s = some e)
    (habi : s.mem.engine.abi = .arm64) (hargs : args.length ≤ 8) (j : ℕ) :
    e.argument? j = if j < args.length then some (BitVec.ofNat 64 (args.getD j 0))
      else s.mem.engine.argument? j := by
  rw [enter_eq] at h
  obtain rfl := Option.some.inj h
  have hentered : (((s.mem.engine.loadCtx cfg.noVregs
      (mainContext cfg s.mem.engine fn args)).writeUcReg .arm64Pc fn)).abi = .arm64 := habi
  rw [Engine.argument?, Engine.argument?, hentered, habi]
  dsimp only
  by_cases hj : j < 8
  · rw [dif_pos hj, dif_pos hj]
    have hlr : (⟨j, Nat.lt_of_lt_of_le hj (by decide)⟩ : Fin 31) ≠ 30 := by
      intro heq
      have hval : j = 30 := congrArg Fin.val heq
      omega
    have hreg : ((s.mem.engine.loadCtx cfg.noVregs
        (mainContext cfg s.mem.engine fn args)).writeUcReg .arm64Pc fn).reg
          (.arm64X ⟨j, Nat.lt_of_lt_of_le hj (by decide)⟩) =
        args.getD j (s.mem.engine.reg (.arm64X ⟨j, Nat.lt_of_lt_of_le hj (by decide)⟩)) :=
      if_neg hlr
    rw [hreg]
    split
    · rw [List.getD_eq_getElem _ _ ‹_›, List.getD_eq_getElem _ _ ‹_›]
    · rw [List.getD_eq_default _ _ (by omega)]
  · rw [dif_neg hj, dif_neg hj, if_neg (by omega)]
    rfl

theorem pc_enter {e : Engine} (h : enter cfg fn args s = some e) (hfn : fn < 2 ^ 64) :
    e.reg .arm64Pc = fn := by
  rw [enter_eq] at h
  obtain rfl := Option.some.inj h
  exact Nat.mod_eq_of_lt hfn

end Scheduler

/-! ## The callback -/

namespace LifecycleRunner

/-- The words of the native interface: `env`, the class or the receiver, and the arguments. -/
def jniWords (env : BitVec 64) (kind : InvokeKind) (clsb : List UInt8) (a : List (BitVec 64)) :
    JavaM (List (BitVec 64)) := do
  if kind = .static then
    let c ← JavaRuntime.findClass clsb
    return env :: c :: a
  else
    return env :: a.headD 0 :: a.tail

/-- The arguments of `run`: the switch has a case for each length up to five, and its default passes
the first six words. -/
def runArgs (j : List (BitVec 64)) : List (BitVec 64) := j.take 6

/-- The part of `on_invoke` that enters a registered native: the emulator at its first
instruction, if the call gets there. -/
def enterNative (cfg : SchedConfig) (sched : Scheduler) (env : BitVec 64) (f : DexFile)
    (entryClass : List UInt8) (kind : InvokeKind) (midx : ℕ) (a : List (BitVec 64)) :
    JavaM (Option Engine) := do
  let m := f.methodAt midx
  let clsb := jniName m.cls
  let a ← guardName entryClass kind m a
  if dispatch f (← get) kind m a ≠ .elsewhere then
    return none
  -- a call to the superclass ends here, with the class loader or with nothing
  if kind = .super then
    return none
  let fn := (← get).lookupNative clsb m.name
  if fn = 0 then
    return none
  let j ← jniWords env kind clsb a
  let jrt ← get
  return Scheduler.enter cfg fn.toNat ((runArgs j).map BitVec.toNat) { sched with mem := jrt.mem }

end LifecycleRunner

open LifecycleRunner

/-! ## What the native should get -/

/-- The class of a static call or the receiver of another. -/
def JavaRuntime.Receives (jrt : JavaRuntime) (kind : InvokeKind) (clsb : List UInt8)
    (a : List (BitVec 64)) (recv : BitVec 64) : Prop :=
  if kind = .static then jrt.classByName clsb = some recv else recv = a.headD 0

/-- The arguments of a call without its receiver. -/
def ownArgs (kind : InvokeKind) (a : List (BitVec 64)) : List (BitVec 64) :=
  if kind = .static then a else a.tail

/-- The arguments of a native. -/
def nativeArgs (env recv : BitVec 64) (kind : InvokeKind) (a : List (BitVec 64)) :
    List (BitVec 64) :=
  env :: recv :: ownArgs kind a

/-- A function is entered with its arguments in the places the procedure call standard says. -/
structure Engine.EntersWith (e : Engine) (fn : BitVec 64) (words : List (BitVec 64)) : Prop where
  pc : e.reg .arm64Pc = fn.toNat
  arguments : ∀ i w, words[i]? = some w → e.argument? i = some w

/-- The words that an instruction passes: those of its argument registers, which all exist. -/
inductive Passes (regs : List (BitVec 64)) :
    Dalvik.Insn → InvokeKind → ℕ → List (BitVec 64) → Prop
  | listed {kind : InvokeKind} {midx : ℕ} {a : List (BitVec 64)} (rs : List ℕ) :
      rs.map (regs[·]?) = a.map some → Passes regs (.invoke kind midx (rs.map some)) kind midx a
  | range {kind : InvokeKind} {midx first : ℕ} {a : List (BitVec 64)} :
      (∀ i < a.length, regs[first + i]? = a[i]?) →
      Passes regs (.invokeRange kind midx first a.length) kind midx a

section Call

variable (cfg : SchedConfig) (sched : Scheduler) (env : BitVec 64) (f : DexFile)
  (entryClass : List UInt8) (kind : InvokeKind) (midx : ℕ) (a : List (BitVec 64))

/-- The call enters the registered function with `env`, the class or the receiver, and every
argument. -/
def NativeEntered (jrt : JavaRuntime) : Prop :=
  ∃ e jrt' recv,
    enterNative cfg sched env f entryClass kind midx a jrt = .ok (some e) jrt' ∧
      jrt'.Receives kind (jniName (f.methodAt midx).cls) a recv ∧
      e.EntersWith (jrt.lookupNative (jniName (f.methodAt midx).cls) (f.methodAt midx).name)
        (nativeArgs env recv kind a)

/-- A call of a registered native that is not interpreted: the callback prepares the words `j`, and
`jrt'` is the runtime when it is done with that. -/
structure PreparesNative (jrt jrt' : JavaRuntime) (j : List (BitVec 64)) : Prop where
  region : jrt.mem.JavaOk
  abi : jrt'.mem.engine.abi = .arm64
  native : jrt.lookupNative (jniName (f.methodAt midx).cls) (f.methodAt midx).name ≠ 0
  prepares : ∃ a' jrt₁, guardName entryClass kind (f.methodAt midx) a jrt = .ok a' jrt₁ ∧
    dispatch f jrt₁ kind (f.methodAt midx) a' = .elsewhere ∧
    jniWords env kind (jniName (f.methodAt midx).cls) a' jrt₁ = .ok j jrt'

end Call

/-! ## When it does -/

namespace JavaRuntime

variable {s s' : JavaRuntime} {h : BitVec 64}

/-- The handle that a lookup returns is that of the class from then on. -/
theorem findClass_classByName {name : List UInt8} (hrun : findClass name s = .ok h s') :
    s'.classByName name = some h := by
  rw [findClass, get_bind] at hrun
  cases hclass : s.classByName name with
  | some c =>
    rw [hclass] at hrun
    obtain ⟨rfl, rfl⟩ := EStateM.Result.ok.inj hrun
    exact hclass
  | none =>
    rw [hclass] at hrun
    obtain ⟨c, s₁, -, hrun⟩ := of_bind_ok hrun
    rw [modify_bind] at hrun
    obtain ⟨⟨⟩, s₂, hwrite, hrun⟩ := of_bind_ok hrun
    obtain ⟨rfl, rfl⟩ := EStateM.Result.ok.inj hrun
    obtain ⟨-, rfl⟩ := of_write32_ok hwrite
    exact Function.update_self ..

/-- A handle is not null. -/
theorem alloc_ne_zero {r : Record} (hs : s.mem.JavaOk) (hrun : alloc r s = .ok h s') : h ≠ 0 := by
  rcases Memory.javaAlloc_spec (k := 4) hs (by decide : kShadowSize < 2 ^ 32) (by decide) with
    ⟨err, m, halloc, -⟩ | ⟨p, m, halloc, -, hbase, -, hnext, hlt⟩
  · have hfail : alloc r s = .error err { s with mem := m } := bind_error (onMem_error halloc)
    cases hfail.symm.trans hrun
  · have hmade : alloc r s = .ok (BitVec.ofNat 64 p) _ := bind_ok (onMem_ok halloc)
    obtain ⟨rfl, -⟩ := EStateM.Result.ok.inj (hmade.symm.trans hrun)
    intro hzero
    have hvalue : (BitVec.ofNat 64 p).toNat = 0 := by
      rw [hzero]
      rfl
    have hpos : 0 < kJavaBase := by decide
    rw [BitVec.toNat_ofNat, Nat.mod_eq_of_lt (by omega)] at hvalue
    omega

theorem newStringUtf_ne_zero {x : List UInt8} (hs : s.mem.JavaOk)
    (hrun : newStringUtf x s = .ok h s') : h ≠ 0 := by
  obtain ⟨h₁, s₁, halloc, hrun⟩ := of_bind_ok hrun
  obtain ⟨c, s₂, -, hrun⟩ := of_bind_ok hrun
  obtain ⟨u, s₃, -, hrun⟩ := of_bind_ok hrun
  obtain ⟨rfl, rfl⟩ := EStateM.Result.ok.inj hrun
  exact alloc_ne_zero hs halloc

/-- The registrations stay. -/
def SameNatives (s s' : JavaRuntime) : Prop := s'.registered = s.registered

instance : Std.Refl SameNatives := ⟨fun _ => rfl⟩

instance : IsTrans JavaRuntime SameNatives := ⟨fun _ _ _ h h' => Eq.trans h' h⟩

theorem sameNatives_onMem {α : Type} (x : MemM α) : Moves SameNatives (onMem x) := by
  intro s
  unfold onMem
  split <;> rfl

theorem sameNatives_alloc (r : Record) : Moves SameNatives (alloc r) := by
  refine moves_bind (sameNatives_onMem _) fun addr => ?_
  refine moves_bind (moves_modify fun s => ?_) fun _ => moves_pure _
  unfold emplace
  split <;> rfl

theorem sameNatives_findClass (name : List UInt8) : Moves SameNatives (findClass name) := by
  refine moves_bind moves_get fun s => ?_
  split
  · exact moves_pure _
  · refine moves_bind (sameNatives_alloc _) fun h => ?_
    refine moves_bind (moves_modify fun _ => rfl) fun _ => ?_
    exact moves_bind (sameNatives_onMem _) fun _ => moves_pure _

theorem sameNatives_newStringUtf (x : List UInt8) : Moves SameNatives (newStringUtf x) := by
  refine moves_bind (sameNatives_alloc _) fun h => ?_
  refine moves_bind (sameNatives_findClass _) fun c => ?_
  exact moves_bind (sameNatives_onMem _) fun _ => moves_pure _

end JavaRuntime

section Words

variable {env : BitVec 64} {kind : InvokeKind} {clsb entryClass : List UInt8} {m : Method}
  {a a' j : List (BitVec 64)} {jrt jrt' : JavaRuntime}

/-- The callback's words are the arguments of the native. -/
theorem jniWords_eq (hrun : jniWords env kind clsb a jrt = .ok j jrt') :
    ∃ recv, jrt'.Receives kind clsb a recv ∧ j = nativeArgs env recv kind a := by
  by_cases hstatic : kind = .static
  · rw [jniWords, if_pos hstatic] at hrun
    obtain ⟨c, s₁, hclass, hrun⟩ := of_bind_ok hrun
    obtain ⟨rfl, rfl⟩ := EStateM.Result.ok.inj hrun
    refine ⟨c, ?_, ?_⟩
    · rw [JavaRuntime.Receives, if_pos hstatic]
      exact JavaRuntime.findClass_classByName hclass
    · rw [nativeArgs, ownArgs, if_pos hstatic]
  · rw [jniWords, if_neg hstatic] at hrun
    obtain ⟨rfl, rfl⟩ := EStateM.Result.ok.inj hrun
    refine ⟨a.headD 0, ?_, ?_⟩
    · rw [JavaRuntime.Receives, if_neg hstatic]
    · rw [nativeArgs, ownArgs, if_neg hstatic]

/-- The guard leaves the arguments alone, or replaces a null name by a handle. -/
theorem guardName_cases (hjava : jrt.mem.JavaOk)
    (hrun : guardName entryClass kind m a jrt = .ok a' jrt') :
    jrt'.registered = jrt.registered ∧
      ((lacksName kind m a = false ∧ a' = a) ∨
        lacksName kind m a = true ∧ ∃ h, h ≠ 0 ∧ a' = a.set (nameSlot kind a) h) := by
  cases hlacks : lacksName kind m a with
  | false =>
    rw [guardName, if_neg (by simp [hlacks])] at hrun
    obtain ⟨rfl, rfl⟩ := EStateM.Result.ok.inj hrun
    exact ⟨rfl, .inl ⟨rfl, rfl⟩⟩
  | true =>
    rw [guardName, if_pos hlacks] at hrun
    obtain ⟨h, s₁, hnew, hrun⟩ := of_bind_ok hrun
    obtain ⟨rfl, rfl⟩ := EStateM.Result.ok.inj hrun
    have hsame := JavaRuntime.sameNatives_newStringUtf entryClass jrt
    rw [hnew] at hsame
    exact ⟨hsame, .inr ⟨rfl, h, JavaRuntime.newStringUtf_ne_zero hjava hnew, rfl⟩⟩

/-- The guard changes one of the first six words exactly if there are at most six up to the name,
which comes last in a static call. -/
theorem nativeArgs_set_iff {recv h : BitVec 64} (hlacks : lacksName kind m a = true) (hh : h ≠ 0) :
    (∀ i < 6, (nativeArgs env recv kind (a.set (nameSlot kind a) h))[i]? =
      (nativeArgs env recv kind a)[i]?) ↔ kind = .static ∧ 5 ≤ a.length := by
  simp only [lacksName, Bool.and_eq_true, decide_eq_true_eq, Bool.not_eq_true',
    List.isEmpty_eq_false_iff] at hlacks
  obtain ⟨⟨-, hempty⟩, hnull⟩ := hlacks
  have hslot : nameSlot kind a < a.length := (List.getElem?_eq_some_iff.mp hnull).1
  by_cases hstatic : kind = .static
  · have hlast : nameSlot kind a = a.length - 1 := if_pos hstatic
    simp only [nativeArgs, ownArgs, if_pos hstatic]
    constructor
    · intro hsame
      refine ⟨hstatic, ?_⟩
      by_contra hshort
      have hword := hsame (2 + nameSlot kind a) (by omega)
      rw [Nat.add_comm, List.getElem?_cons_succ, List.getElem?_cons_succ, List.getElem?_cons_succ,
        List.getElem?_cons_succ, List.getElem?_set_self hslot, hnull] at hword
      exact hh (Option.some.inj hword)
    · rintro ⟨-, hlong⟩ i hi
      rcases i with _ | _ | i
      · rfl
      · rfl
      · rw [List.getElem?_cons_succ, List.getElem?_cons_succ, List.getElem?_cons_succ,
          List.getElem?_cons_succ, List.getElem?_set_ne (by omega)]
  · have hsecond : nameSlot kind a = 1 := if_neg hstatic
    simp only [nativeArgs, ownArgs, if_neg hstatic, hsecond]
    refine iff_of_false ?_ fun hboth => hstatic hboth.1
    intro hsame
    have hword := hsame 2 (by decide)
    rw [hsecond] at hslot hnull
    rw [List.getElem?_cons_succ, List.getElem?_cons_succ, List.getElem?_cons_succ,
      List.getElem?_cons_succ, List.getElem?_tail, List.getElem?_tail,
      List.getElem?_set_self hslot, hnull] at hword
    exact hh (Option.some.inj hword)

end Words

/-- Reading registers that all exist. -/
theorem mapM_registers {regs : List (BitVec 64)} {rs : List ℕ} {a : List (BitVec 64)}
    (h : rs.map (regs[·]?) = a.map some) :
    (rs.map some).mapM (fun r => r.bind (regs[·]?)) = some a := by
  induction rs generalizing a with
  | nil =>
    obtain rfl := List.map_eq_nil_iff.mp h.symm
    rfl
  | cons r rs ih =>
    cases a with
    | nil => cases h
    | cons w a =>
      obtain ⟨hr, hrs⟩ := List.cons.inj h
      rw [List.map_cons, List.mapM_cons, ih hrs]
      change (regs[r]?).bind (fun v => some (v :: a)) = some (w :: a)
      rw [show regs[r]? = some w from hr]
      rfl

/-- The instruction hands the words of its argument registers to the callback, in order. -/
theorem exec_of_passes {σ : Type} {fr : Dalvik.Frame} {ins : Dalvik.Insn} {kind : InvokeKind}
    {midx : ℕ} {a : List (BitVec 64)} (h : Passes fr.regs ins kind midx a)
    (host : Dalvik.Host σ) {invoke : InvokeKind → ℕ → List (BitVec 64) → σ → BitVec 64 × σ}
    (hhost : host.onInvoke = some invoke) (s : σ) :
    Dalvik.exec host ins fr s =
      .next { fr.advance 3 with ret := (invoke kind midx a s).1 } (invoke kind midx a s).2 := by
  cases h with
  | @listed kind midx a rs hregs =>
    simp only [Dalvik.exec, mapM_registers hregs, Dalvik.Frame.call, hhost]
  | @range kind midx first a hregs =>
    have hwords : (fr.regs.drop first).take a.length = a := by
      apply List.ext_getElem?
      intro i
      rw [List.getElem?_take]
      split
      · rw [List.getElem?_drop]
        exact hregs i ‹_›
      · rw [List.getElem?_eq_none (by omega)]
    simp only [Dalvik.exec, hwords, Dalvik.Frame.call, hhost]

variable {cfg : SchedConfig} {sched : Scheduler} {env : BitVec 64} {f : DexFile}
  {entryClass : List UInt8} {kind : InvokeKind} {midx : ℕ} {a j : List (BitVec 64)}
  {jrt jrt' : JavaRuntime}

/-- A call to the superclass does not enter the native. -/
theorem not_nativeEntered_super
    (h : PreparesNative env f entryClass .super midx a jrt jrt' j) :
    ¬NativeEntered cfg sched env f entryClass .super midx a jrt := by
  obtain ⟨a', jrt₁, hguard, hwhere, -⟩ := h.prepares
  rintro ⟨e, jrt₂, recv, hrun, -⟩
  rw [enterNative, bind_ok hguard, get_bind, if_neg (by rw [hwhere]; simp), if_pos rfl] at hrun
  cases hrun

/-- Any other call enters it with the first six of the prepared words. -/
theorem enterNative_eq (cfg : SchedConfig) (sched : Scheduler) (hkind : kind ≠ .super)
    (h : PreparesNative env f entryClass kind midx a jrt jrt' j) :
    enterNative cfg sched env f entryClass kind midx a jrt =
      .ok (Scheduler.enter cfg
        (jrt.lookupNative (jniName (f.methodAt midx).cls) (f.methodAt midx).name).toNat
        ((runArgs j).map BitVec.toNat) { sched with mem := jrt'.mem }) jrt' := by
  obtain ⟨a', jrt₁, hguard, hwhere, hwords⟩ := h.prepares
  have hnatives := (guardName_cases h.region hguard).1
  have hlookup : jrt₁.lookupNative = jrt.lookupNative := by
    funext cls name
    simp only [JavaRuntime.lookupNative, hnatives]
  rw [enterNative, bind_ok hguard, get_bind, if_neg (by rw [hwhere]; simp), if_neg hkind, get_bind,
    hlookup, if_neg h.native, bind_ok hwords]
  rfl

/-- The entered function finds the first six prepared words; from the seventh on it finds what was
there before. -/
theorem argument_runArgs {fn : ℕ} {s : Scheduler} {e : Engine}
    (h : Scheduler.enter cfg fn ((runArgs j).map BitVec.toNat) s = some e)
    (habi : s.mem.engine.abi = .arm64) (i : ℕ) :
    e.argument? i = if i < 6 ∧ i < j.length then j[i]? else s.mem.engine.argument? i := by
  have hlength : ((runArgs j).map BitVec.toNat).length = min 6 j.length := by simp [runArgs]
  rw [Scheduler.argument_enter cfg fn _ s h habi (by omega) i, hlength]
  by_cases hi : i < 6 ∧ i < j.length
  · rw [if_pos (by omega), if_pos hi, List.getD_eq_getElem _ _ (by omega)]
    simp [runArgs, hi.2]
  · rw [if_neg (by omega), if_neg hi]

/-- The class or the receiver is determined, and the guard does not change it. -/
theorem receives_iff {a' : List (BitVec 64)} {clsb : List UInt8} {recv recv' : BitVec 64}
    (hrecv : jrt.Receives kind clsb a' recv)
    (hhead : kind ≠ .static → a'.headD 0 = a.headD 0) :
    jrt.Receives kind clsb a recv' ↔ recv' = recv := by
  unfold JavaRuntime.Receives at hrecv ⊢
  by_cases hstatic : kind = .static
  · rw [if_pos hstatic] at hrecv
    rw [if_pos hstatic, hrecv, Option.some.injEq, eq_comm]
  · rw [if_neg hstatic, hhead hstatic] at hrecv
    rw [if_neg hstatic, hrecv]

/-- Whether the native gets its arguments, in terms of the prepared words. -/
theorem nativeEntered_iff_words (hkind : kind ≠ .super) {recv : BitVec 64}
    (h : PreparesNative env f entryClass kind midx a jrt jrt' j)
    (hrecv : ∀ recv', jrt'.Receives kind (jniName (f.methodAt midx).cls) a recv' ↔ recv' = recv)
    (hlength : j.length = (nativeArgs env recv kind a).length) :
    NativeEntered cfg sched env f entryClass kind midx a jrt ↔
      (∀ i < 6, j[i]? = (nativeArgs env recv kind a)[i]?) ∧
        ∀ i w, 6 ≤ i → (nativeArgs env recv kind a)[i]? = some w →
          jrt'.mem.engine.argument? i = some w := by
  have hrun := enterNative_eq cfg sched hkind h
  obtain ⟨e, he⟩ : ∃ e, Scheduler.enter cfg
      (jrt.lookupNative (jniName (f.methodAt midx).cls) (f.methodAt midx).name).toNat
      ((runArgs j).map BitVec.toNat) { sched with mem := jrt'.mem } = some e :=
    ⟨_, Scheduler.enter_eq ..⟩
  have hargument := argument_runArgs he h.abi
  rw [he] at hrun
  constructor
  · rintro ⟨e', jrt₂, recv', hrun', hrecv', henters⟩
    obtain ⟨heq, rfl⟩ := EStateM.Result.ok.inj (hrun.symm.trans hrun')
    obtain rfl := Option.some.inj heq
    obtain rfl := (hrecv recv').mp hrecv'
    constructor
    · intro i hi
      cases hw : (nativeArgs env recv' kind a)[i]? with
      | none => exact List.getElem?_eq_none (hlength ▸ List.getElem?_eq_none_iff.mp hw)
      | some w =>
        have hbound : i < j.length := hlength ▸ (List.getElem?_eq_some_iff.mp hw).1
        have hfound := henters.arguments i w hw
        rwa [hargument i, if_pos ⟨hi, hbound⟩] at hfound
    · intro i w hi hw
      have hfound := henters.arguments i w hw
      rwa [hargument i, if_neg (by omega)] at hfound
  · rintro ⟨hfirst, hrest⟩
    refine ⟨e, jrt', recv, hrun, (hrecv recv).mpr rfl, ?_, ?_⟩
    · exact Scheduler.pc_enter _ _ _ _ he (BitVec.isLt _)
    · intro i w hw
      have hbound : i < j.length := hlength ▸ (List.getElem?_eq_some_iff.mp hw).1
      rw [hargument i]
      by_cases hi : i < 6
      · rw [if_pos ⟨hi, hbound⟩, hfirst i hi, hw]
      · rw [if_neg (by omega)]
        exact hrest i w (by omega) hw

/-- The native gets its arguments exactly if the call is not one to the superclass, no null name
among the first six words is replaced, and the words behind these are in place already. -/
theorem nativeEntered_iff (h : PreparesNative env f entryClass kind midx a jrt jrt' j) :
    NativeEntered cfg sched env f entryClass kind midx a jrt ↔
      kind ≠ .super ∧
        (lacksName kind (f.methodAt midx) a → kind = .static ∧ 5 ≤ a.length) ∧
        ∀ i w, 4 ≤ i → (ownArgs kind a)[i]? = some w →
          jrt'.mem.engine.argument? (i + 2) = some w := by
  by_cases hkind : kind = .super
  · subst hkind
    exact iff_of_false (not_nativeEntered_super h) fun hall => hall.1 rfl
  obtain ⟨a', jrt₁, hguard, -, hwords⟩ := h.prepares
  obtain ⟨recv, hrecv, hj⟩ := jniWords_eq hwords
  have hcases := (guardName_cases h.region hguard).2
  have hhead : kind ≠ .static → a'.headD 0 = a.headD 0 := by
    intro hstatic
    rcases hcases with ⟨-, rfl⟩ | ⟨-, x, -, rfl⟩
    · rfl
    · cases a with
      | nil => rfl
      | cons w a => rw [nameSlot, if_neg hstatic, List.set_cons_succ, List.headD_cons,
          List.headD_cons]
  have hlength : j.length = (nativeArgs env recv kind a).length := by
    have hsame : a'.length = a.length := by
      rcases hcases with ⟨-, rfl⟩ | ⟨-, x, -, rfl⟩
      · rfl
      · exact List.length_set
    rw [hj]
    simp only [nativeArgs, ownArgs, List.length_cons]
    split
    · rw [hsame]
    · rw [List.length_tail, List.length_tail, hsame]
  have hfirst : (∀ i < 6, j[i]? = (nativeArgs env recv kind a)[i]?) ↔
      (lacksName kind (f.methodAt midx) a → kind = .static ∧ 5 ≤ a.length) := by
    rcases hcases with ⟨hnamed, rfl⟩ | ⟨hlacks, x, hx, rfl⟩
    · refine iff_of_true (fun i _ => by rw [hj]) fun hlacks => ?_
      rw [hnamed] at hlacks
      cases hlacks
    · rw [hj, nativeArgs_set_iff hlacks hx]
      exact ⟨fun hboth _ => hboth, fun hboth => hboth hlacks⟩
  have hrest : (∀ i w, 6 ≤ i → (nativeArgs env recv kind a)[i]? = some w →
      jrt'.mem.engine.argument? i = some w) ↔
      ∀ i w, 4 ≤ i → (ownArgs kind a)[i]? = some w →
        jrt'.mem.engine.argument? (i + 2) = some w := by
    constructor
    · intro hall i w hi hw
      exact hall (i + 2) w (by omega) hw
    · intro hall i w hi hw
      obtain ⟨i, rfl⟩ : ∃ k, i = k + 2 := ⟨i - 2, by omega⟩
      exact hall i w (by omega) hw
  rw [nativeEntered_iff_words hkind h (fun _ => receives_iff hrecv hhead) hlength, hfirst, hrest]
  exact ⟨fun hboth => ⟨hkind, hboth⟩, fun hall => hall.2⟩

/-- An instruction passes the words of its argument registers to the callback. The registered native
it invokes gets all of them exactly if the call is not one to the superclass, no null name among
the first six words is replaced, and the words behind these are in place already. -/
theorem native_gets_arguments_iff (σ : Type) (fr : Dalvik.Frame) {ins : Dalvik.Insn}
    (hpasses : Passes fr.regs ins kind midx a)
    (h : PreparesNative env f entryClass kind midx a jrt jrt' j) :
    (∀ (host : Dalvik.Host σ) (invoke : InvokeKind → ℕ → List (BitVec 64) → σ → BitVec 64 × σ)
        (s : σ), host.onInvoke = some invoke →
      Dalvik.exec host ins fr s =
        .next { fr.advance 3 with ret := (invoke kind midx a s).1 } (invoke kind midx a s).2) ∧
    (NativeEntered cfg sched env f entryClass kind midx a jrt ↔
      kind ≠ .super ∧
        (lacksName kind (f.methodAt midx) a → kind = .static ∧ 5 ≤ a.length) ∧
        ∀ i w, 4 ≤ i → (ownArgs kind a)[i]? = some w →
          jrt'.mem.engine.argument? (i + 2) = some w) := by
  constructor
  · intro host invoke s hhost
    exact exec_of_passes hpasses host hhost s
  · exact nativeEntered_iff h

/-! ## A native with five parameters -/

/-- The tables of a file with the one method `n` of the class `A`. -/
def nativeDex : DexFile where
  data := List.replicate 4 0 ++
    toBytes 4 40 ++ toBytes 4 45 ++ toBytes 4 48 ++
    toBytes 4 0 ++
    toBytes 4 2 ++ toBytes 8 0 ++
    toBytes 2 0 ++ toBytes 2 0 ++ toBytes 4 1 ++
    [3] ++ ascii "LA;" ++ [0] ++ [1] ++ ascii "n" ++ [0] ++ [6] ++ ascii "VIIIII" ++ [0]
  stringIds := ⟨3, 4⟩
  typeIds := ⟨1, 16⟩
  protoIds := ⟨1, 20⟩
  fieldIds := ⟨0, 0⟩
  methodIds := ⟨1, 32⟩
  classDefs := ⟨0, 0⟩
  classes := []

/-- The class is known and its native is registered. -/
def nativeRuntime : JavaRuntime where
  mem := Memory.init .arm64 false false
  classByName := Function.update (fun _ => none) (ascii "A") (some 0x30000000)
  registered := [⟨ascii "A", ascii "n", ascii "(IIIII)V", 0x40001000⟩]

theorem methodAt_nativeDex :
    nativeDex.methodAt 0 = { cls := ascii "LA;", name := ascii "n", sig := ascii "VIIIII" } := by
  decide +kernel

/-- A static call prepares the class and the arguments. -/
theorem prepares_nativeDex (env : BitVec 64) (a : List (BitVec 64)) :
    PreparesNative env nativeDex [] .static 0 a nativeRuntime nativeRuntime
      (env :: 0x30000000 :: a) where
  region := fun h => absurd rfl h
  abi := rfl
  native := by
    rw [methodAt_nativeDex]
    decide +kernel
  prepares := by
    rw [methodAt_nativeDex]
    have hnamed : lacksName .static { cls := ascii "LA;", name := ascii "n", sig := ascii "VIIIII" }
        a = false := by
      have hname : (ascii "n" ∈ namey) = False := by decide +kernel
      simp [lacksName, hname]
    have hclass : JavaRuntime.findClass (jniName (ascii "LA;")) nativeRuntime =
        .ok 0x30000000 nativeRuntime := rfl
    refine ⟨a, nativeRuntime, ?_, ?_, ?_⟩
    · rw [guardName, if_neg (by simp [hnamed])]
      rfl
    · cases a <;> rfl
    · rw [jniWords, if_pos rfl]
      exact bind_ok hclass

theorem native_gets_two_arguments :
    Passes [7, 8] (.invoke .static 0 [some 0, some 1]) .static 0 [7, 8] ∧
      NativeEntered {} (.init (Memory.init .arm64 false false) false) 0x5000 nativeDex [] .static 0
        [7, 8] nativeRuntime := by
  have hpasses : Passes [7, 8] (.invoke .static 0 [some 0, some 1]) .static 0 [7, 8] :=
    .listed [0, 1] rfl
  refine ⟨hpasses, ((native_gets_arguments_iff Unit ⟨[7, 8], 0, 0⟩ hpasses
    (prepares_nativeDex 0x5000 [7, 8])).2).mpr ⟨by decide, ?_, ?_⟩⟩
  · rw [methodAt_nativeDex]
    decide +kernel
  · intro i w hi hw
    rw [List.getElem?_eq_none (by exact Nat.le_trans (by decide) hi)] at hw
    cases hw

/-- Of five arguments the native does not get the last: its word belongs into `x6`. -/
theorem native_loses_fifth :
    PreparesNative 0x5000 nativeDex [] .static 0 [1, 2, 3, 4, 5] nativeRuntime nativeRuntime
        [0x5000, 0x30000000, 1, 2, 3, 4, 5] ∧
      ¬NativeEntered {} (.init (Memory.init .arm64 false false) false) 0x5000 nativeDex [] .static 0
        [1, 2, 3, 4, 5] nativeRuntime := by
  have hprepares := prepares_nativeDex 0x5000 [1, 2, 3, 4, 5]
  refine ⟨hprepares, fun hentered => ?_⟩
  have hlast := ((nativeEntered_iff hprepares).mp hentered).2.2 4 5 (by decide) rfl
  revert hlast
  decide +kernel

end Vardoger
