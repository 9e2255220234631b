import Vardoger.Android.ThreadStubs
import Vardoger.Base.Runs
import Vardoger.Engine.Allocation

/-!
# Iterations over the loaded libraries

A call of `dl_iterate_phdr` jumps to its callback, and the callback returns to a stub that jumps to
it again or back to the caller of the iteration. The callback, its argument, the return address and
the index of the next library are kept once for all calls. Beside a run we keep them for each
call: every thread has a stack of iterations that have not ended. An iteration goes on as its own
call wants it as long as this call is the last one that any thread has made.
-/

namespace Vardoger

open Stateful Runs Words

/-- An iteration that has not ended: the call, and the number of libraries reported so far. -/
structure Iteration where
  cb : ℕ
  data : ℕ
  retLr : ℕ
  next : ℕ
  deriving DecidableEq, Repr

/-- The `dl_phdr_info` of a library. -/
def Stubs.PhdrLib.info (lib : Stubs.PhdrLib) : List UInt8 :=
  LittleEndian.toBytes 8 lib.dlpiAddr ++ LittleEndian.toBytes 8 lib.nameAddr ++
    LittleEndian.toBytes 8 lib.phdrAddr ++ LittleEndian.toBytes 2 lib.phnum ++
    List.replicate 38 0

/-- There is a buffer for the descriptions, or a free page for it where the next mapping goes. -/
def Process.HasInfoBuf (p : Process) : Prop :=
  let m := p.sched.mem
  if p.stubs.dlInfoBuf = 0 then
    m.engine.Mappable (Memory.skipClashes m.regions kPageSize 4096 m.mmapNext) kPageSize
  else m.engine.Accessible p.stubs.dlInfoBuf 64

instance (p : Process) : Decidable p.HasInfoBuf :=
  inferInstanceAs (Decidable (if p.stubs.dlInfoBuf = 0 then _ else _))

namespace Engine

/-- The emulator goes on in a callback, with the description of a library and an argument. -/
structure Invokes (e : Engine) (cb data lr : ℕ) (lib : Stubs.PhdrLib) : Prop where
  pc : e.reg .arm64Pc = cb
  info : e.Holds (e.reg (.arm64X 0)) lib.info
  size : e.reg (.arm64X 1) = 64
  data : e.reg (.arm64X 2) = data
  lr : e.reg (.arm64X 30) = lr

instance (e : Engine) (cb data lr : ℕ) (lib : Stubs.PhdrLib) :
    Decidable (e.Invokes cb data lr lib) :=
  decidable_of_iff (e.reg .arm64Pc = cb ∧ e.Holds (e.reg (.arm64X 0)) lib.info ∧
      e.reg (.arm64X 1) = 64 ∧ e.reg (.arm64X 2) = data ∧ e.reg (.arm64X 30) = lr)
    ⟨fun h => ⟨h.1, h.2.1, h.2.2.1, h.2.2.2.1, h.2.2.2.2⟩, fun h => ⟨h.1, h.2, h.3, h.4, h.5⟩⟩

/-- The emulator goes on at a return address with a result. -/
def ReturnsTo (e : Engine) (lr result : ℕ) : Prop :=
  e.reg .arm64Pc = lr ∧ e.reg (.arm64X 0) = result

instance (e : Engine) (lr result : ℕ) : Decidable (e.ReturnsTo lr result) :=
  inferInstanceAs (Decidable (_ ∧ _))

/-- An iteration with a callback, its argument and the address the callback returns to goes on with
a library, or returns `0` behind the last one. -/
def GoesOn (e : Engine) (cb data lr caller : ℕ) : Option Stubs.PhdrLib → Prop
  | some lib => e.Invokes cb data lr lib
  | none => e.ReturnsTo caller 0

instance (e : Engine) (cb data lr caller : ℕ) :
    (lib : Option Stubs.PhdrLib) → Decidable (e.GoesOn cb data lr caller lib)
  | some _ => inferInstanceAs (Decidable (e.Invokes _ _ _ _))
  | none => inferInstanceAs (Decidable (e.ReturnsTo _ _))

end Engine

/-- A run with the iterations of each thread, the innermost one first, and the thread whose
innermost iteration belongs to the last call of all. -/
structure IterRecord where
  run : GuestRun
  calls : (tid : ℕ) → List Iteration
  latest : Option ℕ

namespace IterRecord

def cur (r : IterRecord) : ℕ := r.run.world.sched.cur

def engine (r : IterRecord) : Engine := r.run.process.engine

def libs (r : IterRecord) : List Stubs.PhdrLib := r.run.stubs.phdrLibs

/-- A register as a 64-bit word. -/
def word (r : IterRecord) (id : UcReg) : ℕ := r.engine.reg id % 2 ^ 64

/-- The iteration that the running thread asks for, after its first report. -/
def asked (r : IterRecord) : Iteration :=
  ⟨r.word (.arm64X 0), r.word (.arm64X 1), r.word (.arm64X 30), 1⟩

/-- The call has a callback and something to report to it. -/
def Begins (r : IterRecord) : Prop := r.engine.reg (.arm64X 0) ≠ 0 ∧ r.libs ≠ []

instance (r : IterRecord) : Decidable r.Begins := inferInstanceAs (Decidable (_ ∧ _))

/-- The callback that returns wants no more libraries: its result, an `int`, is not zero. -/
def Stops (r : IterRecord) : Prop := r.engine.reg (.arm64X 0) % 2 ^ 32 ≠ 0

instance (r : IterRecord) : Decidable r.Stops := inferInstanceAs (Decidable (_ ≠ _))

/-- The innermost iteration of the running thread ends when its callback returns. -/
def Ends (r : IterRecord) (it : Iteration) : Prop := r.Stops ∨ r.libs.length ≤ it.next

instance (r : IterRecord) (it : Iteration) : Decidable (r.Ends it) :=
  inferInstanceAs (Decidable (_ ∨ _))

/-- The record after an event. -/
def record (r : IterRecord) (g : GuestRun) : Event → IterRecord
  | .stub .dlIterate =>
      if r.Begins then
        { run := g
          calls := Function.update r.calls r.cur (r.asked :: r.calls r.cur)
          latest := some r.cur }
      else { r with run := g, latest := none }
  | .stub .dlReturn =>
      match r.calls r.cur with
      | [] => { r with run := g }
      | it :: rest =>
          if r.Ends it then
            { run := g, calls := Function.update r.calls r.cur rest, latest := none }
          else
            { run := g
              calls := Function.update r.calls r.cur ({ it with next := it.next + 1 } :: rest)
              latest := r.latest }
  | .stub _ | .act _ => { r with run := g }

def step (cfg : SchedConfig) (r : IterRecord) (ev : Event) : Option IterRecord :=
  (r.run.step cfg ev).map fun g => r.record g ev

def start (cfg : SchedConfig) (fn : ℕ) (args : List ℕ) (p : Process) : IterRecord :=
  ⟨.start cfg fn args p, fun _ => [], none⟩

/-! ## What is promised, and when -/

/-- The address the callbacks return to. -/
def returnStub (r : IterRecord) : ℕ := r.run.stubs.dlReturnStub % 2 ^ 64

/-- How a call of `dl_iterate_phdr` goes on: it reports the first library, or returns `0`. -/
def CallCorrect (r : IterRecord) (e : Engine) : Prop :=
  e.GoesOn r.asked.cb r.asked.data r.returnStub (r.engine.reg .arm64Pc) r.libs.head?

/-- How it goes on when the callback of an iteration returns: the next library is reported to this
callback, or the caller of this iteration gets the result of the callback, or `0` at the end. -/
def ReturnCorrect (r : IterRecord) (it : Iteration) (e : Engine) : Prop :=
  if r.Stops then e.ReturnsTo it.retLr (r.engine.reg (.arm64X 0))
  else e.GoesOn it.cb it.data r.returnStub it.retLr r.libs[it.next]?

instance (r : IterRecord) : DecidablePred r.CallCorrect :=
  fun e => inferInstanceAs (Decidable (e.GoesOn _ _ _ _ _))

instance (r : IterRecord) (it : Iteration) : DecidablePred (r.ReturnCorrect it) :=
  fun e => inferInstanceAs (Decidable (if r.Stops then e.ReturnsTo _ _ else e.GoesOn _ _ _ _ _))

/-- The process in which a stub returns. -/
def after (r : IterRecord) (call : StubCall) : Option Process :=
  match call.run r.run.process with
  | .ok _ p => some p
  | .error _ _ => none

/-- A stub returns with an emulator that satisfies a property. -/
def Reaches (r : IterRecord) (call : StubCall) (Q : Engine → Prop) : Prop :=
  ∃ p ∈ r.after call, Q p.engine

/-- Every call with a callback, and every return of a callback, goes on as it should. -/
def Iterates (r : IterRecord) : Event → Prop
  | .stub .dlIterate => r.engine.reg (.arm64X 0) ≠ 0 → r.Reaches .dlIterate r.CallCorrect
  | .stub .dlReturn => ∀ it ∈ (r.calls r.cur).head?, r.Reaches .dlReturn (r.ReturnCorrect it)
  | .stub _ | .act _ => True

/-- The guest is an ARM64 one with a buffer for the descriptions. A callback that returns belongs to
the last call of all, and if its result is `0` as an `int`, then so is the whole register. -/
def Undisturbed (r : IterRecord) : Event → Prop
  | .stub .dlIterate => r.engine.abi = .arm64 ∧ r.run.process.HasInfoBuf
  | .stub .dlReturn =>
      r.engine.abi = .arm64 ∧ r.engine.Accessible r.run.stubs.dlInfoBuf 64 ∧
        r.latest = some r.cur ∧ (¬r.Stops → r.engine.reg (.arm64X 0) = 0)
  | .stub _ | .act _ => True

instance (r : IterRecord) : (ev : Event) → Decidable (r.Iterates ev)
  | .stub .dlIterate => inferInstanceAs (Decidable (_ → ∃ p ∈ _, r.CallCorrect _))
  | .stub .dlReturn => inferInstanceAs (Decidable (∀ it ∈ _, ∃ p ∈ _, r.ReturnCorrect it _))
  | .stub .keyCreate | .stub .setspecific | .stub .getspecific | .stub .once
  | .stub .guardAcquire | .stub .guardRelease | .stub .guardAbort | .act _ => isTrue trivial

instance (r : IterRecord) : (ev : Event) → Decidable (r.Undisturbed ev)
  | .stub .dlIterate => inferInstanceAs (Decidable (_ ∧ Process.HasInfoBuf _))
  | .stub .dlReturn => inferInstanceAs (Decidable (_ ∧ Engine.Accessible _ _ _ ∧ _ ∧ (_ → _)))
  | .stub .keyCreate | .stub .setspecific | .stub .getspecific | .stub .once
  | .stub .guardAcquire | .stub .guardRelease | .stub .guardAbort | .act _ => isTrue trivial

end IterRecord

/-! ## The stubs -/

namespace Stubs

open Process

variable {p : Process}

/-- The loop that clears a buffer. -/
theorem clear_eq {buf n : ℕ} (h : p.engine.Accessible buf (8 * n)) :
    (List.range n).forM (fun k => writeT 8 (add64 buf (8 * k)) 0) p =
      .ok () (p.withEngine (p.engine.setBytes buf (List.replicate (8 * n) 0))) := by
  induction n with
  | zero =>
    have hnothing : p.engine.setBytes buf [] = p.engine := by
      simp only [Engine.setBytes, List.length_nil]
      congr
      funext a
      exact if_neg (by omega)
    rw [Nat.mul_zero, List.replicate_zero, hnothing]
    rfl
  | succ n ih =>
    obtain ⟨hinit, hlast⟩ := Engine.accessible_add.mp (Nat.mul_succ 8 n ▸ h)
    have hlast := hlast.resolve_left (by decide)
    have haddr : add64 buf (8 * n) = buf + 8 * n := add64_of_lt (by have := hlast.1; omega)
    have hwrite := writeT_eq (p := p.withEngine (p.engine.setBytes buf (List.replicate (8 * n) 0)))
      (Engine.accessible_setBytes.mpr hlast) 0
    have happend := Engine.setBytes_append p.engine buf (List.replicate (8 * n) 0)
      (LittleEndian.toBytes 8 0)
    rw [List.length_replicate, show LittleEndian.toBytes 8 0 = List.replicate 8 0 from rfl,
      List.replicate_append_replicate, ← Nat.mul_succ] at happend
    rw [List.range_succ, forM_append_ok (ih hinit), forM_cons_apply, haddr, bind_ok hwrite,
      ← happend]
    rfl

/-- The part of a report that writes the description of a library. -/
theorem describe_eq {buf : ℕ} (hbuf : p.engine.Accessible buf 64) (lib : PhdrLib)
    (report : StubM Unit) :
    ∃ e, (do
        (List.range 8).forM fun k => writeT 8 (add64 buf (8 * k)) 0
        writeT 8 buf lib.dlpiAddr
        writeT 8 (add64 buf 8) lib.nameAddr
        writeT 8 (add64 buf 16) lib.phdrAddr
        writeT 2 (add64 buf 24) lib.phnum
        report) p = report (p.withEngine e) ∧
      e.abi = p.engine.abi ∧ e.Holds buf lib.info := by
  have hadd {k : ℕ} (hk : k < 64) : add64 buf k = buf + k :=
    add64_of_lt (by have := hbuf.1; omega)
  have hpart {k n : ℕ} (h : k + n ≤ 64) : p.engine.Accessible (buf + k) n :=
    ⟨by have := hbuf.1; omega, fun i hi => by
      rw [Nat.add_assoc]
      exact hbuf.2 (k + i) (by omega)⟩
  rw [bind_ok (clear_eq (n := 8) hbuf), hadd (by decide), hadd (by decide), hadd (by decide),
    bind_ok (writeT_eq (by exact hpart (k := 0) (by decide)) _),
    bind_ok (writeT_eq (by exact hpart (by decide)) _),
    bind_ok (writeT_eq (by exact hpart (by decide)) _),
    bind_ok (writeT_eq (by exact hpart (by decide)) _)]
  simp only [withEngine_withEngine, engine_withEngine]
  refine ⟨_, rfl, rfl, ?_⟩
  -- The description grows field by field in a buffer of zeros.
  have hzeros := Engine.holds_setBytes (x := List.replicate 64 0) hbuf
  have hfirst := Engine.Holds.fill (x := []) (n := 64) hzeros
    (w := LittleEndian.toBytes 8 lib.dlpiAddr) (by rw [LittleEndian.length_toBytes]; decide)
  have hsecond := hfirst.fill (w := LittleEndian.toBytes 8 lib.nameAddr)
    (by simp only [LittleEndian.length_toBytes]; decide)
  have hthird := hsecond.fill (w := LittleEndian.toBytes 8 lib.phdrAddr)
    (by simp only [LittleEndian.length_toBytes]; decide)
  have hfourth := hthird.fill (w := LittleEndian.toBytes 2 lib.phnum)
    (by simp only [LittleEndian.length_toBytes]; decide)
  simp only [List.nil_append, List.length_nil, List.length_append, LittleEndian.length_toBytes,
    Nat.add_zero, Nat.reduceAdd, Nat.reduceSub] at hfourth
  exact hfourth

/-- A library is described in the buffer and reported to the callback. -/
theorem dlIterStep_report (habi : p.engine.abi = .arm64)
    (hbuf : p.engine.Accessible p.stubs.dlInfoBuf 64) {lib : PhdrLib}
    (hlib : p.stubs.phdrLibs[p.stubs.dlIdx]? = some lib) :
    ∃ p', dlIterStep p = .ok () p' ∧
      p'.stubs = { p.stubs with dlIdx := p.stubs.dlIdx + 1 } ∧
      p'.engine.Invokes (p.stubs.dlCb % 2 ^ 64) (p.stubs.dlData % 2 ^ 64)
        (p.stubs.dlReturnStub % 2 ^ 64) lib := by
  rw [dlIterStep, get_bind]
  simp only [hlib]
  rw [modifyStubs, modify_bind]
  obtain ⟨e, hrun, habi', hinfo⟩ := describe_eq
    (p := { p with stubs := { p.stubs with dlIdx := p.stubs.dlIdx + 1 } }) hbuf lib (do
      writeReg .a0 p.stubs.dlInfoBuf
      writeReg .a1 64
      writeReg .a2 p.stubs.dlData
      writeReg .lr p.stubs.dlReturnStub
      redirect p.stubs.dlCb)
  have habi' : e.abi = .arm64 := habi'.trans habi
  rw [hrun,
    bind_ok (writeReg_arm64 (r := .a0) (by exact habi') rfl _),
    bind_ok (writeReg_arm64 (r := .a1) (by exact habi') rfl _),
    bind_ok (writeReg_arm64 (r := .a2) (by exact habi') rfl _),
    bind_ok (writeReg_arm64 (r := .lr) (by exact habi') rfl _),
    redirect_eq (by exact habi')]
  simp only [withEngine_withEngine, engine_withEngine]
  refine ⟨_, rfl, rfl, rfl, ?_, rfl, rfl, rfl⟩
  have hword : p.stubs.dlInfoBuf % 2 ^ 64 = p.stubs.dlInfoBuf :=
    Nat.mod_eq_of_lt (by have := hbuf.1; omega)
  rw [← hword] at hinfo
  exact hinfo

/-- Behind the last library, the iteration returns to its caller. -/
theorem dlIterStep_end (habi : p.engine.abi = .arm64)
    (hlib : p.stubs.phdrLibs[p.stubs.dlIdx]? = none) :
    ∃ p', dlIterStep p = .ok () p' ∧ p'.stubs = p.stubs ∧
      p'.engine.ReturnsTo (p.stubs.dlRetLr % 2 ^ 64) 0 := by
  have hresult := writeReg_arm64 (r := .ret0) habi rfl 0
  rw [dlIterStep, get_bind]
  simp only [hlib]
  rw [bind_ok hresult, redirect_eq (by exact habi)]
  exact ⟨_, rfl, rfl, rfl, rfl⟩

/-- The part of a call that makes sure of the buffer. -/
theorem ensureInfoBuf_eq (h : p.HasInfoBuf) :
    ∃ p', (∀ rest : StubM Unit,
        (if p.stubs.dlInfoBuf = 0 then do
          let buf ← onMem (Memory.mmapAlloc 64 ucProtRw "dl_phdr_info")
          modifyStubs fun s => { s with dlInfoBuf := buf }
          rest
        else rest) p = rest p') ∧
      p'.engine.Accessible p'.stubs.dlInfoBuf 64 ∧
      p'.stubs = { p.stubs with dlInfoBuf := p'.stubs.dlInfoBuf } ∧
      p'.engine.reg = p.engine.reg ∧ p'.engine.abi = p.engine.abi := by
  by_cases hzero : p.stubs.dlInfoBuf = 0
  · simp only [HasInfoBuf, if_pos hzero] at h
    obtain ⟨base, size, hsize, hbase, ⟨hnot, -⟩ | ⟨-, -, hmap⟩⟩ :=
      Memory.mmapAlloc_cases 64 ucProtRw "dl_phdr_info" p.sched.mem
    · rw [hbase, show size = kPageSize from hsize] at hnot
      exact absurd ⟨by decide, h⟩ hnot
    · obtain rfl : size = kPageSize := hsize
      rw [← hbase] at h
      let m := { p.sched.mem.addRegion ⟨base, kPageSize, ucProtRw, .mmap, "dl_phdr_info"⟩ with
        mmapNext := add64 base kPageSize }
      refine ⟨⟨{ p.sched with mem := m }, { p.stubs with dlInfoBuf := base }⟩, fun rest => ?_,
        h.accessible (by decide) ucProtRw, rfl, rfl, rfl⟩
      rw [if_pos hzero, bind_ok (onMem_ok hmap)]
      rfl
  · simp only [HasInfoBuf, if_neg hzero] at h
    exact ⟨p, fun rest => by rw [if_neg hzero], h, rfl, rfl, rfl⟩

/-- A call stores its arguments, then returns `0` or reports the first library. -/
theorem dlIteratePhdr_eq (habi : p.engine.abi = .arm64) (h : p.HasInfoBuf) :
    ∃ p₁, p₁.engine.Accessible p₁.stubs.dlInfoBuf 64 ∧
      p₁.stubs = { p.stubs with
        dlCb := p.engine.reg (.arm64X 0)
        dlData := p.engine.reg (.arm64X 1)
        dlRetLr := p.engine.reg (.arm64X 30)
        dlIdx := 0
        dlInfoBuf := p₁.stubs.dlInfoBuf } ∧
      p₁.engine.reg = p.engine.reg ∧ p₁.engine.abi = .arm64 ∧
      dlIteratePhdr p =
        if p.engine.reg (.arm64X 0) = 0 ∨ p.stubs.phdrLibs = [] then writeReg .ret0 0 p₁
        else dlIterStep p₁ := by
  let p₀ : Process := { p with stubs := { p.stubs with
    dlCb := p.engine.reg (.arm64X 0)
    dlData := p.engine.reg (.arm64X 1)
    dlRetLr := p.engine.reg (.arm64X 30)
    dlIdx := 0 } }
  obtain ⟨p₁, hrun, hbuf, hstubs, hreg, habi'⟩ := ensureInfoBuf_eq (p := p₀) h
  refine ⟨p₁, hbuf, hstubs, hreg, habi'.trans habi, ?_⟩
  rw [dlIteratePhdr, bind_ok (readReg_arm64 (r := .a0) habi rfl), modifyStubs, modify_bind,
    bind_ok (readReg_arm64 (r := .a1) (by exact habi) rfl), modifyStubs, modify_bind,
    bind_ok (readReg_arm64 (r := .lr) (by exact habi) rfl), modifyStubs, modify_bind, get_bind]
  refine (hrun _).trans ?_
  rw [get_bind, hstubs]
  split
  · rfl
  · rfl

/-- A callback whose result is not zero ends the iteration. -/
theorem dlIteratePhdrReturn_stop (habi : p.engine.abi = .arm64)
    (hne : p.engine.reg (.arm64X 0) ≠ 0) :
    ∃ p', dlIteratePhdrReturn p = .ok () p' ∧
      p'.engine.ReturnsTo (p.stubs.dlRetLr % 2 ^ 64) (p.engine.reg (.arm64X 0)) := by
  rw [dlIteratePhdrReturn, bind_ok (readReg_arm64 (r := .ret0) habi rfl), if_pos hne,
    get_bind, redirect_eq habi]
  exact ⟨_, rfl, rfl, rfl⟩

theorem dlIteratePhdrReturn_next (habi : p.engine.abi = .arm64)
    (hzero : p.engine.reg (.arm64X 0) = 0) : dlIteratePhdrReturn p = dlIterStep p := by
  rw [dlIteratePhdrReturn, bind_ok (readReg_arm64 (r := .ret0) habi rfl),
    if_neg (not_not.mpr hzero)]

end Stubs

/-! ## Runs -/

/-- The shared state of the stubs is that of an iteration. -/
structure Iteration.Stored (it : Iteration) (s : Stubs) : Prop where
  cb : s.dlCb % 2 ^ 64 = it.cb
  data : s.dlData % 2 ^ 64 = it.data
  retLr : s.dlRetLr % 2 ^ 64 = it.retLr
  next : s.dlIdx = it.next

namespace IterRecord

variable {cfg : SchedConfig} {r r' : IterRecord} {ev : Event}

/-- The stubs store the iteration of the last call of all. -/
def Tracks (r : IterRecord) : Prop :=
  ∀ t ∈ r.latest, ∃ it rest, r.calls t = it :: rest ∧ it.Stored r.run.stubs

theorem reaches_of_ok {call : StubCall} {Q : Engine → Prop} {p : Process}
    (hrun : call.run r.run.process = .ok () p) (hQ : Q p.engine) : r.Reaches call Q := by
  refine ⟨p, ?_, hQ⟩
  simp only [after, hrun, Option.mem_def]

/-- A call with a callback goes on as it should, and is stored if it has not returned. -/
theorem call_correct (habi : r.engine.abi = .arm64) (hbuf : r.run.process.HasInfoBuf)
    (hcb : r.engine.reg (.arm64X 0) ≠ 0) :
    ∃ p, Stubs.dlIteratePhdr r.run.process = .ok () p ∧ r.CallCorrect p.engine ∧
      (r.libs ≠ [] → r.asked.Stored p.stubs) := by
  obtain ⟨p₁, hbuf, hstubs, hreg, habi, hrun⟩ := Stubs.dlIteratePhdr_eq habi hbuf
  rw [hrun]
  unfold CallCorrect
  cases hlibs : r.libs with
  | nil =>
    have hwrite := Process.writeReg_arm64 (r := .ret0) habi rfl 0
    rw [if_pos (.inr hlibs), hwrite]
    refine ⟨_, rfl, ⟨?_, rfl⟩, fun h => absurd rfl h⟩
    exact congrFun hreg .arm64Pc
  | cons lib libs =>
    have hlib : p₁.stubs.phdrLibs[p₁.stubs.dlIdx]? = some lib := by
      rw [hstubs]
      exact congrArg (·[0]?) hlibs
    have hgoes :
        ¬(r.run.process.engine.reg (.arm64X 0) = 0 ∨ r.run.process.stubs.phdrLibs = []) := by
      rintro (hzero | hnil)
      · exact hcb hzero
      · cases hlibs.symm.trans hnil
    rw [if_neg hgoes]
    obtain ⟨p', hreport, hstubs', hinvokes⟩ := Stubs.dlIterStep_report habi hbuf hlib
    rw [hstubs] at hinvokes hstubs'
    exact ⟨p', hreport, hinvokes, fun _ => by rw [hstubs']; exact ⟨rfl, rfl, rfl, rfl⟩⟩

/-- The callback of the stored iteration returns, and the iteration goes on as it should. -/
theorem return_correct {it : Iteration} (habi : r.engine.abi = .arm64)
    (hbuf : r.engine.Accessible r.run.stubs.dlInfoBuf 64) (hit : it.Stored r.run.stubs)
    (hresult : ¬r.Stops → r.engine.reg (.arm64X 0) = 0) :
    ∃ p, Stubs.dlIteratePhdrReturn r.run.process = .ok () p ∧ r.ReturnCorrect it p.engine ∧
      (¬r.Ends it → { it with next := it.next + 1 : Iteration }.Stored p.stubs) := by
  unfold ReturnCorrect
  by_cases hstops : r.Stops
  · have hne : r.engine.reg (.arm64X 0) ≠ 0 := fun h => hstops (by rw [h]; rfl)
    obtain ⟨p, hrun, hreturns⟩ := Stubs.dlIteratePhdrReturn_stop (p := r.run.process) habi hne
    simp only [if_pos hstops, ← hit.retLr]
    exact ⟨p, hrun, hreturns, fun h => absurd (.inl hstops) h⟩
  · have hnext := Stubs.dlIteratePhdrReturn_next (p := r.run.process) habi (hresult hstops)
    simp only [if_neg hstops, hnext, ← hit.next, ← hit.cb, ← hit.data, ← hit.retLr]
    cases hlib : r.libs[r.run.stubs.dlIdx]? with
    | none =>
      obtain ⟨p, hrun, -, hreturns⟩ := Stubs.dlIterStep_end (p := r.run.process) habi hlib
      refine ⟨p, hrun, hreturns, fun h => absurd (.inr ?_) h⟩
      rw [← hit.next]
      exact List.getElem?_eq_none_iff.mp hlib
    | some lib =>
      obtain ⟨p, hrun, hstubs, hinvokes⟩ :=
        Stubs.dlIterStep_report (p := r.run.process) habi hbuf hlib
      refine ⟨p, hrun, hinvokes, fun _ => ?_⟩
      rw [hstubs]
      exact ⟨rfl, rfl, rfl, rfl⟩

/-- The stubs after a stub that returns. -/
theorem stubs_of_step {call : StubCall} {p : Process} {g : GuestRun}
    (hg : r.run.step cfg (.stub call) = some g) (hrun : call.run r.run.process = .ok () p) :
    g.stubs = p.stubs := by
  rw [GuestRun.stubs_step_stub hg, hrun]
  rfl

/-- An event that neither calls an iteration nor returns to one leaves the stored iteration. -/
theorem Tracks.of_same (h : r.Tracks) (hcalls : r'.calls = r.calls) (hlatest : r'.latest = r.latest)
    (hstored : ∀ it : Iteration, it.Stored r.run.stubs → it.Stored r'.run.stubs) : r'.Tracks := by
  intro t ht
  rw [hlatest] at ht
  obtain ⟨it, rest, hcall, hit⟩ := h t ht
  exact ⟨it, rest, by rw [hcalls, hcall], hstored it hit⟩

/-- Every undisturbed event goes on as it should and keeps track of the last call. -/
theorem Tracks.step (h : r.Tracks) (hev : r.Undisturbed ev) (hstep : r.step cfg ev = some r') :
    r'.Tracks ∧ r.Iterates ev := by
  obtain ⟨g, hg, rfl⟩ := Option.map_eq_some_iff.mp hstep
  cases ev with
  | act act =>
    obtain ⟨w, -, rfl⟩ := GuestRun.step_act hg
    exact ⟨h.of_same rfl rfl fun _ => id, trivial⟩
  | stub call =>
    have hother (hcall : ¬(call = .dlIterate ∨ call = .dlReturn)) (it : Iteration)
        (hit : it.Stored r.run.stubs) : it.Stored g.stubs := by
      have hkeeps : Process.Keeps (fun s => (s.dlCb, s.dlData, s.dlRetLr, s.dlIdx)) r.run.process
          (final (call.run r.run.process)) :=
        Process.run_keeps (fun _ _ _ => rfl) (fun _ _ _ => rfl) (fun h => absurd h hcall) _
      simp only [Process.Keeps, ← GuestRun.stubs_step_stub hg, Prod.mk.injEq] at hkeeps
      obtain ⟨hcb, hdata, hlr, hidx⟩ := hkeeps
      constructor
      · rw [hcb]
        exact hit.cb
      · rw [hdata]
        exact hit.data
      · rw [hlr]
        exact hit.retLr
      · rw [hidx]
        exact hit.next
    cases call with
    | dlIterate =>
      obtain ⟨habi, hbuf⟩ := hev
      by_cases hbegins : r.Begins
      · obtain ⟨p, hrun, hcorrect, hstored⟩ := call_correct habi hbuf hbegins.1
        refine ⟨?_, fun _ => reaches_of_ok hrun hcorrect⟩
        intro t ht
        simp only [record, if_pos hbegins, Option.mem_def, Option.some.injEq] at ht ⊢
        subst ht
        rw [Function.update_self, stubs_of_step hg hrun]
        exact ⟨_, _, rfl, hstored hbegins.2⟩
      · refine ⟨?_, fun hcb => ?_⟩
        · intro t ht
          simp only [record, if_neg hbegins] at ht
          cases ht
        · obtain ⟨p, hrun, hcorrect, -⟩ := call_correct habi hbuf hcb
          exact reaches_of_ok hrun hcorrect
    | dlReturn =>
      obtain ⟨habi, hbuf, hlatest, hresult⟩ := hev
      obtain ⟨it, rest, hcalls, hit⟩ := h r.cur hlatest
      obtain ⟨p, hrun, hcorrect, hstored⟩ := return_correct habi hbuf hit hresult
      refine ⟨?_, ?_⟩
      · intro t ht
        by_cases hends : r.Ends it
        · simp only [record, hcalls, if_pos hends] at ht
          cases ht
        · simp only [record, hcalls, if_neg hends, hlatest, Option.mem_def,
            Option.some.injEq] at ht ⊢
          subst ht
          rw [Function.update_self, stubs_of_step hg hrun]
          exact ⟨_, _, rfl, hstored hends⟩
      · intro it' hit'
        rw [hcalls] at hit'
        obtain rfl := Option.some.inj hit'
        exact reaches_of_ok hrun hcorrect
    | _ => exact ⟨h.of_same rfl rfl (hother (by decide)), trivial⟩

/-- In every undisturbed run, every call of `dl_iterate_phdr` reports the libraries in order to its
own callback with its own argument until that returns a value other than `0`, and then returns
to its own caller. -/
theorem iterates_of_undisturbed (cfg : SchedConfig) (fn : ℕ) (args : List ℕ) (p : Process)
    {events : List Event} (hrun : Steps (step cfg) Undisturbed (start cfg fn args p) events) :
    Steps (step cfg) Iterates (start cfg fn args p) events :=
  hrun.imp (I := Tracks) (fun _ _ _ h hev hstep => h.step hev hstep) nofun

/-- The next step of a callback or of the code that calls an iteration. -/
def phdrMemory (x0 lr : ℕ) : Memory :=
  { Memory.init .arm64 false false with
    engine :=
      { Engine.fresh .arm64 with
        prot := fun page => if page = 5 then some ucProtRw else none
        reg := fun r => if r = .arm64X 0 then x0 else if r = .arm64X 30 then lr else 0 } }

/-- Stubs with two libraries and a buffer. -/
def phdrStubs : Stubs :=
  { phdrLibs := [⟨0x10000, 0x10040, 2, 0x5100⟩, ⟨0x20000, 0x20040, 3, 0x5200⟩]
    dlInfoBuf := 0x5000
    dlReturnStub := 0x9000 }

/-- One iteration over two libraries. -/
theorem iterates_of_undisturbed_two :
    let p : Process := ⟨.init (.init .arm64 false false) true, phdrStubs⟩
    let events : List Event := [.act .pick, .act (.exec (phdrMemory 0x6000 0x7000)),
      .stub .dlIterate, .act (.exec (phdrMemory 0 0x9000)), .stub .dlReturn,
      .act (.exec (phdrMemory 0 0x9000)), .stub .dlReturn]
    Steps (step {}) Undisturbed (start {} 0 [] p) events ∧
      Steps (step {}) Iterates (start {} 0 [] p) events := by
  intro p events
  have hrun : Steps (step {}) Undisturbed (start {} 0 [] p) events := by decide +kernel
  exact ⟨hrun, iterates_of_undisturbed {} 0 [] p hrun⟩

/-- A callback calls `dl_iterate_phdr` itself and lets that iteration run to its end. When it
returns, it is not called with the second library: the guest goes on behind the inner call once
more. -/
theorem outer_iteration_lost :
    let p : Process := ⟨.init (.init .arm64 false false) true, phdrStubs⟩
    let events : List Event := [.act .pick, .act (.exec (phdrMemory 0x6000 0x7000)),
      .stub .dlIterate, .act (.exec (phdrMemory 0x6100 0x6004)), .stub .dlIterate,
      .act (.exec (phdrMemory 0 0x9000)), .stub .dlReturn, .act (.exec (phdrMemory 0 0x9000)),
      .stub .dlReturn, .act (.exec (phdrMemory 0 0x9000)), .stub .dlReturn]
    ((events.foldlM (step {}) (start {} 0 [] p)).map fun r => r.engine.reg .arm64Pc) =
        some 0x6004 ∧
      ¬Steps (step {}) Iterates (start {} 0 [] p) events := by
  decide +kernel

end IterRecord

end Vardoger
