import Vardoger.Android.AllocStubs
import Vardoger.Engine.Scheduler

/-!
# The stubs that threads call

The pthread stubs pass a call on to the scheduler while one is running, and otherwise make do
without: a worker runs at once on a stack of its own and returns through a trampoline. Beside them
stand the stubs whose state all threads share: thread-specific data, one-time initialisation
and the iteration over the loaded libraries. A run interleaves the events of the scheduler with
calls of these stubs by the running thread.
-/

namespace Vardoger

open Words

/-- Continue at a guest function. On ARM32 its lowest bit selects the Thumb state. -/
def Memory.redirect (fn : ℕ) : MemM Unit := do
  if (← get).engine.abi = .arm32 then
    let cpsr := (← get).engine.readUcReg .armCpsr
    let cpsr := if fn &&& 1 ≠ 0 then cpsr ||| 0x20 else cpsr &&& 0xffffffffffffffdf
    modify fun m => { m with engine := m.engine.writeUcReg .armCpsr cpsr }
    writeReg .pc (fn &&& 0xfffffffffffffffe)
  else
    writeReg .pc fn

/-! ## The state of the stubs -/

/-- What the creator of an inline worker gets back when the worker returns. -/
structure Stubs.ThreadCtx where
  tid : ℕ
  retLr : ℕ
  sp : ℕ
  /-- The registers from `X19` on. -/
  saved : Fin 12 → ℕ

/-- A loaded library as `dl_iterate_phdr` reports it. -/
structure Stubs.PhdrLib where
  dlpiAddr : ℕ
  phdrAddr : ℕ
  phnum : ℕ
  nameAddr : ℕ
  deriving DecidableEq, Repr

structure Stubs where
  nextTid : ℕ := 0x1000
  threadReturnStub : ℕ := 0
  /-- The creators of the inline workers that run now, the innermost one last. -/
  threadCtx : List Stubs.ThreadCtx := []
  threadResults : ℕ → Option ℕ := fun _ => none
  workerStacks : List ℕ := []
  /-- `VARDOGER_SLEEP_NOOP`. -/
  sleepNoop : Bool := false
  nextPthreadKey : ℕ := 1
  tlsValues : ℕ → Option ℕ := fun _ => none
  phdrLibs : List Stubs.PhdrLib := []
  dlCb : ℕ := 0
  dlData : ℕ := 0
  dlRetLr : ℕ := 0
  dlInfoBuf : ℕ := 0
  dlReturnStub : ℕ := 0
  dlIdx : ℕ := 0

/-- The stubs and the scheduler that they call. -/
structure Process where
  sched : Scheduler
  stubs : Stubs

abbrev StubM := EStateM Failure Process

namespace Process

def onSched {α : Type} (x : SchedM α) : StubM α := fun p =>
  match x p.sched with
  | .ok a s => .ok a { p with sched := s }
  | .error err s => .error err { p with sched := s }

def onMem {α : Type} (x : MemM α) : StubM α := onSched (Scheduler.onMem x)

def engine (p : Process) : Engine := p.sched.mem.engine

def readReg (r : Reg) : StubM ℕ := onMem (Memory.readReg r)

def writeReg (r : Reg) (v : ℕ) : StubM Unit := onMem (Memory.writeReg r v)

/-- Read a word of the given number of bytes. -/
def readT (bytes addr : ℕ) : StubM ℕ := do
  return LittleEndian.ofBytes (← onMem (Memory.read addr bytes))

def writeT (bytes addr v : ℕ) : StubM Unit :=
  onMem (Memory.write addr (LittleEndian.toBytes bytes v))

def redirect (fn : ℕ) : StubM Unit := onMem (Memory.redirect fn)

def modifyStubs (f : Stubs → Stubs) : StubM Unit := modify fun p => { p with stubs := f p.stubs }

end Process

namespace Stubs

open Process

/-! ## Threads -/

/-- Whether calls go to the scheduler. -/
def on : StubM Bool := do return (← get).sched.running

/-- The stacks of nested workers that are not there yet. -/
def growStacks : (missing : ℕ) → StubM Unit
  | 0 => return
  | missing + 1 => do
      let base ← onMem (Memory.mmapAlloc kWorkerStack ucProtRw "thread stack")
      modifyStubs fun s => { s with workerStacks := s.workerStacks ++ [base] }
      growStacks missing

/-- Run a worker in place of its creator, who gets control back when it returns. -/
def createInline (out routine arg : ℕ) : StubM Unit := do
  if (← get).engine.abi ≠ .arm64 then
    writeReg .ret0 0
  else
    let tid := (← get).stubs.nextTid
    modifyStubs fun s => { s with nextTid := s.nextTid + 1 }
    if out ≠ 0 then
      writeT 8 out tid
    let retLr ← readReg .lr
    let sp ← readReg .sp
    let e := (← get).engine
    let saved : Fin 12 → ℕ := fun i => e.readUcReg (.arm64X ⟨19 + i.val, by omega⟩)
    let depth := (← get).stubs.threadCtx.length
    growStacks (depth + 1 - (← get).stubs.workerStacks.length)
    modifyStubs fun s => { s with threadCtx := s.threadCtx ++ [{ tid, retLr, sp, saved }] }
    writeReg .a0 arg
    writeReg .sp (maskDown (add64 ((← get).stubs.workerStacks.getD depth 0) kWorkerStack) 16)
    writeReg .lr (← get).stubs.threadReturnStub
    redirect routine

def pthreadCreate : StubM Unit := do
  let out ← readReg .a0
  let routine ← readReg .a2
  let arg ← readReg .a3
  if ← on then
    onSched (Scheduler.spawn out routine arg)
  else
    createInline out routine arg

/-- The trampoline an inline worker returns to. -/
def pthreadWorkerReturn : StubM Unit := do
  match (← get).stubs.threadCtx.getLast? with
  | none => return
  | some ctx =>
      modifyStubs fun s => { s with threadCtx := s.threadCtx.dropLast }
      let rv ← readReg .ret0
      modifyStubs fun s =>
        { s with threadResults := Function.update s.threadResults ctx.tid (some rv) }
      onMem <| modify fun m =>
        { m with
          engine := (List.finRange 12).foldl
            (fun e i => e.writeUcReg (.arm64X ⟨19 + i.val, by omega⟩) (ctx.saved i)) m.engine }
      writeReg .sp ctx.sp
      writeReg .ret0 0
      redirect ctx.retLr

/-- The result of an inline worker, which has returned before its creator went on. -/
def joinInline (tid out : ℕ) : StubM Unit := do
  if out ≠ 0 then
    writeT 8 out (((← get).stubs.threadResults tid).getD 0)
  writeReg .ret0 0

def pthreadJoin : StubM Unit := do
  let tid ← readReg .a0
  let out ← readReg .a1
  if ← on then
    onSched (Scheduler.doJoin tid out)
  else
    joinInline tid out

def pthreadSelf : StubM Unit := do
  if ← on then
    writeReg .ret0 (← get).sched.cur
  else
    writeReg .ret0 1

def pthreadMutexLock : StubM Unit := do
  if ← on then
    let m ← readReg .a0
    onSched (Scheduler.mutexLock m)
  else
    writeReg .ret0 0

def pthreadMutexUnlock : StubM Unit := do
  if ← on then
    let m ← readReg .a0
    onSched (Scheduler.mutexUnlock m)
  writeReg .ret0 0

def pthreadCondWait : StubM Unit := do
  if ← on then
    let cond ← readReg .a0
    let mutex ← readReg .a1
    onSched (Scheduler.condWait cond mutex)
  else
    writeReg .ret0 0

/-- `pthread_cond_signal` and `pthread_cond_broadcast`. -/
def pthreadCondWake (all : Bool) : StubM Unit := do
  if ← on then
    let cond ← readReg .a0
    onSched (Scheduler.condWake cond all)
  writeReg .ret0 0

/-- `sleep`, `usleep`, `nanosleep` and `sched_yield`. -/
def sleep : StubM Unit := do
  if (← on) && !(← get).stubs.sleepNoop then
    onSched Scheduler.doYield
  else
    writeReg .ret0 0

/-! ## Thread-specific data -/

def pthreadKeyCreate : StubM Unit := do
  let key := (← get).stubs.nextPthreadKey
  modifyStubs fun s => { s with nextPthreadKey := s.nextPthreadKey + 1 }
  let out ← readReg .a0
  writeT ((← get).engine.abi.bits / 8) out key
  writeReg .ret0 0

def pthreadSetspecific : StubM Unit := do
  let key ← readReg .a0
  let value ← readReg .a1
  modifyStubs fun s => { s with tlsValues := Function.update s.tlsValues key (some value) }
  writeReg .ret0 0

def pthreadGetspecific : StubM Unit := do
  let key ← readReg .a0
  writeReg .ret0 (((← get).stubs.tlsValues key).getD 0)

/-! ## One-time initialisation -/

/-- The control word says that the initialiser has run, before it does. -/
def pthreadOnce : StubM Unit := do
  let once ← readReg .a0
  let init ← readReg .a1
  if (← readT 4 once) = 0 then
    writeT 4 once 2
    redirect init
  else
    writeReg .ret0 0

/-- Whether the caller should initialise. -/
def cxaGuardAcquire : StubM Unit := do
  let g ← readReg .a0
  writeReg .ret0 (if (← readT 1 g) = 0 then 1 else 0)

def cxaGuardRelease : StubM Unit := do
  let g ← readReg .a0
  writeT 1 g 1

def cxaGuardAbort : StubM Unit := return

/-! ## The loaded libraries -/

/-- Describe the next library in the shared buffer and go on in the callback, which returns to the
stub of the iteration; behind the last one, return to the caller. -/
def dlIterStep : StubM Unit := do
  let s := (← get).stubs
  match s.phdrLibs[s.dlIdx]? with
  | none =>
      writeReg .ret0 0
      redirect s.dlRetLr
  | some lib =>
      modifyStubs fun s => { s with dlIdx := s.dlIdx + 1 }
      (List.range 8).forM fun k => writeT 8 (add64 s.dlInfoBuf (8 * k)) 0
      writeT 8 s.dlInfoBuf lib.dlpiAddr
      writeT 8 (add64 s.dlInfoBuf 8) lib.nameAddr
      writeT 8 (add64 s.dlInfoBuf 16) lib.phdrAddr
      writeT 2 (add64 s.dlInfoBuf 24) lib.phnum
      writeReg .a0 s.dlInfoBuf
      writeReg .a1 64
      writeReg .a2 s.dlData
      writeReg .lr s.dlReturnStub
      redirect s.dlCb

/-- The stub a callback returns to. -/
def dlIteratePhdrReturn : StubM Unit := do
  if (← readReg .ret0) ≠ 0 then
    redirect (← get).stubs.dlRetLr
  else
    dlIterStep

def dlIteratePhdr : StubM Unit := do
  let cb ← readReg .a0
  modifyStubs fun s => { s with dlCb := cb }
  let data ← readReg .a1
  modifyStubs fun s => { s with dlData := data }
  let retLr ← readReg .lr
  modifyStubs fun s => { s with dlRetLr := retLr, dlIdx := 0 }
  if (← get).stubs.dlInfoBuf = 0 then
    let buf ← onMem (Memory.mmapAlloc 64 ucProtRw "dl_phdr_info")
    modifyStubs fun s => { s with dlInfoBuf := buf }
  if cb = 0 ∨ (← get).stubs.phdrLibs = [] then
    writeReg .ret0 0
  else
    dlIterStep

end Stubs

/-! ## Interleavings -/

/-- The stubs with shared state that a slice can call. -/
inductive StubCall
  | keyCreate | setspecific | getspecific
  | once | guardAcquire | guardRelease | guardAbort
  | dlIterate | dlReturn
  deriving DecidableEq, Repr

def StubCall.run : StubCall → StubM Unit
  | .keyCreate => Stubs.pthreadKeyCreate
  | .setspecific => Stubs.pthreadSetspecific
  | .getspecific => Stubs.pthreadGetspecific
  | .once => Stubs.pthreadOnce
  | .guardAcquire => Stubs.cxaGuardAcquire
  | .guardRelease => Stubs.cxaGuardRelease
  | .guardAbort => Stubs.cxaGuardAbort
  | .dlIterate => Stubs.dlIteratePhdr
  | .dlReturn => Stubs.dlIteratePhdrReturn

/-- One event of a run with stubs. -/
inductive Event
  | act (act : Act)
  /-- The running thread calls a stub. -/
  | stub (call : StubCall)

/-- A run in progress, with the state of the stubs. -/
structure GuestRun where
  world : World
  stubs : Stubs

namespace GuestRun

def process (g : GuestRun) : Process := ⟨g.world.sched, g.stubs⟩

/-- The running thread makes its next step in a slice that goes on. -/
def Going (g : GuestRun) : Prop := g.world.phase = .slice ∧ g.world.sched.stopRequested = false

instance (g : GuestRun) : Decidable g.Going := inferInstanceAs (Decidable (_ ∧ _))

/-- One event; a stub that throws ends in the fault handler of the scheduler. -/
def step (cfg : SchedConfig) (g : GuestRun) : Event → Option GuestRun
  | .act act => (g.world.step cfg act).map fun w => { g with world := w }
  | .stub call =>
      if g.Going then
        match call.run g.process with
        | .ok _ p => some ⟨⟨p.sched, .slice⟩, p.stubs⟩
        | .error err p => some ⟨World.fault cfg err p.sched, p.stubs⟩
      else none

/-- The state in which `run(fn, args)` enters its loop. -/
def start (cfg : SchedConfig) (fn : ℕ) (args : List ℕ) (p : Process) : GuestRun :=
  ⟨World.start cfg fn args p.sched, p.stubs⟩

variable {cfg : SchedConfig} {g g' : GuestRun}

theorem step_act {act : Act} (h : g.step cfg (.act act) = some g') :
    ∃ w, g.world.step cfg act = some w ∧ g' = ⟨w, g.stubs⟩ := by
  obtain ⟨w, hw, rfl⟩ := Option.map_eq_some_iff.mp h
  exact ⟨w, hw, rfl⟩

/-- A stub is called in a slice that goes on, and ends in its result or in the fault handler. -/
theorem step_stub {call : StubCall} (h : g.step cfg (.stub call) = some g') :
    g.Going ∧
      ((∃ u p, call.run g.process = .ok u p ∧ g' = ⟨⟨p.sched, .slice⟩, p.stubs⟩) ∨
        ∃ err p, call.run g.process = .error err p ∧
          g' = ⟨World.fault cfg err p.sched, p.stubs⟩) := by
  unfold step at h
  dsimp only at h
  split at h
  · refine ⟨‹_›, ?_⟩
    split at h
    · exact .inl ⟨_, _, ‹_›, (Option.some.inj h).symm⟩
    · exact .inr ⟨_, _, ‹_›, (Option.some.inj h).symm⟩
  · cases h

/-- The stubs at the end of a call are those of the next state. -/
theorem stubs_step_stub {call : StubCall} (h : g.step cfg (.stub call) = some g') :
    g'.stubs = (Stateful.final (call.run g.process)).stubs := by
  obtain ⟨-, ⟨u, p, hrun, rfl⟩ | ⟨err, p, hrun, rfl⟩⟩ := step_stub h
  · rw [hrun]
    rfl
  · rw [hrun]
    rfl

end GuestRun

/-! ## What a call leaves alone -/

namespace Process

open Stateful

/-- A part of the stubs is the same before and after. -/
def Keeps {α : Type} (part : Stubs → α) (p p' : Process) : Prop := part p'.stubs = part p.stubs

instance {α : Type} (part : Stubs → α) : Std.Refl (Keeps part) := ⟨fun _ => rfl⟩

instance {α : Type} (part : Stubs → α) : IsTrans Process (Keeps part) :=
  ⟨fun _ _ _ h h' => h'.trans h⟩

variable {α β : Type} {part : Stubs → α}

theorem onSched_keeps (x : SchedM β) : Moves (Keeps part) (onSched x) := by
  intro p
  cases hx : x p.sched with
  | ok a s => simp only [onSched, hx, final, Keeps]
  | error err s => simp only [onSched, hx, final, Keeps]

theorem onMem_keeps (x : MemM β) : Moves (Keeps part) (onMem x) := onSched_keeps _

theorem readT_keeps (bytes addr : ℕ) : Moves (Keeps part) (readT bytes addr) :=
  moves_bind (onMem_keeps _) fun _ => moves_pure _

theorem modifyStubs_keeps {f : Stubs → Stubs} (hf : ∀ s, part (f s) = part s) :
    Moves (Keeps part) (modifyStubs f) := moves_modify fun p => hf p.stubs

theorem dlIterStep_keeps (hidx : ∀ s idx, part { s with dlIdx := idx } = part s) :
    Moves (Keeps part) Stubs.dlIterStep := by
  refine moves_bind moves_get fun p => ?_
  dsimp only
  split
  · exact moves_bind (onMem_keeps _) fun _ => onMem_keeps _
  · refine moves_bind (modifyStubs_keeps fun s => hidx s _) fun _ => ?_
    refine moves_bind (moves_forM fun _ _ => onMem_keeps _) fun _ => ?_
    refine moves_bind (onMem_keeps _) fun _ => moves_bind (onMem_keeps _) fun _ => ?_
    refine moves_bind (onMem_keeps _) fun _ => moves_bind (onMem_keeps _) fun _ => ?_
    refine moves_bind (onMem_keeps _) fun _ => moves_bind (onMem_keeps _) fun _ => ?_
    refine moves_bind (onMem_keeps _) fun _ => moves_bind (onMem_keeps _) fun _ => ?_
    exact onMem_keeps _

/-- A stub keeps a part of the state if it is none of the fields that this stub writes. -/
theorem run_keeps {call : StubCall}
    (hkey : call = .keyCreate → ∀ s key, part { s with nextPthreadKey := key } = part s)
    (htls : call = .setspecific → ∀ s values, part { s with tlsValues := values } = part s)
    (hdl : call = .dlIterate ∨ call = .dlReturn → ∀ s cb data lr buf idx,
      part { s with dlCb := cb, dlData := data, dlRetLr := lr, dlInfoBuf := buf, dlIdx := idx } =
        part s) :
    Moves (Keeps part) call.run := by
  cases call with
  | keyCreate =>
    refine moves_bind moves_get fun _ => moves_bind (modifyStubs_keeps fun _ => hkey rfl _ _) ?_
    refine fun _ => moves_bind (onMem_keeps _) fun _ => moves_bind moves_get fun _ => ?_
    exact moves_bind (onMem_keeps _) fun _ => onMem_keeps _
  | setspecific =>
    refine moves_bind (onMem_keeps _) fun _ => moves_bind (onMem_keeps _) fun _ => ?_
    exact moves_bind (modifyStubs_keeps fun _ => htls rfl _ _) fun _ => onMem_keeps _
  | getspecific =>
    exact moves_bind (onMem_keeps _) fun _ => moves_bind moves_get fun _ => onMem_keeps _
  | once =>
    refine moves_bind (onMem_keeps _) fun _ => moves_bind (onMem_keeps _) fun _ => ?_
    refine moves_bind (readT_keeps _ _) fun _ => moves_ite ?_ (onMem_keeps _)
    exact moves_bind (onMem_keeps _) fun _ => onMem_keeps _
  | guardAcquire =>
    exact moves_bind (onMem_keeps _) fun _ => moves_bind (readT_keeps _ _) fun _ => onMem_keeps _
  | guardRelease => exact moves_bind (onMem_keeps _) fun _ => onMem_keeps _
  | guardAbort => exact moves_pure _
  | dlIterate =>
    have hdl := hdl (.inl rfl)
    have hstep : Moves (Keeps part) Stubs.dlIterStep :=
      dlIterStep_keeps fun s idx => hdl s s.dlCb s.dlData s.dlRetLr s.dlInfoBuf idx
    refine moves_bind (onMem_keeps _) fun cb => ?_
    refine moves_bind (modifyStubs_keeps fun s => hdl s cb s.dlData s.dlRetLr s.dlInfoBuf s.dlIdx)
      fun _ => moves_bind (onMem_keeps _) fun data => ?_
    refine moves_bind (modifyStubs_keeps fun s => hdl s s.dlCb data s.dlRetLr s.dlInfoBuf s.dlIdx)
      fun _ => moves_bind (onMem_keeps _) fun lr => ?_
    refine moves_bind (modifyStubs_keeps fun s => hdl s s.dlCb s.dlData lr s.dlInfoBuf 0)
      fun _ => moves_bind moves_get fun _ => moves_ite ?_ ?_
    · refine moves_bind (onMem_keeps _) fun buf => ?_
      refine moves_bind (modifyStubs_keeps fun s => hdl s s.dlCb s.dlData s.dlRetLr buf s.dlIdx) ?_
      exact fun _ => moves_bind moves_get fun _ => moves_ite (onMem_keeps _) hstep
    · exact moves_bind moves_get fun _ => moves_ite (onMem_keeps _) hstep
  | dlReturn =>
    have hdl := hdl (.inr rfl)
    have hstep : Moves (Keeps part) Stubs.dlIterStep :=
      dlIterStep_keeps fun s idx => hdl s s.dlCb s.dlData s.dlRetLr s.dlInfoBuf idx
    refine moves_bind (onMem_keeps _) fun _ => moves_ite ?_ hstep
    exact moves_bind moves_get fun _ => onMem_keeps _

end Process

/-! ## Calls on ARM64 -/

namespace Process

variable {p : Process} {r : Reg} {i : UcReg}

/-- The process with another emulator. -/
def withEngine (p : Process) (e : Engine) : Process :=
  { p with sched := { p.sched with mem := { p.sched.mem with engine := e } } }

@[simp] theorem engine_withEngine (e : Engine) : (p.withEngine e).engine = e := rfl

@[simp] theorem withEngine_withEngine (e e' : Engine) :
    (p.withEngine e).withEngine e' = p.withEngine e' := rfl

theorem onMem_ok {α : Type} {x : MemM α} {a : α} {m : Memory} (h : x p.sched.mem = .ok a m) :
    onMem x p = .ok a { p with sched := { p.sched with mem := m } } := by
  simp only [onMem, onSched, Scheduler.onMem, h]

theorem onMem_error {α : Type} {x : MemM α} {err : Failure} {m : Memory}
    (h : x p.sched.mem = .error err m) :
    onMem x p = .error err { p with sched := { p.sched with mem := m } } := by
  simp only [onMem, onSched, Scheduler.onMem, h]

theorem readReg_eq (hid : regId p.engine.abi r = .ok i) :
    readReg r p = .ok (p.engine.reg i) p := by
  refine onMem_ok (m := p.sched.mem) ?_
  simp only [Memory.readReg, Engine.readReg]
  rw [show p.sched.mem.engine = p.engine from rfl, hid]
  rfl

theorem writeReg_eq (hid : regId p.engine.abi r = .ok i) (v : ℕ) :
    writeReg r v p = .ok () (p.withEngine (p.engine.writeUcReg i v)) := by
  refine onMem_ok (m := { p.sched.mem with engine := p.engine.writeUcReg i v }) ?_
  simp only [Memory.writeReg, Memory.onEngine, Engine.writeReg]
  rw [show p.sched.mem.engine = p.engine from rfl, hid]
  rfl

theorem readReg_arm64 (habi : p.engine.abi = .arm64) (hr : regId .arm64 r = .ok i) :
    readReg r p = .ok (p.engine.reg i) p := readReg_eq (by rw [habi, hr])

theorem writeReg_arm64 (habi : p.engine.abi = .arm64) (hr : regId .arm64 r = .ok i) (v : ℕ) :
    writeReg r v p = .ok () (p.withEngine (p.engine.writeUcReg i v)) :=
  writeReg_eq (by rw [habi, hr]) v

theorem readT_eq {bytes addr : ℕ} (h : p.engine.Accessible addr bytes) :
    readT bytes addr p = .ok (LittleEndian.ofBytes (Patches.slice p.engine.byte addr bytes)) p := by
  have hread : Memory.read addr bytes p.sched.mem =
      .ok (Patches.slice p.engine.byte addr bytes) p.sched.mem := by
    have hok : p.sched.mem.engine.read addr bytes = _ := if_pos h
    rw [Memory.read, hok]
    rfl
  rw [readT, Stateful.bind_ok (onMem_ok hread)]
  rfl

theorem readT_error {bytes addr : ℕ} (h : ¬p.engine.Accessible addr bytes) :
    readT bytes addr p = .error (.engine "uc_mem_read") p := by
  have hread : Memory.read addr bytes p.sched.mem =
      .error (.engine "uc_mem_read") p.sched.mem := by
    have herror : p.sched.mem.engine.read addr bytes = _ := if_neg h
    rw [Memory.read, herror]
  rw [readT, Stateful.bind_error (onMem_error hread)]

theorem writeT_eq {bytes addr : ℕ} (h : p.engine.Accessible addr bytes) (v : ℕ) :
    writeT bytes addr v p =
      .ok () (p.withEngine (p.engine.setBytes addr (LittleEndian.toBytes bytes v))) := by
  have hwrite : p.sched.mem.engine.write addr (LittleEndian.toBytes bytes v) = _ :=
    if_pos (by rw [LittleEndian.length_toBytes]; exact h)
  refine onMem_ok (m := { p.sched.mem with engine := p.engine.setBytes addr _ }) ?_
  simp only [Memory.write, Memory.onEngine, hwrite]
  rfl

theorem writeT_error {bytes addr : ℕ} (h : ¬p.engine.Accessible addr bytes) (v : ℕ) :
    writeT bytes addr v p = .error (.engine "uc_mem_write") p := by
  have hwrite : p.sched.mem.engine.write addr (LittleEndian.toBytes bytes v) = _ :=
    if_neg (by rw [LittleEndian.length_toBytes]; exact h)
  refine onMem_error (m := p.sched.mem) ?_
  simp only [Memory.write, Memory.onEngine, hwrite]

theorem redirect_eq (habi : p.engine.abi = .arm64) (fn : ℕ) :
    redirect fn p = .ok () (p.withEngine (p.engine.writeUcReg .arm64Pc fn)) := by
  have habi' : p.sched.mem.engine.abi = .arm64 := habi
  have hredirect : Memory.redirect fn p.sched.mem = Memory.writeReg .pc fn p.sched.mem := by
    rw [Memory.redirect, Stateful.get_bind, if_neg (by rw [habi']; decide)]
  have hwrite := writeReg_arm64 (r := .pc) habi rfl fn
  rw [← hwrite]
  simp only [redirect, writeReg, onMem, onSched, Scheduler.onMem, hredirect]

end Process

end Vardoger
