import Vardoger.Engine.Memory

/-!
# The green-thread scheduler

Guest threads are saved contexts that take turns on one emulator. `run` picks a runnable thread,
loads its context and emulates a slice; the pthread stubs called from the slice change the thread
table and may end the slice. Here `run` is cut at these points: `beginRun`, `beginSlice`,
`endSlice` and `onFault` are its straight-line pieces, and `World.step` puts them together
with the stub calls a slice makes. What the guest computes in between is arbitrary.
-/

namespace Vardoger

open Words

/-- The switches the scheduler reads from the environment. -/
structure SchedConfig where
  /-- `VARDOGER_NO_VREGS`. -/
  noVregs : Bool := false
  /-- `VARDOGER_SCHED_QUANTUM`; `0` is cooperative. -/
  quantum : ℕ := 0
  /-- `VARDOGER_MAX_PREEMPT`; `0` is unbounded. -/
  maxPreempt : ℕ := 0
  /-- `VARDOGER_TOLERATE_WORKER_FAULT`. -/
  tolerateWorkerFault : Bool := false
  deriving DecidableEq, Repr

inductive ThreadState
  | runnable | blocked | finished
  deriving DecidableEq, Repr

/-- What a blocked thread waits for. -/
inductive BlockReason
  | none | join | mutex | cond
  deriving DecidableEq, Repr

/-- Why a slice ended. -/
inductive Stop
  | none | exit | block | yield
  deriving DecidableEq, Repr

/-- A saved CPU context. -/
structure Context where
  x : Fin 31 → ℕ
  sp : ℕ
  pc : ℕ
  nzcv : ℕ
  tpidr : ℕ
  v : Fin 32 → ℕ

/-- The context of a value-initialised thread. -/
def Context.zero : Context := ⟨fun _ => 0, 0, 0, 0, 0, fun _ => 0⟩

structure Thread where
  tid : ℕ
  state : ThreadState := .runnable
  block : BlockReason := .none
  /-- The target thread of a join, or the address of a mutex or condition. -/
  blockObj : ℕ := 0
  /-- Where a join writes the return value of its target. -/
  joinOut : ℕ := 0
  retval : ℕ := 0
  stackTop : ℕ := 0
  ctx : Context := .zero
  ctxValid : Bool := false

/-- The scheduler and everything it shares with the guest. -/
structure Scheduler where
  mem : Memory
  /-- The thread table in the order of its keys, the thread ids. -/
  threads : List Thread
  /-- The owning thread of each mutex address that was ever locked; thread `0` stands for none. -/
  mutexOwner : ℕ → Option ℕ
  cur : ℕ
  nextTid : ℕ
  /-- The round-robin cursor. -/
  rr : ℕ
  /-- The thread to run next, `0` for none. -/
  prefer : ℕ
  hybrid : Bool
  running : Bool
  stop : Stop
  /-- Whether `uc_emu_stop` was called in the current slice. -/
  stopRequested : Bool
  /-- The preemptions of the current `run`. -/
  preempts : ℕ

abbrev SchedM := EStateM Failure Scheduler

/-- The stack of a worker thread. -/
def kWorkerStack : ℕ := 0x100000

/-- Write the saved registers to the emulator, all but the program counter. -/
def Engine.loadCtx (noVregs : Bool) (c : Context) (e : Engine) : Engine :=
  { e with
    reg := fun
      | .arm64X i => c.x i
      | .arm64Sp => c.sp
      | .arm64Nzcv => c.nzcv
      | .arm64TpidrEl0 => c.tpidr
      | .arm64V i => if noVregs then e.reg (.arm64V i) else c.v i
      | r => e.reg r }

/-- Read the registers of the emulator into a context. -/
def Engine.saveCtx (noVregs : Bool) (e : Engine) (c : Context) : Context where
  x i := e.reg (.arm64X i)
  sp := e.reg .arm64Sp
  pc := e.reg .arm64Pc
  nzcv := e.reg .arm64Nzcv
  tpidr := e.reg .arm64TpidrEl0
  v i := if noVregs then c.v i else e.reg (.arm64V i)

namespace Scheduler

/-- The state the constructor leaves. -/
def init (mem : Memory) (hybrid : Bool) : Scheduler where
  mem := mem
  threads := []
  mutexOwner := fun _ => none
  cur := 0
  nextTid := 1
  rr := 0
  prefer := 0
  hybrid := hybrid
  running := false
  stop := .none
  stopRequested := false
  preempts := 0

/-! ## Access to the memory manager and the emulator -/

def onMem {α : Type} (x : MemM α) : SchedM α := fun s =>
  match x s.mem with
  | .ok a m => .ok a { s with mem := m }
  | .error err m => .error err { s with mem := m }

def readReg (r : Reg) : SchedM ℕ := fun s =>
  match s.mem.engine.readReg r with
  | .ok v => .ok v s
  | .error err => .error err s

def writeReg (r : Reg) (v : ℕ) : SchedM Unit := onMem (Memory.onEngine (·.writeReg r v))

/-- Store the low bytes of a word in little-endian order. -/
def writeT (bytes addr v : ℕ) : SchedM Unit :=
  onMem (Memory.onEngine (·.write addr (LittleEndian.toBytes bytes v)))

/-- `uc_emu_stop`: the emulator returns after the current instruction. -/
def stopEngine : SchedM Unit := modify fun s => { s with stopRequested := true }

/-! ## The thread table -/

def findThread (s : Scheduler) (tid : ℕ) : Option Thread := s.threads.find? fun t => t.tid = tid

/-- `threads_.at(tid)`. -/
def atThread (tid : ℕ) : SchedM Thread := fun s =>
  match s.findThread tid with
  | some t => .ok t s
  | none => .error (.runtime "map::at") s

/-- Change the entry of one thread. -/
def updateThread (tid : ℕ) (f : Thread → Thread) : SchedM Unit :=
  modify fun s => { s with threads := s.threads.map fun t => if t.tid = tid then f t else t }

/-- `threads_[t.tid] = t`. -/
def putThread (t : Thread) : List Thread → List Thread
  | [] => [t]
  | u :: us =>
      if t.tid < u.tid then t :: u :: us
      else if t.tid = u.tid then t :: us
      else u :: putThread t us

/-- Change the first entry that satisfies a predicate. -/
def updateFirst (p : Thread → Bool) (f : Thread → Thread) : List Thread → List Thread
  | [] => []
  | t :: ts => if p t then f t :: ts else t :: updateFirst p f ts

/-- The thread waits for the given object. -/
def waitsFor (why : BlockReason) (obj : ℕ) (t : Thread) : Bool :=
  t.state = .blocked && t.block = why && t.blockObj = obj

/-- Make a blocked thread runnable again. -/
def release (t : Thread) : Thread := { t with block := .none, state := .runnable }

/-! ## The pieces of `run` -/

/-- The next runnable thread in round-robin order, and the cursor behind it. -/
def roundRobin (threads : List Thread) (rr : ℕ) : Option (Thread × ℕ) :=
  (List.range threads.length).findSome? fun k =>
    match threads[(rr + k) % threads.length]? with
    | some t =>
        if t.state = .runnable then some (t, (rr + k + 1) % threads.length) else none
    | none => none

/-- The just-spawned worker if it is runnable, else the next thread in turn. -/
def pickNext (s : Scheduler) : Option Thread × Scheduler :=
  let preferred :=
    if s.prefer = 0 then none
    else (s.findThread s.prefer).filter fun t => t.state = .runnable
  match preferred with
  | some t => (some t, { s with prefer := 0 })
  | none =>
      match roundRobin s.threads s.rr with
      | some (t, rr) => (some t, { s with prefer := 0, rr })
      | none => (none, { s with prefer := 0 })

/-- Deliver the return value of a finished thread and wake the threads that join it. -/
def wakeJoiners (tid : ℕ) : SchedM Unit := do
  let rv := (← atThread tid).retval
  (← get).threads.forM fun t => do
    if waitsFor .join tid t then
      if t.joinOut ≠ 0 then
        writeT 8 t.joinOut rv
      updateThread t.tid release

/-- The context of the main thread: the current registers, pointed at `fn(args...)`. -/
def mainContext (cfg : SchedConfig) (e : Engine) (fn : ℕ) (args : List ℕ) : Context :=
  let c := e.saveCtx cfg.noVregs .zero
  { c with
    pc := fn
    x := fun i => if i = 30 then kFiniPage else args.getD i (c.x i) }

/-- The state in which the loop of `run` starts. -/
def beginRun (cfg : SchedConfig) (fn : ℕ) (args : List ℕ) (s : Scheduler) : Scheduler :=
  { s with
    threads :=
      [{ tid := 0, ctx := mainContext cfg s.mem.engine fn args, ctxValid := true }]
    mutexOwner := fun _ => none
    cur := 0
    rr := 0
    nextTid := 1
    running := true
    preempts := 0 }

/-- Pick a thread and start its slice. -/
def beginSlice (cfg : SchedConfig) : SchedM Unit := do
  match ← modifyGet pickNext with
  | none => throw (.runtime "scheduler: no runnable thread (deadlock)")
  | some t =>
      modify fun s =>
        { s with
          cur := t.tid
          mem := { s.mem with
            engine := (s.mem.engine.loadCtx cfg.noVregs t.ctx).writeUcReg .arm64Pc t.ctx.pc }
          stop := .none
          stopRequested := false }

/-- A number as `%#llx` prints it. -/
def hex (n : ℕ) : String :=
  if n = 0 then "0" else "0x" ++ String.ofList (Nat.toDigits 16 n)

/-- Save the registers into the entry of a thread and set its state. -/
def saveThread (cfg : SchedConfig) (tid : ℕ) (state : ThreadState) : SchedM Unit := do
  let s ← get
  updateThread tid fun t =>
    { t with ctx := s.mem.engine.saveCtx cfg.noVregs t.ctx, state }

/-- What `run` does when the emulator returns from a slice; the result is that of the main thread
if it is done. -/
def endSlice (cfg : SchedConfig) : SchedM (Option ℕ) := do
  let s ← get
  let pcNow := s.mem.engine.readUcReg .arm64Pc
  let ran ← atThread s.cur
  if s.stop = .block then
    saveThread cfg s.cur ran.state
    return none
  else if s.stop = .yield then
    saveThread cfg s.cur .runnable
    return none
  else if pcNow = kFiniPage then
    let retval := s.mem.engine.readUcReg (.arm64X 0)
    updateThread s.cur fun t => { t with retval, state := .finished }
    wakeJoiners s.cur
    if s.cur = 0 then
      modify fun s => { s with running := false }
      return some retval
    else
      return none
  else if cfg.quantum ≠ 0 then
    saveThread cfg s.cur .runnable
    if cfg.maxPreempt ≠ 0 then
      modify fun s => { s with preempts := s.preempts + 1 }
      if s.preempts + 1 > cfg.maxPreempt then
        modify fun s => { s with running := false }
        throw (.runtime "scheduler: preempt cap exceeded (anti-spin)")
    return none
  else
    throw (.runtime ("scheduler: slice ended unexpectedly at pc=" ++ hex pcNow ++
      " (slice_pc=" ++ hex ran.ctx.pc ++ " lr=" ++ hex (ran.ctx.x 30) ++ ")"))

/-- What `run` does with an exception from a slice: retire a worker if told to, else pass it on. -/
def onFault (cfg : SchedConfig) (err : Failure) : SchedM Unit := do
  let s ← get
  if s.cur ≠ 0 ∧ cfg.tolerateWorkerFault then
    let _ ← atThread s.cur
    updateThread s.cur fun t => { t with state := .finished }
    wakeJoiners s.cur
  else
    throw err

/-! ## The operations of the pthread stubs -/

/-- Let the caller resume behind its call, in its next slice. -/
def resumeAtLr : SchedM Unit := do
  writeReg .pc (← readReg .lr)

/-- End the slice so that a new thread runs first. -/
def yieldTo (tid : ℕ) : SchedM Unit := do
  let _ ← atThread (← get).cur
  updateThread (← get).cur fun t => { t with state := .runnable }
  modify fun s => { s with prefer := tid, stop := .yield }
  stopEngine

/-- Take the next thread id. -/
def takeTid : SchedM ℕ := do
  let tid := (← get).nextTid
  modify fun s => { s with nextTid := s.nextTid + 1 }
  return tid

def spawn (outPtr routine arg : ℕ) : SchedM Unit := do
  let tid ← takeTid
  let stack ← onMem (Memory.mmapAlloc kWorkerStack ucProtRw "thread stack")
  let stackTop := maskDown (add64 stack kWorkerStack) 16
  let tpidr := (← get).mem.engine.readUcReg .arm64TpidrEl0
  let ctx : Context :=
    { Context.zero with
      x := fun i => if i = 0 then arg else if i = 30 then kFiniPage else 0
      sp := stackTop
      pc := routine
      tpidr }
  modify fun s =>
    { s with threads := putThread { tid, stackTop, ctx, ctxValid := true } s.threads }
  if outPtr ≠ 0 then
    writeT 8 outPtr tid
  writeReg .ret0 0
  if (← get).hybrid then
    resumeAtLr
    yieldTo tid

/-- Fork the context of the running thread; the result is the child, `0` if there can be none. -/
def spawnClone (cfg : SchedConfig) (childSp tls ptid ctid : ℕ) : SchedM ℕ := do
  let s ← get
  if s.running = false ∨ s.mem.engine.abi ≠ .arm64 then
    return 0
  else
    let tid ← takeTid
    let parent := s.mem.engine.saveCtx cfg.noVregs .zero
    let ctx : Context :=
      { parent with
        x := fun i =>
          if i = 0 then 0 else if i = 30 ∧ childSp ≠ 0 then kFiniPage else parent.x i
        sp := if childSp ≠ 0 then maskDown childSp 16 else parent.sp
        tpidr := if tls ≠ 0 then tls else parent.tpidr }
    modify fun s => { s with threads := putThread { tid, ctx, ctxValid := true } s.threads }
    if ptid ≠ 0 then
      writeT 4 ptid tid
    if ctid ≠ 0 then
      writeT 4 ctid tid
    writeReg .ret0 tid
    if (← get).hybrid then
      yieldTo tid
    return tid

/-- End the running thread as if it had returned; `false` outside of a run. -/
def threadExit (status : ℕ) : SchedM Bool := do
  if (← get).running then
    writeReg .ret0 status
    writeReg .pc kFiniPage
    stopEngine
    return true
  else
    return false

/-- Block the running thread and end its slice. -/
def blockOn (why : BlockReason) (obj : ℕ) (f : Thread → Thread) : SchedM Unit := do
  let _ ← atThread (← get).cur
  updateThread (← get).cur fun t => f { t with state := .blocked, block := why, blockObj := obj }
  writeReg .ret0 0
  resumeAtLr
  modify fun s => { s with stop := .block }
  stopEngine

def doJoin (tid retvalOut : ℕ) : SchedM Unit := do
  match (← get).findThread tid with
  | none =>
      if retvalOut ≠ 0 then
        writeT 8 retvalOut 0
      writeReg .ret0 0
  | some target =>
      if target.state = .finished then
        if retvalOut ≠ 0 then
          writeT 8 retvalOut target.retval
        writeReg .ret0 0
      else
        blockOn .join tid fun t => { t with joinOut := retvalOut }

def doYield : SchedM Unit := do
  writeReg .ret0 0
  resumeAtLr
  modify fun s => { s with stop := .yield }
  stopEngine

/-- The owner word of a mutex says that nobody has it. -/
def isFree (s : Scheduler) (m : ℕ) : Bool := s.mutexOwner m = none || s.mutexOwner m = some 0

def setOwner (m tid : ℕ) (s : Scheduler) : Scheduler :=
  { s with mutexOwner := Function.update s.mutexOwner m (some tid) }

def mutexLock (m : ℕ) : SchedM Unit := do
  let s ← get
  if s.isFree m then
    modify (setOwner m s.cur)
    writeReg .ret0 0
  else
    blockOn .mutex m id

/-- Free a mutex, or hand it to the first thread that waits for it. -/
def unlocked (m : ℕ) (s : Scheduler) : Scheduler :=
  match s.threads.find? (waitsFor .mutex m) with
  | none => s.setOwner m 0
  | some t =>
      { s.setOwner m t.tid with threads := updateFirst (waitsFor .mutex m) release s.threads }

def mutexUnlock (m : ℕ) : SchedM Unit := modify (unlocked m)

def condWait (cond mutex : ℕ) : SchedM Unit := do
  mutexUnlock mutex
  blockOn .cond cond id

def condWake (cond : ℕ) (all : Bool) : SchedM Unit :=
  modify fun s =>
    { s with
      threads :=
        if all then s.threads.map fun t => if waitsFor .cond cond t then release t else t
        else updateFirst (waitsFor .cond cond) release s.threads }

end Scheduler

/-! ## Interleavings -/

/-- The scheduler operations a slice can call. -/
inductive SchedOp
  | spawn (outPtr routine arg : ℕ)
  | spawnClone (childSp tls ptid ctid : ℕ)
  | threadExit (status : ℕ)
  | doJoin (tid retvalOut : ℕ)
  | doYield
  | mutexLock (m : ℕ)
  | mutexUnlock (m : ℕ)
  | condWait (cond mutex : ℕ)
  | condWake (cond : ℕ) (all : Bool)
  deriving DecidableEq, Repr

def SchedOp.run (cfg : SchedConfig) : SchedOp → SchedM Unit
  | .spawn outPtr routine arg => Scheduler.spawn outPtr routine arg
  | .spawnClone childSp tls ptid ctid => do
      let _ ← Scheduler.spawnClone cfg childSp tls ptid ctid
  | .threadExit status => do
      let _ ← Scheduler.threadExit status
  | .doJoin tid retvalOut => Scheduler.doJoin tid retvalOut
  | .doYield => Scheduler.doYield
  | .mutexLock m => Scheduler.mutexLock m
  | .mutexUnlock m => Scheduler.mutexUnlock m
  | .condWait cond mutex => Scheduler.condWait cond mutex
  | .condWake cond all => Scheduler.condWake cond all

/-- Where `run` is. -/
inductive Phase
  | choosing
  | slice
  | returned (result : ℕ)
  | failed (err : Failure)
  deriving DecidableEq, Repr

/-- One event of a run. -/
inductive Act
  /-- The loop picks a thread and starts its slice. -/
  | pick
  /-- The guest computes, and calls stubs that do not involve the scheduler. -/
  | exec (m : Memory)
  | call (op : SchedOp)
  /-- The emulator returns from the slice. -/
  | sliceEnd
  /-- The emulator throws. -/
  | fault (err : Failure)

/-- A run in progress. -/
structure World where
  sched : Scheduler
  phase : Phase

namespace World

/-- The state after the handling of an exception. -/
def fault (cfg : SchedConfig) (err : Failure) (s : Scheduler) : World :=
  match Scheduler.onFault cfg err s with
  | .ok _ s => ⟨s, .choosing⟩
  | .error err s => ⟨s, .failed err⟩

/-- One event; events that cannot happen in the current state have no successor. Once the emulator
was told to stop, the guest does nothing more in this slice. -/
def step (cfg : SchedConfig) (w : World) (act : Act) : Option World :=
  match w.phase, act with
  | .choosing, .pick =>
      match Scheduler.beginSlice cfg w.sched with
      | .ok _ s => some ⟨s, .slice⟩
      | .error err s => some ⟨s, .failed err⟩
  | .slice, .exec m =>
      if w.sched.stopRequested then none else some ⟨{ w.sched with mem := m }, .slice⟩
  | .slice, .call op =>
      if w.sched.stopRequested then none
      else
        match op.run cfg w.sched with
        | .ok _ s => some ⟨s, .slice⟩
        | .error err s => some (fault cfg err s)
  | .slice, .sliceEnd =>
      match Scheduler.endSlice cfg w.sched with
      | .ok none s => some ⟨s, .choosing⟩
      | .ok (some result) s => some ⟨s, .returned result⟩
      | .error err s => some ⟨s, .failed err⟩
  | .slice, .fault err =>
      if w.sched.stopRequested then none else some (fault cfg err w.sched)
  | _, _ => none

/-- The world in which `run(fn, args)` enters its loop. -/
def start (cfg : SchedConfig) (fn : ℕ) (args : List ℕ) (s : Scheduler) : World :=
  ⟨s.beginRun cfg fn args, .choosing⟩

end World

end Vardoger
