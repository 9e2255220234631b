import Vardoger.Engine.Scheduler

/-!
# What a scheduler call can do

The operations of the pthread stubs are built from few updates of the scheduler state: memory and
registers change, the slice is stopped, a thread is added, the running thread blocks, waiting
threads are released, a mutex gets an owner. A relation that these updates respect is respected
by every call, whether it returns or throws.
-/

namespace Vardoger

open Stateful Words

namespace Scheduler

/-- Change the entry of the running thread. -/
def setCurrent (s : Scheduler) (f : Thread → Thread) : Scheduler :=
  { s with threads := s.threads.map fun t => if t.tid = s.cur then f t else t }

/-- Enter a new thread under the next id. -/
def addThread (s : Scheduler) (m : Memory) (t : Thread) : Scheduler :=
  { s with nextTid := s.nextTid + 1, mem := m, threads := putThread t s.threads }

/-- Some of the threads that wait for the object are released, and nothing else happens. -/
def Released (why : BlockReason) (obj : ℕ) : List Thread → List Thread → Prop :=
  List.Forall₂ fun t t' => t' = t ∨ (waitsFor why obj t ∧ t' = release t)

/-- Only the out pointer of a join may differ. -/
def SameButOut (t t' : Thread) : Prop := t' = { t with joinOut := t'.joinOut }

/-- A relation between states that every primitive update of a call respects, apart from the writes
of owner words. -/
structure Primitive (R : Scheduler → Scheduler → Prop) : Prop where
  mem : ∀ s m, R s { s with mem := m }
  halt : ∀ s stop prefer, R s { s with stop := stop, prefer := prefer, stopRequested := true }
  resume : ∀ s, R s (s.setCurrent fun t => { t with state := .runnable })
  takeTid : ∀ s m, R s { s with nextTid := s.nextTid + 1, mem := m }
  addThread : ∀ s m t, t.tid = s.nextTid → t.state = .runnable → R s (s.addThread m t)
  /-- A thread joins only a thread of the table that is not finished. -/
  block : ∀ s why obj (f : Thread → Thread), (∀ t, SameButOut t (f t)) →
    (why = .join → ∃ t ∈ s.threads, t.tid = obj ∧ t.state ≠ .finished) →
    R s (s.setCurrent fun t => f { t with state := .blocked, block := why, blockObj := obj })
  /-- The calls release threads that wait for a mutex or a condition. -/
  wake : ∀ s why obj threads, why ≠ .join → Released why obj s.threads threads →
    R s { s with threads := threads }

/-! ## The thread table -/

theorem findThread_mem {s : Scheduler} {tid : ℕ} {t : Thread} (h : s.findThread tid = some t) :
    t ∈ s.threads ∧ t.tid = tid := by
  refine ⟨List.mem_of_find?_eq_some h, ?_⟩
  simpa using List.find?_some h

theorem released_refl (why : BlockReason) (obj : ℕ) (threads : List Thread) :
    Released why obj threads threads :=
  List.forall₂_same.mpr fun _ _ => .inl rfl

theorem released_map (why : BlockReason) (obj : ℕ) (threads : List Thread) :
    Released why obj threads
      (threads.map fun t => if waitsFor why obj t then release t else t) := by
  rw [Released, List.forall₂_map_right_iff, List.forall₂_same]
  intro t _
  split
  · exact .inr ⟨‹_›, rfl⟩
  · exact .inl rfl

theorem released_updateFirst (why : BlockReason) (obj : ℕ) (threads : List Thread) :
    Released why obj threads (updateFirst (waitsFor why obj) release threads) := by
  induction threads with
  | nil => exact List.Forall₂.nil
  | cons t threads ih =>
    rw [updateFirst]
    split
    · exact List.Forall₂.cons (.inr ⟨‹_›, rfl⟩) (released_refl why obj threads)
    · exact List.Forall₂.cons (.inl rfl) ih

/-! ## Moves -/

variable {R : Scheduler → Scheduler → Prop}

theorem onMem_moves (hR : Primitive R) {α : Type} (x : MemM α) : Moves R (onMem x) := by
  intro s
  unfold onMem
  split
  · exact hR.mem s _
  · exact hR.mem s _

theorem stopEngine_moves (hR : Primitive R) : Moves R stopEngine :=
  fun s => hR.halt s s.stop s.prefer

/-- The end of a call that ends the slice. -/
theorem halt_moves (hR : Primitive R) (stop : Stop) :
    Moves R (do
      modify fun s => { s with stop := stop }
      stopEngine : SchedM Unit) :=
  fun s => hR.halt s stop s.prefer

theorem condWake_moves (hR : Primitive R) (cond : ℕ) (all : Bool) :
    Moves R (condWake cond all) := by
  refine moves_modify fun s => hR.wake s .cond cond _ (by decide) ?_
  split
  · exact released_map _ _ _
  · exact released_updateFirst _ _ _

section Reflexive

variable [Std.Refl R]

theorem readReg_moves (r : Reg) : Moves R (readReg r) := by
  intro s
  unfold readReg
  split
  · exact refl_of R s
  · exact refl_of R s

theorem atThread_moves (tid : ℕ) : Moves R (atThread tid) := by
  intro s
  unfold atThread
  split
  · exact refl_of R s
  · exact refl_of R s

end Reflexive

variable [IsTrans Scheduler R]

theorem mutexUnlock_moves (hR : Primitive R) (howner : ∀ s m tid, R s (setOwner m tid s)) (m : ℕ) :
    Moves R (mutexUnlock m) := by
  refine moves_modify fun s => ?_
  unfold unlocked
  split
  · exact howner s m 0
  · exact trans_of R (howner s m _)
      (hR.wake (s.setOwner m _) .mutex m _ (by decide) (released_updateFirst _ _ _))

variable [Std.Refl R]

theorem resumeAtLr_moves (hR : Primitive R) : Moves R resumeAtLr :=
  moves_bind (readReg_moves _) fun _ => onMem_moves hR _

theorem yieldTo_moves (hR : Primitive R) (tid : ℕ) : Moves R (yieldTo tid) := by
  refine moves_bind moves_get fun _ => moves_bind (atThread_moves _) fun _ => ?_
  intro s
  rw [get_bind]
  refine related_bind (hR.resume s) fun _ s => ?_
  exact hR.halt s .yield tid

/-- A call that blocks changes the entry of the running thread and ends the slice. -/
theorem blockOn_related (hR : Primitive R) {s : Scheduler} {why : BlockReason} {obj : ℕ}
    {f : Thread → Thread} (hf : ∀ t, SameButOut t (f t))
    (htarget : why = .join → ∃ t ∈ s.threads, t.tid = obj ∧ t.state ≠ .finished) :
    R s (final (blockOn why obj f s)) := by
  rw [blockOn, get_bind]
  cases hfind : s.findThread s.cur with
  | none =>
    have hat : atThread s.cur s = .error (.runtime "map::at") s := by rw [atThread, hfind]
    rw [bind_error hat]
    exact refl_of R s
  | some t =>
    have hat : atThread s.cur s = .ok t s := by rw [atThread, hfind]
    rw [bind_ok hat, get_bind]
    refine related_bind (hR.block s why obj f hf htarget) fun _ => ?_
    refine moves_bind (onMem_moves hR _) fun _ => moves_bind (resumeAtLr_moves hR) fun _ => ?_
    exact halt_moves hR .block

/-- The part of `spawn` behind the creation of the thread. -/
def announce (outPtr tid : ℕ) : SchedM Unit := do
  if outPtr ≠ 0 then
    writeT 8 outPtr tid
  writeReg .ret0 0
  if (← get).hybrid then
    resumeAtLr
    yieldTo tid

/-- The thread that `spawn` creates on a stack at `stack`. -/
def worker (s : Scheduler) (stack routine arg : ℕ) : Thread where
  tid := s.nextTid
  stackTop := maskDown (add64 stack kWorkerStack) 16
  ctx :=
    { Context.zero with
      x := fun i => if i = 0 then arg else if i = 30 then kFiniPage else 0
      sp := maskDown (add64 stack kWorkerStack) 16
      pc := routine
      tpidr := s.mem.engine.reg .arm64TpidrEl0 }
  ctxValid := true

/-- Without a stack there is no thread. -/
theorem spawn_error {s : Scheduler} {outPtr routine arg : ℕ} {err : Failure} {m : Memory}
    (h : Memory.mmapAlloc kWorkerStack ucProtRw "thread stack" s.mem = .error err m) :
    spawn outPtr routine arg s = .error err { s with nextTid := s.nextTid + 1, mem := m } := by
  have hstack : onMem (Memory.mmapAlloc kWorkerStack ucProtRw "thread stack")
      { s with nextTid := s.nextTid + 1 } =
        .error err { s with nextTid := s.nextTid + 1, mem := m } := by
    rw [onMem, h]
  have htake : takeTid s = .ok s.nextTid { s with nextTid := s.nextTid + 1 } := rfl
  rw [spawn, bind_ok htake, bind_error hstack]

theorem spawn_ok {s : Scheduler} {outPtr routine arg : ℕ} {stack : ℕ} {m : Memory}
    (h : Memory.mmapAlloc kWorkerStack ucProtRw "thread stack" s.mem = .ok stack m) :
    spawn outPtr routine arg s = announce outPtr s.nextTid
      (s.addThread m (worker { s with mem := m } stack routine arg)) := by
  have hstack : onMem (Memory.mmapAlloc kWorkerStack ucProtRw "thread stack")
      { s with nextTid := s.nextTid + 1 } =
        .ok stack { s with nextTid := s.nextTid + 1, mem := m } := by
    rw [onMem, h]
  have htake : takeTid s = .ok s.nextTid { s with nextTid := s.nextTid + 1 } := rfl
  rw [spawn, bind_ok htake, bind_ok hstack]
  rfl

theorem announce_moves (hR : Primitive R) (outPtr tid : ℕ) : Moves R (announce outPtr tid) := by
  refine moves_when (onMem_moves hR _) fun _ => moves_bind (onMem_moves hR _) fun _ => ?_
  refine moves_bind moves_get fun s => moves_ite ?_ (moves_pure _)
  exact moves_bind (resumeAtLr_moves hR) fun _ => yieldTo_moves hR _

theorem spawn_moves (hR : Primitive R) (outPtr routine arg : ℕ) :
    Moves R (spawn outPtr routine arg) := by
  intro s
  cases h : Memory.mmapAlloc kWorkerStack ucProtRw "thread stack" s.mem with
  | error err m =>
    rw [spawn_error h]
    exact hR.takeTid s m
  | ok stack m =>
    rw [spawn_ok h]
    exact trans_of R (hR.addThread s m _ rfl rfl) (announce_moves hR _ _ _)

/-- The thread that `spawn_clone` creates. -/
def child (cfg : SchedConfig) (s : Scheduler) (childSp tls : ℕ) : Thread :=
  let parent := s.mem.engine.saveCtx cfg.noVregs .zero
  { tid := s.nextTid
    ctx :=
      { parent with
        x := fun i =>
          if i = 0 then 0 else if i = 30 ∧ childSp ≠ 0 then kFiniPage else parent.x i
        sp := if childSp ≠ 0 then maskDown childSp 16 else parent.sp
        tpidr := if tls ≠ 0 then tls else parent.tpidr }
    ctxValid := true }

theorem spawnClone_moves (hR : Primitive R) (cfg : SchedConfig) (childSp tls ptid ctid : ℕ) :
    Moves R (spawnClone cfg childSp tls ptid ctid) := by
  intro s
  rw [spawnClone, get_bind]
  split
  · exact refl_of R s
  · refine trans_of R (hR.addThread s s.mem (child cfg s childSp tls) rfl rfl) ?_
    refine moves_when (onMem_moves hR _) (fun _ => moves_when (onMem_moves hR _) fun _ => ?_) _
    refine moves_bind (onMem_moves hR _) fun _ => moves_bind moves_get fun s => ?_
    exact moves_when (yieldTo_moves hR _) fun _ => moves_pure _

theorem threadExit_moves (hR : Primitive R) (status : ℕ) : Moves R (threadExit status) := by
  refine moves_bind moves_get fun s => moves_ite ?_ (moves_pure _)
  refine moves_bind (onMem_moves hR _) fun _ => moves_bind (onMem_moves hR _) fun _ => ?_
  exact moves_bind (stopEngine_moves hR) fun _ => moves_pure _

theorem doJoin_moves (hR : Primitive R) (tid retvalOut : ℕ) : Moves R (doJoin tid retvalOut) := by
  have hdone (v : ℕ) : Moves R (do
      if retvalOut ≠ 0 then
        writeT 8 retvalOut v
      writeReg .ret0 0) := moves_when (onMem_moves hR _) fun _ => onMem_moves hR _
  intro s
  rw [doJoin, get_bind]
  cases hfind : s.findThread tid with
  | none => exact hdone _ s
  | some target =>
    obtain ⟨hmem, htid⟩ := findThread_mem hfind
    dsimp only
    split
    · exact hdone _ s
    · refine blockOn_related hR (fun _ => rfl) fun _ => ⟨target, hmem, htid, ‹_›⟩

theorem doYield_moves (hR : Primitive R) : Moves R doYield := by
  refine moves_bind (onMem_moves hR _) fun _ => moves_bind (resumeAtLr_moves hR) fun _ => ?_
  exact halt_moves hR .yield

theorem mutexLock_moves (hR : Primitive R) (howner : ∀ s m tid, R s (setOwner m tid s)) (m : ℕ) :
    Moves R (mutexLock m) := by
  intro s
  rw [mutexLock, get_bind]
  split
  · exact related_bind (howner s m s.cur) fun _ => onMem_moves hR _
  · exact blockOn_related hR (fun _ => rfl) nofun

theorem condWait_moves (hR : Primitive R) (howner : ∀ s m tid, R s (setOwner m tid s))
    (cond mutex : ℕ) : Moves R (condWait cond mutex) :=
  moves_bind (mutexUnlock_moves hR howner mutex) fun _ _ =>
    blockOn_related hR (fun _ => rfl) nofun

end Scheduler

/-- The calls that write owner words. -/
def SchedOp.writesOwners : SchedOp → Bool
  | .mutexLock _ | .mutexUnlock _ | .condWait _ _ => true
  | _ => false

/-- A call moves the state as its primitive updates do. -/
theorem SchedOp.run_moves {R : Scheduler → Scheduler → Prop} [Std.Refl R] [IsTrans Scheduler R]
    (hR : Scheduler.Primitive R) (cfg : SchedConfig) (op : SchedOp)
    (howner : op.writesOwners = true → ∀ s m tid, R s (Scheduler.setOwner m tid s)) :
    Moves R (op.run cfg) := by
  cases op with
  | spawn outPtr routine arg => exact Scheduler.spawn_moves hR outPtr routine arg
  | spawnClone childSp tls ptid ctid =>
    exact moves_bind (Scheduler.spawnClone_moves hR cfg childSp tls ptid ctid) fun _ => moves_pure _
  | threadExit status =>
    exact moves_bind (Scheduler.threadExit_moves hR status) fun _ => moves_pure _
  | doJoin tid retvalOut => exact Scheduler.doJoin_moves hR tid retvalOut
  | doYield => exact Scheduler.doYield_moves hR
  | mutexLock m => exact Scheduler.mutexLock_moves hR (howner rfl) m
  | mutexUnlock m => exact Scheduler.mutexUnlock_moves hR (howner rfl) m
  | condWait c m => exact Scheduler.condWait_moves hR (howner rfl) c m
  | condWake c all => exact Scheduler.condWake_moves hR c all

/-! ## One event -/

namespace World

variable {cfg : SchedConfig} {w w' : World}

theorem step_pick (h : w.step cfg .pick = some w') :
    w.phase = .choosing ∧
      ((∃ u s, Scheduler.beginSlice cfg w.sched = .ok u s ∧ w' = ⟨s, .slice⟩) ∨
        ∃ err s, Scheduler.beginSlice cfg w.sched = .error err s ∧ w' = ⟨s, .failed err⟩) := by
  cases hphase : w.phase <;> simp only [World.step, hphase, reduceCtorEq] at h
  refine ⟨rfl, ?_⟩
  split at h
  · exact .inl ⟨_, _, ‹_›, (Option.some.inj h).symm⟩
  · exact .inr ⟨_, _, ‹_›, (Option.some.inj h).symm⟩

theorem step_exec {m : Memory} (h : w.step cfg (.exec m) = some w') :
    w.phase = .slice ∧ w.sched.stopRequested = false ∧
      w' = ⟨{ w.sched with mem := m }, .slice⟩ := by
  cases hphase : w.phase <;> simp only [World.step, hphase, reduceCtorEq] at h
  split at h
  · cases h
  · exact ⟨rfl, Bool.eq_false_iff.mpr ‹_›, (Option.some.inj h).symm⟩

/-- A call happens in a slice that goes on, and ends in its result or in the fault handler. -/
theorem step_call {op : SchedOp} (h : w.step cfg (.call op) = some w') :
    w.phase = .slice ∧ w.sched.stopRequested = false ∧
      ((∃ u s, op.run cfg w.sched = .ok u s ∧ w' = ⟨s, .slice⟩) ∨
        ∃ err s, op.run cfg w.sched = .error err s ∧ w' = World.fault cfg err s) := by
  cases hphase : w.phase <;> simp only [World.step, hphase, reduceCtorEq] at h
  split at h
  · cases h
  · refine ⟨rfl, Bool.eq_false_iff.mpr ‹_›, ?_⟩
    split at h
    · exact .inl ⟨_, _, ‹_›, (Option.some.inj h).symm⟩
    · exact .inr ⟨_, _, ‹_›, (Option.some.inj h).symm⟩

/-- Where `run` is after a slice that ended with the given result. -/
def afterSlice : Option ℕ → Phase
  | none => .choosing
  | some result => .returned result

theorem step_sliceEnd (h : w.step cfg .sliceEnd = some w') :
    w.phase = .slice ∧
      ((∃ r s, Scheduler.endSlice cfg w.sched = .ok r s ∧ w' = ⟨s, afterSlice r⟩) ∨
        ∃ err s, Scheduler.endSlice cfg w.sched = .error err s ∧ w' = ⟨s, .failed err⟩) := by
  cases hphase : w.phase <;> simp only [World.step, hphase, reduceCtorEq] at h
  refine ⟨rfl, ?_⟩
  split at h
  · exact .inl ⟨_, _, ‹_›, (Option.some.inj h).symm⟩
  · exact .inl ⟨_, _, ‹_›, (Option.some.inj h).symm⟩
  · exact .inr ⟨_, _, ‹_›, (Option.some.inj h).symm⟩

theorem step_sliceEnd_ok {s s' : Scheduler} {r : Option ℕ}
    (h : Scheduler.endSlice cfg s = .ok r s') :
    step cfg ⟨s, .slice⟩ .sliceEnd = some ⟨s', afterSlice r⟩ := by
  cases r <;> simp only [World.step, h, afterSlice]

theorem step_sliceEnd_error {s s' : Scheduler} {err : Failure}
    (h : Scheduler.endSlice cfg s = .error err s') :
    step cfg ⟨s, .slice⟩ .sliceEnd = some ⟨s', .failed err⟩ := by
  simp only [World.step, h]

theorem step_fault {err : Failure} (h : w.step cfg (.fault err) = some w') :
    w.phase = .slice ∧ w.sched.stopRequested = false ∧ w' = World.fault cfg err w.sched := by
  cases hphase : w.phase <;> simp only [World.step, hphase, reduceCtorEq] at h
  split at h
  · cases h
  · exact ⟨rfl, Bool.eq_false_iff.mpr ‹_›, (Option.some.inj h).symm⟩

end World

end Vardoger
