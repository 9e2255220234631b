import Vardoger.Base.Runs
import Vardoger.Engine.Threads
import Mathlib.Data.Finset.Basic

/-!
# Mutual exclusion

The owner word of a mutex is the id of the owning thread, with `0` for a free mutex. The main thread
has id `0`. So a mutex that the main thread takes still reads as free, and the next worker that asks
for it gets it too. This file follows a run with a record of who holds what, and proves that
mutual exclusion fails exactly where a worker locks a mutex the main thread holds.
-/

namespace Vardoger

open Runs Stateful

/-- Who holds each mutex address, by the returns and hand-offs seen so far. -/
abbrev Holding := ℕ → Finset ℕ

/-- No two threads hold the same mutex. -/
def MutuallyExclusive (held : Holding) : Prop := ∀ m, ∀ t ∈ held m, ∀ u ∈ held m, t = u

/-- The threads that went from waiting for the mutex to runnable. -/
def handedTo (m : ℕ) (before after : Scheduler) : List ℕ :=
  ((before.threads.zip after.threads).filter fun t =>
    Scheduler.waitsFor .mutex m t.1 && t.2.state = .runnable).map fun t => t.1.tid

/-- A run in progress with the record of who holds what. -/
structure Traced where
  world : World
  held : Holding

namespace Traced

/-- The record after an event: a lock that returns without blocking takes the mutex, an unlock gives
it up and may hand it to a waiting thread. -/
def observe (s : Traced) : Act → Holding
  | .call (.mutexLock m) =>
      match Scheduler.mutexLock m s.world.sched with
      | .ok _ after =>
          if after.stopRequested then s.held
          else Function.update s.held m (insert s.world.sched.cur (s.held m))
      | .error _ _ => s.held
  | .call (.mutexUnlock m) =>
      Function.update s.held m ((s.held m).erase s.world.sched.cur ∪
        (handedTo m s.world.sched (Scheduler.unlocked m s.world.sched)).toFinset)
  | _ => s.held

def step (cfg : SchedConfig) (s : Traced) (act : Act) : Option Traced :=
  (s.world.step cfg act).map fun world => ⟨world, s.observe act⟩

/-- At the start of a run nobody holds anything. -/
def start (cfg : SchedConfig) (fn : ℕ) (args : List ℕ) (s : Scheduler) : Traced :=
  ⟨.start cfg fn args s, fun _ => ∅⟩

/-- Threads unlock only what they hold, and use no condition variables. -/
def disciplined (s : Traced) : Act → Bool
  | .call (.mutexUnlock m) => s.world.sched.cur ∈ s.held m
  | .call (.condWait _ _) => false
  | .call (.condWake _ _) => false
  | _ => true

/-- A lock is safe unless a worker asks for a mutex that the main thread holds. -/
def safeLock (s : Traced) : Act → Bool
  | .call (.mutexLock m) => s.world.sched.cur = 0 || 0 ∉ s.held m
  | _ => true

/-- The invariant: the owner word of a held mutex is its holder. -/
def Owned (s : Traced) : Prop := ∀ m, ∀ t ∈ s.held m, s.world.sched.mutexOwner m = some t

/-- One owner word has one value, so owned mutexes are exclusive. -/
theorem Owned.mutuallyExclusive {s : Traced} (h : s.Owned) : MutuallyExclusive s.held := by
  intro m t ht u hu
  exact Option.some.inj ((h m t ht).symm.trans (h m u hu))

end Traced

/-! ## What leaves the owner words alone -/

/-- Two states with the same owner words. -/
def SameOwners (s s' : Scheduler) : Prop := s'.mutexOwner = s.mutexOwner

instance : Std.Refl SameOwners := ⟨fun _ => rfl⟩

instance : IsTrans Scheduler SameOwners := ⟨fun _ _ _ h h' => Eq.trans h' h⟩

namespace Scheduler

/-- Apart from the writes of owner words, calls leave them alone. -/
theorem sameOwners_primitive : Primitive SameOwners where
  mem _ _ := rfl
  halt _ _ _ := rfl
  resume _ := rfl
  takeTid _ _ := rfl
  addThread _ _ _ _ _ := rfl
  block _ _ _ _ _ _ := rfl
  wake _ _ _ _ _ _ := rfl

theorem modify_sameOwners {f : Scheduler → Scheduler}
    (hf : ∀ s, (f s).mutexOwner = s.mutexOwner) :
    Moves SameOwners (modify f : SchedM PUnit) := moves_modify hf

theorem updateThread_sameOwners (tid : ℕ) (f : Thread → Thread) :
    Moves SameOwners (updateThread tid f) := modify_sameOwners fun _ => rfl

theorem wakeJoiners_sameOwners (tid : ℕ) : Moves SameOwners (wakeJoiners tid) := by
  refine moves_bind (atThread_moves tid) fun _ => moves_bind moves_get fun s => ?_
  refine moves_forM fun t _ => moves_ite ?_ (moves_pure _)
  exact moves_when (onMem_moves sameOwners_primitive _) fun _ => updateThread_sameOwners _ _

theorem saveThread_sameOwners (cfg : SchedConfig) (tid : ℕ) (state : ThreadState) :
    Moves SameOwners (saveThread cfg tid state) :=
  moves_bind moves_get fun _ => updateThread_sameOwners _ _

theorem pickNext_mutexOwner (s : Scheduler) : SameOwners s s.pickNext.2 := by
  unfold pickNext
  dsimp only
  split
  · rfl
  · split
    · rfl
    · rfl

theorem beginSlice_sameOwners (cfg : SchedConfig) : Moves SameOwners (beginSlice cfg) := by
  refine moves_bind (moves_modifyGet pickNext_mutexOwner) fun next => ?_
  split
  · exact moves_throw _
  · exact modify_sameOwners fun _ => rfl

theorem endSlice_sameOwners (cfg : SchedConfig) : Moves SameOwners (endSlice cfg) := by
  refine moves_bind moves_get fun s => moves_bind (atThread_moves _) fun ran => ?_
  refine moves_ite (moves_bind (saveThread_sameOwners _ _ _) fun _ => moves_pure _) ?_
  refine moves_ite (moves_bind (saveThread_sameOwners _ _ _) fun _ => moves_pure _) ?_
  refine moves_ite ?_ (moves_ite ?_ (moves_throw _))
  · refine moves_bind (updateThread_sameOwners _ _) fun _ => ?_
    refine moves_bind (wakeJoiners_sameOwners _) fun _ => moves_ite ?_ (moves_pure _)
    exact moves_bind (modify_sameOwners fun _ => rfl) fun _ => moves_pure _
  · refine moves_bind (saveThread_sameOwners _ _ _) fun _ => ?_
    refine moves_ite ?_ (moves_pure _)
    refine moves_bind (modify_sameOwners fun _ => rfl) fun _ => moves_ite ?_ (moves_pure _)
    refine moves_bind (modify_sameOwners fun _ => rfl) fun _ => ?_
    exact moves_bind (moves_throw _) fun _ => moves_pure _

theorem onFault_sameOwners (cfg : SchedConfig) (err : Failure) :
    Moves SameOwners (onFault cfg err) := by
  refine moves_bind moves_get fun s => moves_ite ?_ (moves_throw _)
  refine moves_bind (atThread_moves _) fun _ => ?_
  exact moves_bind (updateThread_sameOwners _ _) fun _ => wakeJoiners_sameOwners _

/-! ## Locking and unlocking -/

/-- The result register exists on every ABI. -/
theorem writeReg_ret0 (v : ℕ) (s : Scheduler) :
    ∃ mem, writeReg .ret0 v s = .ok () { s with mem := mem } := by
  have hreg : ∃ id, regId s.mem.engine.abi .ret0 = .ok id := by
    cases s.mem.engine.abi with
    | arm64 => exact ⟨_, rfl⟩
    | arm32 => exact ⟨_, rfl⟩
    | x86 => exact ⟨_, rfl⟩
    | x8664 => exact ⟨_, rfl⟩
  obtain ⟨id, hid⟩ := hreg
  simp only [writeReg, onMem, Memory.onEngine, Engine.writeReg, hid, Except.map]
  exact ⟨_, rfl⟩

/-- A free mutex is taken at once. -/
theorem mutexLock_free {s : Scheduler} {m : ℕ} (h : s.isFree m) :
    ∃ mem, mutexLock m s = .ok () { s.setOwner m s.cur with mem := mem } := by
  obtain ⟨mem, hwrite⟩ := writeReg_ret0 0 (s.setOwner m s.cur)
  refine ⟨mem, ?_⟩
  rw [mutexLock, get_bind, if_pos h, modify_bind]
  exact hwrite

theorem blockOn_ensures (why : BlockReason) (obj : ℕ) (f : Thread → Thread) :
    Ensures (fun s => s.stopRequested = true) (blockOn why obj f) := by
  iterate 7 refine ensures_bind fun _ => ?_
  intro s u s' h
  cases h
  rfl

/-- A mutex with an owner word keeps it, and the thread that asked is stopped. -/
theorem mutexLock_taken {s : Scheduler} {m : ℕ} (h : ¬s.isFree m) :
    SameOwners s (final (mutexLock m s)) ∧
      ∀ u s', mutexLock m s = .ok u s' → s'.stopRequested = true := by
  rw [mutexLock, get_bind, if_neg h]
  have hreason : BlockReason.mutex = .join → ∃ t ∈ s.threads, t.tid = m ∧ t.state ≠ .finished :=
    fun hjoin => absurd hjoin (by decide)
  exact ⟨blockOn_related sameOwners_primitive (fun _ => rfl) hreason, blockOn_ensures _ _ _ s⟩

/-- Nobody is released by a change that keeps the table. -/
theorem filter_zip_self {p : Thread → Bool} (hp : ∀ t, p t → t.state = .blocked)
    (threads : List Thread) :
    (threads.zip threads).filter (fun t => p t.1 && t.2.state = .runnable) = [] := by
  induction threads with
  | nil => rfl
  | cons t threads ih =>
    have hnot : (p t && decide (t.state = .runnable)) = false := by
      cases hpt : p t with
      | false => rfl
      | true => simp [hp t hpt]
    rw [List.zip_cons_cons, List.filter_cons_of_neg (by simp [hnot]), ih]

/-- Releasing the first thread of a kind releases exactly that one. -/
theorem filter_zip_updateFirst {p : Thread → Bool} (hp : ∀ t, p t → t.state = .blocked)
    (threads : List Thread) :
    ((threads.zip (updateFirst p release threads)).filter
      fun t => p t.1 && t.2.state = .runnable).map (fun t => t.1.tid) =
      (threads.find? p).toList.map Thread.tid := by
  induction threads with
  | nil => rfl
  | cons t threads ih =>
    rw [updateFirst]
    cases hpt : p t with
    | true =>
      rw [if_pos rfl, List.zip_cons_cons, List.filter_cons_of_pos (by simp [hpt, release]),
        filter_zip_self hp, List.find?_cons_of_pos hpt]
      rfl
    | false =>
      rw [if_neg (by simp), List.zip_cons_cons, List.filter_cons_of_neg (by simp [hpt]),
        List.find?_cons_of_neg (by simp [hpt]), ih]

/-- An unlock hands the mutex to at most one thread, which becomes its owner. -/
theorem unlocked_cases (m : ℕ) (s : Scheduler) :
    (handedTo m s (unlocked m s) = [] ∧
        (unlocked m s).mutexOwner = Function.update s.mutexOwner m (some 0)) ∨
      ∃ tid, handedTo m s (unlocked m s) = [tid] ∧
        (unlocked m s).mutexOwner = Function.update s.mutexOwner m (some tid) := by
  have hblocked : ∀ t, waitsFor .mutex m t → t.state = .blocked := fun _ => blocked_of_waitsFor
  unfold unlocked handedTo
  cases hfind : s.threads.find? (waitsFor .mutex m) with
  | none =>
    left
    refine ⟨?_, rfl⟩
    simp only [setOwner]
    rw [filter_zip_self hblocked]
    rfl
  | some t =>
    right
    refine ⟨t.tid, ?_, rfl⟩
    simp only
    rw [filter_zip_updateFirst hblocked, hfind]
    rfl

end Scheduler

/-! ## Steps and runs -/

theorem World.fault_sameOwners (cfg : SchedConfig) (err : Failure) (s : Scheduler) :
    SameOwners s (World.fault cfg err s).sched := by
  have h := Scheduler.onFault_sameOwners cfg err s
  unfold World.fault
  split <;> (rename_i hrun; rw [hrun] at h; exact h)

/-- The events that write owner words. -/
def Act.writesOwners : Act → Bool
  | .call op => op.writesOwners
  | _ => false

theorem SchedOp.run_sameOwners (cfg : SchedConfig) {op : SchedOp} (h : op.writesOwners = false) :
    Moves SameOwners (op.run cfg) := by
  refine SchedOp.run_moves Scheduler.sameOwners_primitive cfg op fun hwrites => ?_
  rw [h] at hwrites
  cases hwrites

/-- Every event that does not write owner words keeps them, faults included. -/
theorem World.step_sameOwners {cfg : SchedConfig} {w w' : World} {act : Act}
    (hact : act.writesOwners = false) (h : w.step cfg act = some w') :
    SameOwners w.sched w'.sched := by
  cases act with
  | call op =>
    have hmoves := SchedOp.run_sameOwners cfg hact w.sched
    obtain ⟨-, -, ⟨u, s, hrun, rfl⟩ | ⟨err, s, hrun, rfl⟩⟩ := World.step_call h
    · rwa [hrun] at hmoves
    · rw [hrun] at hmoves
      exact trans_of SameOwners hmoves (World.fault_sameOwners cfg err s)
  | pick =>
    have hmoves := Scheduler.beginSlice_sameOwners cfg w.sched
    obtain ⟨-, ⟨u, s, hrun, rfl⟩ | ⟨err, s, hrun, rfl⟩⟩ := World.step_pick h
    · rwa [hrun] at hmoves
    · rwa [hrun] at hmoves
  | exec m =>
    obtain ⟨-, -, rfl⟩ := World.step_exec h
    rfl
  | sliceEnd =>
    have hmoves := Scheduler.endSlice_sameOwners cfg w.sched
    obtain ⟨-, ⟨r, s, hrun, rfl⟩ | ⟨err, s, hrun, rfl⟩⟩ := World.step_sliceEnd h
    · rwa [hrun] at hmoves
    · rwa [hrun] at hmoves
  | fault err =>
    obtain ⟨-, -, rfl⟩ := World.step_fault h
    exact World.fault_sameOwners cfg err w.sched

namespace Traced

variable {cfg : SchedConfig} {s s' : Traced} {act : Act}

theorem step_world (h : s.step cfg act = some s') :
    s.world.step cfg act = some s'.world ∧ s'.held = s.observe act := by
  obtain ⟨w, hw, rfl⟩ := Option.map_eq_some_iff.mp h
  exact ⟨hw, rfl⟩

/-- An event that changes neither the owner words nor the record keeps the invariant. -/
theorem Owned.of_same (h : s.Owned) (hheld : s'.held = s.held)
    (howners : SameOwners s.world.sched s'.world.sched) : s'.Owned := by
  intro m t ht
  rw [hheld] at ht
  rw [howners]
  exact h m t ht

/-- A lock either takes a mutex that reads as free, or changes neither owner words nor record. -/
theorem step_lock {m : ℕ} (hstep : s.step cfg (.call (.mutexLock m)) = some s') :
    (s.world.sched.isFree m ∧
        s'.world.sched.mutexOwner =
          Function.update s.world.sched.mutexOwner m (some s.world.sched.cur) ∧
        s'.held = Function.update s.held m (insert s.world.sched.cur (s.held m))) ∨
      (¬s.world.sched.isFree m ∧ SameOwners s.world.sched s'.world.sched ∧ s'.held = s.held) := by
  obtain ⟨hworld, hheld⟩ := step_world hstep
  obtain ⟨-, hstop, hresult⟩ := World.step_call hworld
  by_cases hfree : s.world.sched.isFree m
  · left
    obtain ⟨mem, hlock⟩ := Scheduler.mutexLock_free hfree
    have hcontinues : (s.world.sched.setOwner m s.world.sched.cur).stopRequested = false := hstop
    rcases hresult with ⟨u, t, hrun, hw⟩ | ⟨err, t, hrun, -⟩
    · obtain ⟨-, rfl⟩ := EStateM.Result.ok.inj (hrun.symm.trans hlock)
      refine ⟨hfree, by rw [hw]; rfl, ?_⟩
      rw [hheld, observe, hlock]
      simp only [hcontinues, Bool.false_eq_true, if_false]
    · cases hrun.symm.trans hlock
  · right
    obtain ⟨hsame, hblocks⟩ := Scheduler.mutexLock_taken hfree
    rcases hresult with ⟨u, t, hrun, hw⟩ | ⟨err, t, hrun, hw⟩
    · have hlock : Scheduler.mutexLock m s.world.sched = .ok u t := hrun
      rw [hlock] at hsame
      refine ⟨hfree, by rw [hw]; exact hsame, ?_⟩
      rw [hheld, observe, hlock]
      simp only [hblocks u t hlock, if_true]
    · have hlock : Scheduler.mutexLock m s.world.sched = .error err t := hrun
      rw [hlock] at hsame
      refine ⟨hfree, ?_, by rw [hheld, observe, hlock]⟩
      rw [hw]
      exact trans_of SameOwners hsame (World.fault_sameOwners cfg err t)

/-- An unlock gives the mutex up and passes it to at most one waiting thread. -/
theorem step_unlock {m : ℕ} (hstep : s.step cfg (.call (.mutexUnlock m)) = some s') :
    ∃ passed : Finset ℕ, (∀ t ∈ passed, s'.world.sched.mutexOwner m = some t) ∧
      (∀ m', m' ≠ m → s'.world.sched.mutexOwner m' = s.world.sched.mutexOwner m') ∧
      s'.held = Function.update s.held m ((s.held m).erase s.world.sched.cur ∪ passed) := by
  obtain ⟨hworld, hheld⟩ := step_world hstep
  have howner : s'.world.sched.mutexOwner =
      (Scheduler.unlocked m s.world.sched).mutexOwner := by
    obtain ⟨-, -, ⟨u, t, hrun, hw⟩ | ⟨err, t, hrun, -⟩⟩ := World.step_call hworld
    · rw [hw, ← (EStateM.Result.ok.inj hrun).2]
    · cases hrun
  refine ⟨_, ?_, ?_, hheld⟩
  · rw [howner]
    rcases Scheduler.unlocked_cases m s.world.sched with ⟨hnone, -⟩ | ⟨tid, hone, hupdate⟩
    · simp [hnone]
    · simp [hone, hupdate]
  · intro m' hm'
    rw [howner]
    rcases Scheduler.unlocked_cases m s.world.sched with ⟨-, hupdate⟩ | ⟨tid, -, hupdate⟩
    · rw [hupdate, Function.update_of_ne hm']
    · rw [hupdate, Function.update_of_ne hm']

/-- A safe lock keeps the invariant: nobody but the new owner held a mutex that read as free. -/
theorem Owned.lock {m : ℕ} (h : s.Owned) (hsafe : s.safeLock (.call (.mutexLock m)))
    (hstep : s.step cfg (.call (.mutexLock m)) = some s') : s'.Owned := by
  rcases step_lock hstep with ⟨hfree, howner, hheld⟩ | ⟨-, hsame, hheld⟩
  · intro m' t ht
    rw [hheld] at ht
    rw [howner]
    by_cases hm : m' = m
    · subst hm
      simp only [Function.update_self, Finset.mem_insert] at ht ⊢
      rcases ht with rfl | ht
      · rfl
      · simp only [Scheduler.isFree, h m' t ht, Bool.or_eq_true, decide_eq_true_eq,
          Option.some.injEq, reduceCtorEq, false_or] at hfree
        subst hfree
        simp only [safeLock, Bool.or_eq_true, decide_eq_true_eq] at hsafe
        rcases hsafe with hmain | hnot
        · rw [hmain]
        · exact absurd ht hnot
    · rw [Function.update_of_ne hm] at ht ⊢
      exact h m' t ht
  · exact h.of_same hheld hsame

/-- A disciplined unlock keeps the invariant: its caller was the only holder. -/
theorem Owned.unlock {m : ℕ} (h : s.Owned) (hholds : s.world.sched.cur ∈ s.held m)
    (hstep : s.step cfg (.call (.mutexUnlock m)) = some s') : s'.Owned := by
  obtain ⟨passed, hpassed, hothers, hheld⟩ := step_unlock hstep
  intro m' t ht
  rw [hheld] at ht
  by_cases hm : m' = m
  · subst hm
    simp only [Function.update_self, Finset.mem_union, Finset.mem_erase] at ht
    rcases ht with ⟨hne, ht⟩ | ht
    · exact absurd (h.mutuallyExclusive m' t ht _ hholds) hne
    · exact hpassed t ht
  · rw [Function.update_of_ne hm] at ht
    rw [hothers m' hm]
    exact h m' t ht

/-- One step: a disciplined event with a safe lock keeps the invariant. -/
theorem Owned.step (h : s.Owned) (hdisciplined : s.disciplined act) (hsafe : s.safeLock act)
    (hstep : s.step cfg act = some s') : s'.Owned := by
  obtain ⟨hworld, hheld⟩ := step_world hstep
  cases act with
  | call op =>
    cases op with
    | mutexLock m => exact h.lock hsafe hstep
    | mutexUnlock m => exact h.unlock (of_decide_eq_true hdisciplined) hstep
    | condWait c m => cases hdisciplined
    | condWake c all => cases hdisciplined
    | _ => exact h.of_same hheld (World.step_sameOwners rfl hworld)
  | _ => exact h.of_same hheld (World.step_sameOwners rfl hworld)

/-- A worker that locks a mutex of the main thread gets it, and then both hold it. -/
theorem Owned.breaks (h : s.Owned) (hheld : ¬s.safeLock act)
    (hstep : s.step cfg act = some s') : ¬MutuallyExclusive s'.held := by
  cases act with
  | call op =>
    cases op with
    | mutexLock m =>
      simp only [safeLock, Bool.or_eq_true, decide_eq_true_eq, not_or, not_not] at hheld
      obtain ⟨hworker, hmain⟩ := hheld
      have hfree : s.world.sched.isFree m := by simp [Scheduler.isFree, h m 0 hmain]
      rcases step_lock hstep with ⟨-, -, hheld⟩ | ⟨htaken, -⟩
      · intro hexclusive
        refine hworker (hexclusive m _ ?_ 0 ?_)
        · simp [hheld]
        · simp [hheld, hmain]
      · exact absurd hfree htaken
    | _ => exact absurd rfl hheld
  | _ => exact absurd rfl hheld

theorem owned_start (cfg : SchedConfig) (fn : ℕ) (args : List ℕ) (sched : Scheduler) :
    (start cfg fn args sched).Owned := by
  simp [Owned, start]

/-- In every run of disciplined threads, mutual exclusion holds throughout exactly if no worker ever
locks a mutex that the main thread holds. -/
theorem mutuallyExclusive_iff (cfg : SchedConfig) (fn : ℕ) (args : List ℕ) (sched : Scheduler)
    (acts : List Act)
    (hrun : Steps (step cfg) (fun s act => s.disciplined act) (start cfg fn args sched) acts) :
    Visits (step cfg) (fun s => MutuallyExclusive s.held) (start cfg fn args sched) acts ↔
      Steps (step cfg) (fun s act => s.safeLock act) (start cfg fn args sched) acts :=
  visits_iff_steps (I := Owned) (fun _ h => h.mutuallyExclusive)
    (fun _ _ _ h hdisciplined hsafe hstep => h.step hdisciplined hsafe hstep)
    (fun _ _ _ h _ hheld hstep => h.breaks hheld hstep)
    (owned_start cfg fn args sched) hrun

/-- A run in which the main thread gives a mutex up before its worker takes it. -/
theorem mutuallyExclusive_iff_handover :
    let sched := Scheduler.init (Memory.init .arm64 false false) true
    let acts : List Act := [.pick, .call (.mutexLock 0x5000), .call (.mutexUnlock 0x5000),
      .call (.spawn 0 0x6000 0), .sliceEnd, .pick, .call (.mutexLock 0x5000)]
    Steps (step {}) (fun s act => s.disciplined act) (start {} 0x4000 [] sched) acts ∧
      Visits (step {}) (fun s => MutuallyExclusive s.held) (start {} 0x4000 [] sched) acts := by
  intro sched acts
  have hrun : Steps (step {}) (fun s act => s.disciplined act) (start {} 0x4000 [] sched) acts := by
    decide +kernel
  refine ⟨hrun, (mutuallyExclusive_iff {} 0x4000 [] sched acts hrun).mpr ?_⟩
  decide +kernel

/-- The main thread locks a mutex and spawns a worker, which locks it too: both hold it. -/
theorem worker_locks_held_mutex :
    let sched := Scheduler.init (Memory.init .arm64 false false) true
    let acts : List Act := [.pick, .call (.mutexLock 0x5000), .call (.spawn 0 0x6000 0),
      .sliceEnd, .pick, .call (.mutexLock 0x5000)]
    Steps (step {}) (fun s act => s.disciplined act) (start {} 0x4000 [] sched) acts ∧
      ¬ Visits (step {}) (fun s => MutuallyExclusive s.held) (start {} 0x4000 [] sched) acts := by
  intro sched acts
  refine ⟨by decide +kernel, fun hvisits => ?_⟩
  have hboth : (acts.foldlM (step {}) (start {} 0x4000 [] sched)).any
      (fun s => 0 ∈ s.held 0x5000 && 1 ∈ s.held 0x5000) = true := by
    decide +kernel
  obtain ⟨s, hlast, hheld⟩ := (Option.any_eq_true _ _).mp hboth
  simp only [Bool.and_eq_true, decide_eq_true_eq] at hheld
  have := hvisits.last hlast 0x5000 0 hheld.1 1 hheld.2
  omega

end Traced

end Vardoger
