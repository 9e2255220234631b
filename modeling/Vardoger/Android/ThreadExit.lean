import Vardoger.Engine.Join

/-!
# The exit system calls

The dispatcher is given a hook that ends the running thread, `Scheduler.threadExit`, but its cases
for `exit` and `exit_group` do not call it: they only stop the emulator. The run loop then finds
a slice that ended at the instruction behind the system call, with no reason recorded. Only if this
instruction is the sentinel does the thread end as it should.
-/

namespace Vardoger

open Stateful Runs

/-- The kinds of system calls that matter here. -/
inductive Sys
  | exit | exitGroup | other
  deriving DecidableEq, Repr

namespace Syscalls

/-- The kind of a system call number. -/
def normalize : Abi → ℕ → Sys
  | .arm64, 93 => .exit
  | .arm64, 94 => .exitGroup
  | .x8664, 60 => .exit
  | .x8664, 231 => .exitGroup
  | .x86, 1 => .exit
  | .x86, 252 => .exitGroup
  | .arm32, 1 => .exit
  | .arm32, 248 => .exitGroup
  | _, _ => .other

/-- The dispatcher; `others` stands for the handlers of all other calls. -/
def dispatch (others : ℕ → SchedM Unit) : SchedM Unit := do
  let nr ← Scheduler.readReg .syscallNr
  match normalize (← get).mem.engine.abi nr with
  | .exit | .exitGroup => Scheduler.stopEngine
  | .other => others nr

end Syscalls

namespace Scheduler

variable {s s' : Scheduler}

/-- A call stops the slice, or leaves the flags of the slice alone. -/
def StopsOrKeeps (s s' : Scheduler) : Prop :=
  s'.stopRequested = true ∨ (s'.stop = s.stop ∧ s'.stopRequested = s.stopRequested)

instance : Std.Refl StopsOrKeeps := ⟨fun _ => .inr ⟨rfl, rfl⟩⟩

instance : IsTrans Scheduler StopsOrKeeps :=
  ⟨fun s s' s'' h h' => by
    rcases h' with h' | ⟨hstop', hrequested'⟩
    · exact .inl h'
    · rcases h with h | ⟨hstop, hrequested⟩
      · exact .inl (hrequested'.trans h)
      · exact .inr ⟨hstop'.trans hstop, hrequested'.trans hrequested⟩⟩

theorem stopsOrKeeps_primitive : Primitive StopsOrKeeps where
  mem _ _ := .inr ⟨rfl, rfl⟩
  halt _ _ _ := .inl rfl
  resume _ := .inr ⟨rfl, rfl⟩
  takeTid _ _ := .inr ⟨rfl, rfl⟩
  addThread _ _ _ _ _ := .inr ⟨rfl, rfl⟩
  block _ _ _ _ _ _ := .inr ⟨rfl, rfl⟩
  wake _ _ _ _ _ _ := .inr ⟨rfl, rfl⟩

end Scheduler

namespace World

variable {cfg : SchedConfig} {w w' : World} {act : Act}

/-- As long as a slice goes on, no reason to stop it is recorded. -/
def Unstopped (w : World) : Prop :=
  w.phase = .slice → w.sched.stopRequested = false → w.sched.stop = .none

theorem Unstopped.step (h : w.Unstopped) (hstep : w.step cfg act = some w') : w'.Unstopped := by
  intro hphase' hstop'
  cases act with
  | pick =>
    obtain ⟨-, ⟨u, s, hrun, rfl⟩ | ⟨err, s, hrun, rfl⟩⟩ := step_pick hstep
    · rcases Scheduler.beginSlice_cases cfg w.sched with ⟨t, rr, -, -, hok⟩ | ⟨err, hfails⟩
      · rw [← (EStateM.Result.ok.inj (hok.symm.trans hrun)).2]
        rfl
      · cases hfails.symm.trans hrun
    · cases hphase'
  | exec m =>
    obtain ⟨hphase, hstop, rfl⟩ := step_exec hstep
    exact h hphase hstop
  | call op =>
    obtain ⟨hphase, hstop, ⟨u, s, hrun, rfl⟩ | ⟨err, s, hrun, rfl⟩⟩ := step_call hstep
    · have hmoves := op.run_moves Scheduler.stopsOrKeeps_primitive cfg
        (fun _ _ _ _ => .inr ⟨rfl, rfl⟩) w.sched
      rw [hrun] at hmoves
      rcases hmoves with hstops | ⟨hkeeps, -⟩
      · cases hstops.symm.trans hstop'
      · exact hkeeps.trans (h hphase hstop)
    · unfold World.fault at hphase'
      split at hphase' <;> cases hphase'
  | sliceEnd =>
    obtain ⟨-, ⟨r, s, hrun, rfl⟩ | ⟨err, s, hrun, rfl⟩⟩ := step_sliceEnd hstep
    · cases r <;> cases hphase'
    · cases hphase'
  | fault err =>
    obtain ⟨-, -, rfl⟩ := step_fault hstep
    unfold World.fault at hphase'
    split at hphase' <;> cases hphase'

theorem unstopped_start (cfg : SchedConfig) (fn : ℕ) (args : List ℕ) (s : Scheduler) :
    (start cfg fn args s).Unstopped := nofun

/-- The world after a system call of the running thread: the emulator returns if it was told to
stop, and an exception reaches `run`. -/
def afterSyscall (cfg : SchedConfig) (others : ℕ → SchedM Unit) (w : World) : Option World :=
  match Syscalls.dispatch others w.sched with
  | .ok _ s => if s.stopRequested then step cfg ⟨s, .slice⟩ .sliceEnd else some ⟨s, .slice⟩
  | .error err s => some (World.fault cfg err s)

/-- The running thread, and only it, ended with the given status. -/
structure EndsThread (w : World) (status : ℕ) (w' : World) : Prop where
  /-- The run returns the status of the main thread. -/
  main : w.sched.cur = 0 → w'.phase = .returned status
  /-- The run goes on without a worker. -/
  worker : w.sched.cur ≠ 0 → w'.phase = .choosing
  /-- The worker is finished, and the threads that wait for it are runnable. -/
  wakes : w.sched.cur ≠ 0 → w'.sched.threads = w.sched.threads.map fun t =>
    if t.tid = w.sched.cur then { t with retval := status, state := .finished }
    else if Scheduler.waitsFor .join w.sched.cur t then Scheduler.release t
    else t
  /-- Their out pointers have the status, unless they overlap each other. -/
  delivers : w.sched.cur ≠ 0 → ∀ outs,
    outs = Scheduler.outPointers (w.sched.threads.filter fun t =>
      t.tid ≠ w.sched.cur && Scheduler.waitsFor .join w.sched.cur t) →
    w'.sched.mem.engine = Scheduler.delivered status outs w.sched.mem.engine ∧
    ∀ p ∈ outs, (∀ q ∈ outs, q = p ∨ q + 8 ≤ p ∨ p + 8 ≤ q) →
      w'.sched.mem.engine.Holds p (LittleEndian.toBytes 8 status)

/-- An exit call only stops the emulator. -/
theorem afterSyscall_exit (others : ℕ → SchedM Unit) (habi : w.sched.mem.engine.abi = .arm64)
    (hnr : w.sched.mem.engine.reg (.arm64X 8) = 93 ∨ w.sched.mem.engine.reg (.arm64X 8) = 94) :
    afterSyscall cfg others w =
      step cfg ⟨{ w.sched with stopRequested := true }, .slice⟩ .sliceEnd := by
  have hread : Scheduler.readReg .syscallNr w.sched =
      .ok (w.sched.mem.engine.reg (.arm64X 8)) w.sched := by
    simp only [Scheduler.readReg, Engine.readReg, habi, regId, Except.map, Engine.readUcReg]
  have hdispatch : Syscalls.dispatch others w.sched =
      .ok () { w.sched with stopRequested := true } := by
    rw [Syscalls.dispatch, bind_ok hread, get_bind, habi]
    rcases hnr with hnr | hnr
    · rw [hnr]
      rfl
    · rw [hnr]
      rfl
  rw [afterSyscall, hdispatch]
  rfl

/-- A thread that is saved is not ended. -/
theorem EndsThread.not_saved {status preempts : ℕ} {state : ThreadState} (hslice : w.sched.InSlice)
    (hstate : state = .runnable ∨ ∃ t ∈ w.sched.threads, t.tid = w.sched.cur ∧ state = t.state)
    (h : EndsThread w status
      ⟨{ w.sched.saved cfg state with preempts := preempts, stopRequested := true }, .choosing⟩) :
    False := by
  by_cases hmain : w.sched.cur = 0
  · cases h.main hmain
  · obtain ⟨t, ht, htid, -⟩ := hslice.current
    have hended : { t with retval := status, state := .finished } ∈
        (w.sched.saved cfg state).threads := by
      have hthreads : (w.sched.saved cfg state).threads = _ := h.wakes hmain
      rw [hthreads]
      exact List.mem_map.mpr ⟨t, ht, if_pos htid⟩
    obtain ⟨u, hu, ⟨hcur, heq⟩ | ⟨hcur, heq⟩⟩ := Scheduler.mem_setCurrent.mp hended
    · have hfinished : state = .finished := (congrArg Thread.state heq).symm
      rcases hstate with rfl | ⟨v, hv, hvtid, rfl⟩
      · cases hfinished
      · exact hslice.tid_ne_cur hv hfinished hvtid
    · rw [← heq] at hcur
      exact hcur htid

/-- A thread that returns is ended. -/
theorem endsThread_afterReturn (hcan : w.sched.CanFinish) :
    EndsThread w (w.sched.mem.engine.reg (.arm64X 0))
      ⟨{ w.sched.afterReturn with stopRequested := true },
        afterSlice (if w.sched.cur = 0 then some (w.sched.mem.engine.reg (.arm64X 0)) else none)⟩ :=
    by
  refine ⟨?_, ?_, ?_, ?_⟩
  · intro hmain
    rw [if_pos hmain]
    rfl
  · intro hworker
    rw [if_neg hworker]
    rfl
  · intro hworker
    rw [Scheduler.afterReturn, if_neg hworker]
    exact Scheduler.threads_finish _ _
  · rintro hworker outs rfl
    rw [Scheduler.afterReturn, if_neg hworker,
      ← Scheduler.joiners_retired _ (w.sched.mem.engine.reg (.arm64X 0))]
    refine ⟨rfl, fun p hp hapart => ?_⟩
    exact Scheduler.holds_delivered hp (Scheduler.deliverable_retired.mpr hcan p hp) hapart

/-- Stopped without a reason, a slice ends its thread just at the sentinel, if every joiner can be
given the result. -/
theorem endsThread_iff (hslice : w.sched.InSlice) (hstop : w.sched.stop = .none) :
    (∃ w', step cfg ⟨{ w.sched with stopRequested := true }, .slice⟩ .sliceEnd = some w' ∧
        EndsThread w (w.sched.mem.engine.reg (.arm64X 0)) w') ↔
      w.sched.mem.engine.reg .arm64Pc = kFiniPage ∧ w.sched.CanFinish := by
  set s : Scheduler := { w.sched with stopRequested := true } with hs
  have hstopped : s.InSlice := ⟨⟨hslice.distinct.nodup, hslice.distinct.lt_nextTid⟩, hslice.current⟩
  have hreturned : s.Returned ↔ w.sched.mem.engine.reg .arm64Pc = kFiniPage := by
    simp [Scheduler.Returned, hs, hstop]
  -- A run that failed neither returns nor goes on.
  have hfailed {s' : Scheduler} {err : Failure} {status : ℕ} :
      ¬EndsThread w status ⟨s', .failed err⟩ := fun hends => by
    by_cases hmain : w.sched.cur = 0
    · cases hends.main hmain
    · cases hends.worker hmain
  constructor
  · rintro ⟨w', hstep, hends⟩
    by_cases hret : s.Returned
    · refine ⟨hreturned.mp hret, ?_⟩
      by_contra hcannot
      obtain ⟨err, s', hstuck, -⟩ := hstopped.endSlice_stuck hret hcannot cfg
      rw [step_sliceEnd_error hstuck] at hstep
      rw [← Option.some.inj hstep] at hends
      exact hfailed hends
    · rcases hstopped.endSlice_saved hret cfg with
        ⟨state, preempts, hstate, hsaved⟩ | ⟨err, s', hfails, -⟩
      · rw [step_sliceEnd_ok hsaved] at hstep
        rw [← Option.some.inj hstep] at hends
        exact (hends.not_saved hslice hstate).elim
      · rw [step_sliceEnd_error hfails] at hstep
        rw [← Option.some.inj hstep] at hends
        exact (hfailed hends).elim
  · rintro ⟨hpc, hcan⟩
    have hend := hstopped.endSlice_finish (hreturned.mpr hpc) hcan cfg
    refine ⟨_, step_sliceEnd_ok hend, ?_⟩
    have hafter : s.afterReturn = { w.sched.afterReturn with stopRequested := true } := by
      simp only [Scheduler.afterReturn, hs]
      split
      · rfl
      · rfl
    rw [hafter]
    exact endsThread_afterReturn hcan

/-- In every run, an exit call of the running thread ends it with its status, and only it, if and
only if the instruction behind the call is the sentinel and every joiner can be given the status. -/
theorem exit_endsThread_iff (cfg : SchedConfig) (others : ℕ → SchedM Unit) (fn : ℕ)
    (args : List ℕ) (sched : Scheduler) (acts : List Act) (w : World)
    (hrun : acts.foldlM (step cfg) (start cfg fn args sched) = some w) (hphase : w.phase = .slice)
    (hgoes : w.sched.stopRequested = false) (habi : w.sched.mem.engine.abi = .arm64)
    (hnr : w.sched.mem.engine.reg (.arm64X 8) = 93 ∨ w.sched.mem.engine.reg (.arm64X 8) = 94) :
    (∃ w', afterSyscall cfg others w = some w' ∧
        EndsThread w (w.sched.mem.engine.reg (.arm64X 0)) w') ↔
      w.sched.mem.engine.reg .arm64Pc = kFiniPage ∧ w.sched.CanFinish := by
  have hsound : w.Sound := foldlM_keeps (fun _ _ _ h hstep => Sound.step h hstep)
    (sound_start cfg fn args sched) hrun
  have hunstopped : w.Unstopped := foldlM_keeps (fun _ _ _ h hstep => Unstopped.step h hstep)
    (unstopped_start cfg fn args sched) hrun
  rw [afterSyscall_exit others habi hnr]
  exact endsThread_iff (hsound.slice hphase).1 (hunstopped hphase hgoes)

/-- A worker whose exit call is the last instruction before the sentinel. -/
theorem exit_endsThread_iff_at_sentinel :
    let m : Memory := { Memory.init .arm64 false false with
      engine := ((Engine.fresh .arm64).writeUcReg (.arm64X 8) 93).writeUcReg .arm64Pc kFiniPage }
    let sched := Scheduler.init (Memory.init .arm64 false false) true
    let acts : List Act := [.pick, .call (.spawn 0 0x6000 0), .sliceEnd, .pick, .exec m]
    ∃ w, acts.foldlM (step {}) (start {} 0x4000 [] sched) = some w ∧ w.sched.cur = 1 ∧
      ∃ w', afterSyscall {} (fun _ => pure ()) w = some w' ∧
        EndsThread w (w.sched.mem.engine.reg (.arm64X 0)) w' := by
  intro m sched acts
  have hreaches : (acts.foldlM (step {}) (start {} 0x4000 [] sched)).any (fun w =>
      decide (w.sched.cur = 1 ∧ w.phase = .slice ∧ w.sched.stopRequested = false ∧
        w.sched.mem.engine.abi = .arm64 ∧ w.sched.mem.engine.reg (.arm64X 8) = 93 ∧
        w.sched.mem.engine.reg .arm64Pc = kFiniPage ∧ w.sched.CanFinish)) = true := by
    decide +kernel
  obtain ⟨w, hrun, hw⟩ := (Option.any_eq_true _ _).mp hreaches
  obtain ⟨hcur, hphase, hgoes, habi, hnr, hpc, hcan⟩ := of_decide_eq_true hw
  refine ⟨w, hrun, hcur, ?_⟩
  exact (exit_endsThread_iff {} (fun _ => pure ()) 0x4000 [] sched acts w hrun hphase hgoes habi
    (.inl hnr)).mpr ⟨hpc, hcan⟩

/-- A worker exits from an ordinary place of its code: the run fails. -/
theorem exit_of_worker :
    let m : Memory := { Memory.init .arm64 false false with
      engine := ((Engine.fresh .arm64).writeUcReg (.arm64X 8) 93).writeUcReg .arm64Pc 0x6004 }
    let sched := Scheduler.init (Memory.init .arm64 false false) true
    let acts : List Act := [.pick, .call (.spawn 0 0x6000 0), .sliceEnd, .pick, .exec m]
    ∃ w, acts.foldlM (step {}) (start {} 0x4000 [] sched) = some w ∧ w.phase = .slice ∧
      w.sched.stopRequested = false ∧ w.sched.mem.engine.abi = .arm64 ∧
      w.sched.mem.engine.reg (.arm64X 8) = 93 ∧
      ¬ ∃ w', afterSyscall {} (fun _ => pure ()) w = some w' ∧
        EndsThread w (w.sched.mem.engine.reg (.arm64X 0)) w' := by
  intro m sched acts
  have hreaches : (acts.foldlM (step {}) (start {} 0x4000 [] sched)).any (fun w =>
      decide (w.phase = .slice ∧ w.sched.stopRequested = false ∧ w.sched.mem.engine.abi = .arm64 ∧
        w.sched.mem.engine.reg (.arm64X 8) = 93 ∧ w.sched.cur ≠ 0 ∧
        (afterSyscall {} (fun _ => pure ()) w).all (fun w' => w'.phase ≠ .choosing) = true)) =
          true := by
    decide +kernel
  obtain ⟨w, hrun, hw⟩ := (Option.any_eq_true _ _).mp hreaches
  obtain ⟨hphase, hgoes, habi, hnr, hworker, hfails⟩ := of_decide_eq_true hw
  refine ⟨w, hrun, hphase, hgoes, habi, hnr, ?_⟩
  rintro ⟨w', hafter, hends⟩
  rw [hafter, Option.all_some, decide_eq_true_eq] at hfails
  exact hfails (hends.worker hworker)

end World

end Vardoger
