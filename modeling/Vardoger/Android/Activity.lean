import Vardoger.Android.ThreadStubs
import Vardoger.Engine.Join
import Vardoger.Engine.RoundRobin

/-!
# When the scheduler is active

The pthread stubs ask the scheduler whether it is active. The flag is set when `run` begins and
cleared when the main thread returns or the cap on preemptions is exceeded. All other ways out of
`run` are exceptions that pass by the assignment, so after them the flag stays set and the stubs go
on calling a scheduler that no longer runs anything.
-/

namespace Vardoger

open Stateful Runs

namespace Scheduler

variable {cfg : SchedConfig} {s s' : Scheduler} {t : Thread} {tid : ℕ}

/-! ## The flag -/

/-- The flag is left as it is. -/
def KeepsRunning (s s' : Scheduler) : Prop := s'.running = s.running

instance : Std.Refl KeepsRunning := ⟨fun _ => rfl⟩

instance : IsTrans Scheduler KeepsRunning := ⟨fun _ _ _ h h' => h'.trans h⟩

theorem keepsRunning_primitive : Primitive KeepsRunning where
  mem _ _ := rfl
  halt _ _ _ := rfl
  resume _ := rfl
  takeTid _ _ := rfl
  addThread _ _ _ _ _ := rfl
  block _ _ _ _ _ _ := rfl
  wake _ _ _ _ _ _ := rfl

theorem running_call (cfg : SchedConfig) (op : SchedOp) (s : Scheduler) :
    (final (op.run cfg s)).running = s.running :=
  op.run_moves keepsRunning_primitive cfg (fun _ _ _ _ => rfl) s

theorem wakeJoiners_keepsRunning (tid : ℕ) : Moves KeepsRunning (wakeJoiners tid) := by
  refine moves_bind (atThread_moves tid) fun t => moves_bind moves_get fun s => ?_
  refine moves_forM fun u _ => moves_ite ?_ (moves_pure _)
  exact moves_when (onMem_moves keepsRunning_primitive _) fun _ => moves_modify fun _ => rfl

theorem running_beginSlice (cfg : SchedConfig) (s : Scheduler) :
    (final (beginSlice cfg s)).running = s.running := by
  rcases beginSlice_cases cfg s with ⟨t, rr, -, -, hok⟩ | ⟨err, hfails⟩
  · rw [hok]
    rfl
  · rw [hfails]
    rfl

/-! ## Picking a thread -/

/-- A slice starts if and only if some thread is runnable. -/
theorem beginSlice_ok_iff (cfg : SchedConfig) (s : Scheduler) :
    (∃ u s', beginSlice cfg s = .ok u s') ↔ ∃ t ∈ s.threads, t.state = .runnable := by
  constructor
  · rintro ⟨u, s', hok⟩
    rcases beginSlice_cases cfg s with ⟨t, rr, ht, hstate, -⟩ | ⟨err, hfails⟩
    · exact ⟨t, ht, hstate⟩
    · cases hfails.symm.trans hok
  · rintro ⟨t, ht, hstate⟩
    obtain ⟨⟨u, rr⟩, hround⟩ := Option.isSome_iff_exists.mp (roundRobin_isSome s.rr ht hstate)
    have hpick : ∃ u, s.pickNext.1 = some u := by
      unfold pickNext
      dsimp only
      split
      · exact ⟨_, rfl⟩
      · rw [hround]
        exact ⟨u, rfl⟩
    obtain ⟨v, hv⟩ := hpick
    have hget : (modifyGet pickNext : SchedM _) s = .ok (some v) s.pickNext.2 := by
      change EStateM.Result.ok s.pickNext.1 s.pickNext.2 = _
      rw [hv]
    rw [beginSlice, bind_ok hget]
    exact ⟨_, _, rfl⟩

/-! ## The end of a slice -/

/-- A call or the quantum ended the slice. -/
def Expected (cfg : SchedConfig) (s : Scheduler) : Prop :=
  s.stop = .block ∨ s.stop = .yield ∨ cfg.quantum ≠ 0

/-- The loop knows what to do with the end of the slice. -/
def EndsWell (cfg : SchedConfig) (s : Scheduler) : Prop :=
  (s.Returned → s.CanFinish) ∧ (¬s.Returned → s.Expected cfg)

/-- What a slice leads to that did not end at the sentinel. -/
theorem InSlice.endSlice_running (h : s.InSlice) (hreturned : ¬s.Returned) (cfg : SchedConfig) :
    (s.Expected cfg ∧ ∃ s', endSlice cfg s = .ok none s' ∧ s'.running = s.running) ∨
      (s.Expected cfg ∧ ∃ err s', endSlice cfg s = .error err s' ∧ s'.running = false) ∨
      ¬s.Expected cfg ∧ ∃ err s', endSlice cfg s = .error err s' ∧ s'.running = s.running := by
  rcases h.endSlice_cases hreturned cfg with ⟨hblock, t, -, -, hend⟩ | ⟨hyield, hend⟩ |
    ⟨hquantum, preempts, hend⟩ | ⟨hquantum, err, hend⟩ | ⟨hblock, hyield, hquantum, err, hend⟩
  · exact .inl ⟨.inl hblock, _, hend, rfl⟩
  · exact .inl ⟨.inr (.inl hyield), _, hend, rfl⟩
  · exact .inl ⟨.inr (.inr hquantum), _, hend, rfl⟩
  · exact .inr (.inl ⟨.inr (.inr hquantum), err, _, hend, rfl⟩)
  · refine .inr (.inr ⟨?_, err, _, hend, rfl⟩)
    rintro (hstop | hstop | hstop)
    · exact hblock hstop
    · exact hyield hstop
    · exact hstop hquantum

end Scheduler

namespace World

variable {cfg : SchedConfig} {w w' : World} {act : Act}

/-! ## One event -/

/-- The event ends no run by an exception other than that of the preemption cap. There is a thread
to pick; an exception in a slice is a tolerated one of a worker; a slice ends at the sentinel, by a
call or by its quantum; and the result of a thread that ends can be given to those who wait. -/
def Clean (cfg : SchedConfig) (w : World) (act : Act) : Prop :=
  (act = .pick → ∃ t ∈ w.sched.threads, t.state = .runnable) ∧
    (w.Throws cfg act → (w.reached cfg act).Tolerates cfg ∧ (w.reached cfg act).CanFinish) ∧
    (act = .sliceEnd → w.sched.EndsWell cfg)

/-- The run is over. -/
def Ended (w : World) : Prop := (∃ r, w.phase = .returned r) ∨ ∃ err, w.phase = .failed err

/-- The flag is set while the run goes on. -/
def Live (w : World) : Prop := ¬w.Ended ∧ w.sched.running = true

/-- Where an event leads as far as the flag is concerned. -/
def Leads (clean : Prop) (w' : World) : Prop :=
  (clean ∧ (w'.Live ∨ w'.Ended ∧ w'.sched.running = false)) ∨
    ¬clean ∧ w'.Ended ∧ w'.sched.running = true

theorem live_of {s : Scheduler} (hrunning : s.running = true) :
    Live ⟨s, .choosing⟩ ∧ Live ⟨s, .slice⟩ := by
  refine ⟨⟨?_, hrunning⟩, ⟨?_, hrunning⟩⟩
  · rintro (⟨r, h⟩ | ⟨err, h⟩) <;> cases h
  · rintro (⟨r, h⟩ | ⟨err, h⟩) <;> cases h

theorem ended_failed (s : Scheduler) (err : Failure) : Ended ⟨s, .failed err⟩ := .inr ⟨err, rfl⟩

/-- An exception in a slice ends the run with the flag set, unless it is tolerated. -/
theorem leads_fault {s : Scheduler} (hslice : s.InSlice) (hrunning : s.running = true)
    (err : Failure) : Leads (s.Tolerates cfg ∧ s.CanFinish) (World.fault cfg err s) := by
  by_cases htolerates : s.Tolerates cfg
  · obtain ⟨t, -, -, hfault⟩ := hslice.onFault_retires htolerates err
    have hkeeps := Scheduler.wakeJoiners_keepsRunning s.cur (s.retired t.retval)
    by_cases hcan : s.CanFinish
    · rw [World.fault, hfault, hslice.wakeJoiners_ok hcan]
      exact .inl ⟨⟨htolerates, hcan⟩, .inl (live_of (s := s.finish t.retval) hrunning).1⟩
    · obtain ⟨err, s', hrun, -⟩ := hslice.wakeJoiners_error hcan t.retval
      rw [hrun] at hkeeps
      rw [World.fault, hfault, hrun]
      exact .inr ⟨fun h => hcan h.2, ended_failed s' err, hkeeps.trans hrunning⟩
  · rw [World.fault, Scheduler.onFault_fails htolerates]
    exact .inr ⟨fun h => htolerates h.1, ended_failed s err, hrunning⟩

theorem leads_sliceEnd (hslice : w.sched.InSlice) (hrunning : w.sched.running = true)
    (hstep : w.step cfg .sliceEnd = some w') :
    Leads (w.sched.EndsWell cfg) w' := by
  obtain ⟨hphase, hend⟩ := step_sliceEnd hstep
  by_cases hreturned : w.sched.Returned
  · have hwell : w.sched.EndsWell cfg ↔ w.sched.CanFinish :=
      ⟨fun h => h.1 hreturned, fun h => ⟨fun _ => h, fun hnot => absurd hreturned hnot⟩⟩
    rw [hwell]
    by_cases hcan : w.sched.CanFinish
    · rw [hslice.endSlice_finish hreturned hcan] at hend
      rcases hend with ⟨r, s, hrun, rfl⟩ | ⟨err, s, hrun, -⟩
      · obtain ⟨rfl, rfl⟩ := EStateM.Result.ok.inj hrun
        refine .inl ⟨hcan, ?_⟩
        by_cases hmain : w.sched.cur = 0
        · rw [Scheduler.afterReturn, if_pos hmain, if_pos hmain]
          exact .inr ⟨.inl ⟨_, rfl⟩, rfl⟩
        · rw [Scheduler.afterReturn, if_neg hmain, if_neg hmain]
          exact .inl (live_of (s := w.sched.finish _) hrunning).1
      · cases hrun
    · have hkeeps := Scheduler.wakeJoiners_keepsRunning w.sched.cur
        (w.sched.retired (w.sched.mem.engine.reg (.arm64X 0)))
      obtain ⟨err, s, hstuck, -⟩ :=
        hslice.wakeJoiners_error hcan (w.sched.mem.engine.reg (.arm64X 0))
      rw [hslice.endSlice_returned hreturned, bind_error hstuck] at hend
      rw [hstuck] at hkeeps
      rcases hend with ⟨r, s', hrun, -⟩ | ⟨err', s', hrun, rfl⟩
      · cases hrun
      · obtain ⟨rfl, rfl⟩ := EStateM.Result.error.inj hrun
        exact .inr ⟨hcan, ended_failed s err, hkeeps.trans hrunning⟩
  · have hwell : w.sched.EndsWell cfg ↔ w.sched.Expected cfg :=
      ⟨fun h => h.2 hreturned, fun h => ⟨fun hyes => absurd hyes hreturned, fun _ => h⟩⟩
    rw [hwell]
    rcases hslice.endSlice_running hreturned cfg with
      ⟨hexpected, s, hok, hkeeps⟩ | ⟨hexpected, err, s, hcap, hcleared⟩ |
      ⟨hnot, err, s, hfails, hkeeps⟩
    · rw [hok] at hend
      rcases hend with ⟨r, s', hrun, rfl⟩ | ⟨err, s', hrun, -⟩
      · obtain ⟨rfl, rfl⟩ := EStateM.Result.ok.inj hrun
        exact .inl ⟨hexpected, .inl (live_of (hkeeps.trans hrunning)).1⟩
      · cases hrun
    · rw [hcap] at hend
      rcases hend with ⟨r, s', hrun, -⟩ | ⟨err', s', hrun, rfl⟩
      · cases hrun
      · obtain ⟨rfl, rfl⟩ := EStateM.Result.error.inj hrun
        exact .inl ⟨hexpected, .inr ⟨ended_failed s err, hcleared⟩⟩
    · rw [hfails] at hend
      rcases hend with ⟨r, s', hrun, -⟩ | ⟨err', s', hrun, rfl⟩
      · cases hrun
      · obtain ⟨rfl, rfl⟩ := EStateM.Result.error.inj hrun
        exact .inr ⟨hnot, ended_failed s err, hkeeps.trans hrunning⟩

/-- A clean event keeps the flag set until it ends the run, and clears it then; any other event ends
the run with the flag set. -/
theorem leads_step (hsound : w.Sound) (hlive : w.Live) (hstep : w.step cfg act = some w') :
    Leads (w.Clean cfg act) w' := by
  obtain ⟨-, hrunning⟩ := hlive
  cases act with
  | pick =>
    obtain ⟨-, hbegin⟩ := step_pick hstep
    have hkeeps := Scheduler.running_beginSlice cfg w.sched
    have hclean : w.Clean cfg .pick ↔ ∃ t ∈ w.sched.threads, t.state = .runnable :=
      ⟨fun h => h.1 rfl, fun h => ⟨fun _ => h, by rintro ⟨⟩, by rintro ⟨⟩⟩⟩
    rw [hclean, ← Scheduler.beginSlice_ok_iff cfg]
    rcases hbegin with ⟨u, s, hrun, rfl⟩ | ⟨err, s, hrun, rfl⟩
    · rw [hrun] at hkeeps
      exact .inl ⟨⟨u, s, hrun⟩, .inl (live_of (hkeeps.trans hrunning)).2⟩
    · rw [hrun] at hkeeps
      refine .inr ⟨?_, ended_failed s err, hkeeps.trans hrunning⟩
      rintro ⟨u, s', hok⟩
      cases hrun.symm.trans hok
  | exec m =>
    obtain ⟨-, -, rfl⟩ := step_exec hstep
    exact .inl ⟨⟨by rintro ⟨⟩, by rintro ⟨⟩, by rintro ⟨⟩⟩,
      .inl (live_of (s := { w.sched with mem := m }) hrunning).2⟩
  | call op =>
    obtain ⟨hphase, -, ⟨u, s, hrun, rfl⟩ | ⟨err, s, hrun, rfl⟩⟩ := step_call hstep
    · have hkeeps := Scheduler.running_call cfg op w.sched
      rw [hrun] at hkeeps
      refine .inl ⟨⟨by rintro ⟨⟩, ?_, by rintro ⟨⟩⟩, .inl (live_of (hkeeps.trans hrunning)).2⟩
      rintro ⟨err, s', hthrows⟩
      cases hrun.symm.trans hthrows
    · have hkeeps := Scheduler.running_call cfg op w.sched
      have hslice := (hsound.evolves_reached hphase cfg (.call op)).inSlice (hsound.slice hphase).1
      have hreached : w.reached cfg (.call op) = s := by rw [reached, hrun]; rfl
      have hclean : w.Clean cfg (.call op) ↔ s.Tolerates cfg ∧ s.CanFinish := by
        rw [← hreached]
        exact ⟨fun h => h.2.1 ⟨err, s, hrun⟩, fun h => ⟨by rintro ⟨⟩, fun _ => h, by rintro ⟨⟩⟩⟩
      rw [hrun] at hkeeps
      rw [hreached] at hslice
      rw [hclean]
      exact leads_fault hslice (hkeeps.trans hrunning) err
  | sliceEnd =>
    obtain ⟨hphase, -⟩ := step_sliceEnd hstep
    have hclean : w.Clean cfg .sliceEnd ↔ w.sched.EndsWell cfg :=
      ⟨fun h => h.2.2 rfl, fun h => ⟨by rintro ⟨⟩, by rintro ⟨⟩, fun _ => h⟩⟩
    rw [hclean]
    exact leads_sliceEnd (hsound.slice hphase).1 hrunning hstep
  | fault err =>
    obtain ⟨hphase, -, rfl⟩ := step_fault hstep
    have hclean : w.Clean cfg (.fault err) ↔ w.sched.Tolerates cfg ∧ w.sched.CanFinish :=
      ⟨fun h => h.2.1 trivial, fun h => ⟨by rintro ⟨⟩, fun _ => h, by rintro ⟨⟩⟩⟩
    rw [hclean]
    exact leads_fault (hsound.slice hphase).1 hrunning err

theorem Ended.step_none (h : w.Ended) (act : Act) : w.step cfg act = none := by
  rcases h with ⟨r, hphase⟩ | ⟨err, hphase⟩
  · simp only [step, hphase]
  · simp only [step, hphase]

theorem Ended.run_eq (h : w.Ended) {acts : List Act}
    (hrun : acts.foldlM (World.step cfg) w = some w') : acts = [] ∧ w' = w := by
  cases acts with
  | nil => exact ⟨rfl, (Option.some.inj hrun).symm⟩
  | cons act acts =>
    obtain ⟨t, ht, -⟩ := Option.bind_eq_some_iff.mp hrun
    rw [h.step_none act] at ht
    cases ht

/-- A run that is over has cleared the flag if and only if all its events were clean. -/
theorem running_run (hsound : w.Sound) (hlive : w.Live) {acts : List Act}
    (hrun : acts.foldlM (World.step cfg) w = some w') (hended : w'.Ended) :
    w'.sched.running = false ↔ Steps (World.step cfg) (World.Clean cfg) w acts := by
  induction acts generalizing w with
  | nil =>
    obtain rfl : w = w' := Option.some.inj hrun
    exact absurd hended hlive.1
  | cons act acts ih =>
    obtain ⟨t, ht, hrest⟩ := Option.bind_eq_some_iff.mp hrun
    have hsteps : Steps (World.step cfg) (World.Clean cfg) w (act :: acts) ↔
        w.Clean cfg act ∧ Steps (World.step cfg) (World.Clean cfg) t acts := by
      refine ⟨fun ⟨hclean, u, hu, hsteps⟩ => ?_, fun ⟨hclean, hsteps⟩ => ⟨hclean, t, ht, hsteps⟩⟩
      obtain rfl := Option.some.inj (ht.symm.trans hu)
      exact ⟨hclean, hsteps⟩
    rw [hsteps]
    rcases leads_step hsound hlive ht with ⟨hclean, hgoes | ⟨hover, hcleared⟩⟩ | ⟨hnot, hover, hset⟩
    · rw [ih (hsound.step ht) hgoes hrest]
      exact ⟨fun h => ⟨hclean, h⟩, fun h => h.2⟩
    · obtain ⟨rfl, rfl⟩ := hover.run_eq hrest
      exact ⟨fun _ => ⟨hclean, trivial⟩, fun _ => hcleared⟩
    · obtain ⟨rfl, rfl⟩ := hover.run_eq hrest
      exact ⟨fun h => (Bool.noConfusion (hset.symm.trans h)), fun h => absurd h.1 hnot⟩

end World

/-! ## Calls after a run -/

/-- The pthread stubs that consult the flag, and the trampoline of the inline workers. -/
inductive PthreadCall
  | create | workerReturn | join | self | mutexLock | mutexUnlock | condWait | sleep
  | condWake (all : Bool)
  deriving DecidableEq, Repr

def PthreadCall.run : PthreadCall → StubM Unit
  | .create => Stubs.pthreadCreate
  | .workerReturn => Stubs.pthreadWorkerReturn
  | .join => Stubs.pthreadJoin
  | .self => Stubs.pthreadSelf
  | .mutexLock => Stubs.pthreadMutexLock
  | .mutexUnlock => Stubs.pthreadMutexUnlock
  | .condWait => Stubs.pthreadCondWait
  | .sleep => Stubs.sleep
  | .condWake all => Stubs.pthreadCondWake all

/-- No run is active, and every pthread call goes its own way: of the scheduler it changes nothing
but the memory and the registers below it. -/
structure Scheduler.Outside (s : Scheduler) : Prop where
  inactive : s.running = false
  inline : ∀ stubs (call : PthreadCall), s.MemOnly (final (call.run ⟨s, stubs⟩)).sched

namespace Process

/-- With the flag cleared, the scheduler is left alone. -/
def LeavesAlone (p p' : Process) : Prop := p.sched.running = false → p.sched.MemOnly p'.sched

instance : Std.Refl LeavesAlone := ⟨fun p _ => refl_of Scheduler.MemOnly p.sched⟩

instance : IsTrans Process LeavesAlone :=
  ⟨fun p p' p'' h h' hrunning => by
    have hfirst := h hrunning
    obtain ⟨m, hm⟩ := hfirst
    exact trans_of Scheduler.MemOnly (h hrunning) (h' (by rw [hm]; exact hrunning))⟩

theorem onMem_leavesAlone {α : Type} (x : MemM α) : Moves LeavesAlone (onMem x) := by
  intro p _
  have hmem := Scheduler.onMem_memOnly x p.sched
  cases hx : Scheduler.onMem x p.sched with
  | ok a s =>
    rw [hx] at hmem
    simpa only [onMem, onSched, hx, final] using hmem
  | error err s =>
    rw [hx] at hmem
    simpa only [onMem, onSched, hx, final] using hmem

theorem modifyStubs_leavesAlone (f : Stubs → Stubs) : Moves LeavesAlone (modifyStubs f) :=
  moves_modify fun p _ => refl_of Scheduler.MemOnly p.sched

/-- Only the branch without the scheduler counts. -/
theorem on_leavesAlone {α : Type} {f : Bool → StubM α} (h : Moves LeavesAlone (f false)) :
    Moves LeavesAlone (Stubs.on >>= f) := by
  intro p hrunning
  have hon : Stubs.on p = .ok false p := by
    change EStateM.Result.ok p.sched.running p = _
    rw [hrunning]
  rw [bind_ok hon]
  exact h p hrunning

end Process

namespace Stubs

open Process

theorem growStacks_leavesAlone (missing : ℕ) : Moves LeavesAlone (growStacks missing) := by
  induction missing with
  | zero => exact moves_pure _
  | succ missing ih =>
    exact moves_bind (onMem_leavesAlone _) fun _ =>
      moves_bind (modifyStubs_leavesAlone _) fun _ => ih

theorem createInline_leavesAlone (out routine arg : ℕ) :
    Moves LeavesAlone (createInline out routine arg) := by
  refine moves_bind moves_get fun _ => moves_ite (onMem_leavesAlone _) ?_
  refine moves_bind moves_get fun _ => moves_bind (modifyStubs_leavesAlone _) fun _ => ?_
  refine moves_when (onMem_leavesAlone _) fun _ => ?_
  refine moves_bind (onMem_leavesAlone _) fun _ => moves_bind (onMem_leavesAlone _) fun _ => ?_
  refine moves_bind moves_get fun _ => moves_bind moves_get fun _ => ?_
  refine moves_bind moves_get fun _ => moves_bind (growStacks_leavesAlone _) fun _ => ?_
  refine moves_bind (modifyStubs_leavesAlone _) fun _ => ?_
  refine moves_bind (onMem_leavesAlone _) fun _ => moves_bind moves_get fun _ => ?_
  refine moves_bind (onMem_leavesAlone _) fun _ => moves_bind moves_get fun _ => ?_
  exact moves_bind (onMem_leavesAlone _) fun _ => onMem_leavesAlone _

theorem joinInline_leavesAlone (tid out : ℕ) : Moves LeavesAlone (joinInline tid out) := by
  refine moves_ite ?_ (onMem_leavesAlone _)
  exact moves_bind moves_get fun _ => moves_bind (onMem_leavesAlone _) fun _ => onMem_leavesAlone _

theorem pthreadWorkerReturn_leavesAlone : Moves LeavesAlone pthreadWorkerReturn := by
  refine moves_bind moves_get fun p => ?_
  cases p.stubs.threadCtx.getLast? with
  | none => exact moves_pure _
  | some ctx =>
    refine moves_bind (modifyStubs_leavesAlone _) fun _ => ?_
    refine moves_bind (onMem_leavesAlone _) fun _ => ?_
    refine moves_bind (modifyStubs_leavesAlone _) fun _ => ?_
    refine moves_bind (onMem_leavesAlone _) fun _ => ?_
    exact moves_bind (onMem_leavesAlone _) fun _ =>
      moves_bind (onMem_leavesAlone _) fun _ => onMem_leavesAlone _

end Stubs

open Process Stubs in
/-- With the flag cleared, every call leaves the scheduler alone. -/
theorem PthreadCall.run_leavesAlone (call : PthreadCall) : Moves LeavesAlone call.run := by
  cases call with
  | create =>
    refine moves_bind (onMem_leavesAlone _) fun _ => moves_bind (onMem_leavesAlone _) fun _ => ?_
    exact moves_bind (onMem_leavesAlone _) fun _ => on_leavesAlone (createInline_leavesAlone _ _ _)
  | workerReturn => exact pthreadWorkerReturn_leavesAlone
  | join =>
    refine moves_bind (onMem_leavesAlone _) fun _ => moves_bind (onMem_leavesAlone _) fun _ => ?_
    exact on_leavesAlone (joinInline_leavesAlone _ _)
  | self => exact on_leavesAlone (onMem_leavesAlone _)
  | mutexLock => exact on_leavesAlone (onMem_leavesAlone _)
  | mutexUnlock => exact on_leavesAlone (onMem_leavesAlone _)
  | condWait => exact on_leavesAlone (onMem_leavesAlone _)
  | sleep => exact on_leavesAlone (moves_bind moves_get fun _ => onMem_leavesAlone _)
  | condWake all => exact on_leavesAlone (onMem_leavesAlone _)

theorem Scheduler.outside_iff {s : Scheduler} : s.Outside ↔ s.running = false :=
  ⟨fun h => h.inactive, fun h => ⟨h, fun stubs call => call.run_leavesAlone ⟨s, stubs⟩ h⟩⟩

namespace World

theorem live_start (cfg : SchedConfig) (fn : ℕ) (args : List ℕ) (s : Scheduler) :
    (start cfg fn args s).Live := (live_of (s := s.beginRun cfg fn args) rfl).1

/-- After a run, however it ended, the scheduler is inactive and the pthread calls go their own way
exactly if every event of the run was clean. -/
theorem outside_iff_clean (cfg : SchedConfig) (fn : ℕ) (args : List ℕ) (s : Scheduler)
    {acts : List Act} {w : World}
    (hrun : acts.foldlM (World.step cfg) (start cfg fn args s) = some w) (hended : w.Ended) :
    w.sched.Outside ↔ Steps (World.step cfg) (World.Clean cfg) (start cfg fn args s) acts := by
  rw [Scheduler.outside_iff]
  exact running_run (sound_start cfg fn args s) (live_start cfg fn args s) hrun hended

/-- The first slice of a run is one of the main thread. -/
theorem step_pick_start (cfg : SchedConfig) (fn : ℕ) (args : List ℕ) (s : Scheduler) :
    ∃ t rr, t.tid = 0 ∧ (start cfg fn args s).step cfg .pick =
      some ⟨(s.beginRun cfg fn args).started cfg t rr, .slice⟩ := by
  rcases Scheduler.beginSlice_cases cfg (s.beginRun cfg fn args) with
    ⟨t, rr, ht, -, hok⟩ | ⟨err, hfails⟩
  · have htid : t.tid = 0 := by rw [List.mem_singleton.mp ht]
    exact ⟨t, rr, htid, by simp only [World.step, start, hok]⟩
  · obtain ⟨u, s', hok⟩ := (Scheduler.beginSlice_ok_iff cfg (s.beginRun cfg fn args)).mpr
      ⟨_, List.mem_singleton_self _, rfl⟩
    cases hfails.symm.trans hok

/-- A run whose first event is a fault of the main thread. -/
theorem run_fault (cfg : SchedConfig) (fn : ℕ) (args : List ℕ) (s : Scheduler) (err : Failure) :
    ∃ w, [.pick, .fault err].foldlM (World.step cfg) (start cfg fn args s) = some w ∧
      w.phase = .failed err ∧ w.sched.running = true := by
  obtain ⟨t, rr, htid, hpick⟩ := step_pick_start cfg fn args s
  have hmain : ¬((s.beginRun cfg fn args).started cfg t rr).Tolerates cfg := fun h => h.1 htid
  refine ⟨⟨(s.beginRun cfg fn args).started cfg t rr, .failed err⟩, ?_, rfl, rfl⟩
  simp only [List.foldlM_cons, List.foldlM_nil, hpick, Option.bind_eq_bind, Option.bind_some]
  simp only [World.step, World.fault, Scheduler.onFault_fails hmain]
  rfl

/-- A program that faults at once. -/
theorem outside_iff_clean_of_fault :
    ∃ w, [.pick, .fault (.engine "uc_emu_start")].foldlM (World.step {})
        (start {} 0 [] (.init (.init .arm64 false false) true)) = some w ∧ w.Ended ∧
      (w.sched.Outside ↔ Steps (World.step {}) (World.Clean {})
        (start {} 0 [] (.init (.init .arm64 false false) true))
        [.pick, .fault (.engine "uc_emu_start")]) := by
  obtain ⟨w, hrun, hphase, -⟩ := run_fault {} 0 [] (.init (.init .arm64 false false) true)
    (.engine "uc_emu_start")
  exact ⟨w, hrun, .inr ⟨_, hphase⟩, outside_iff_clean {} 0 [] _ hrun (.inr ⟨_, hphase⟩)⟩

/-- A fault of the main thread ends `run`, and the scheduler stays active. -/
theorem active_after_fault :
    ∃ w, [.pick, .fault (.engine "uc_emu_start")].foldlM (World.step {})
        (start {} 0 [] (.init (.init .arm64 false false) true)) = some w ∧ w.Ended ∧
      ¬w.sched.Outside := by
  obtain ⟨w, hrun, hphase, hrunning⟩ := run_fault {} 0 [] (.init (.init .arm64 false false) true)
    (.engine "uc_emu_start")
  refine ⟨w, hrun, .inr ⟨_, hphase⟩, fun h => ?_⟩
  rw [h.inactive] at hrunning
  cases hrunning

end World

end Vardoger
