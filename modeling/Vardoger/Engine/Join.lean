import Vardoger.Engine.Slices

/-!
# Joining threads

Along every run, a thread that is blocked on a join waits for a thread that is there and has not
finished, and a finished thread stays as it is. When a thread finishes, its joiners are woken with
its result delivered. The exception is an out pointer that cannot be written: the exception then
ends the whole run, with joiners left blocked on a finished thread.
-/

namespace Vardoger

open Stateful Runs

namespace Scheduler

variable {cfg : SchedConfig} {s s' : Scheduler} {rv : ℕ}

/-- Nobody is blocked on a join of a thread that is gone or finished. -/
def Joinable (s : Scheduler) : Prop :=
  ∀ t ∈ s.threads, ∀ tid, waitsFor .join tid t → s.Alive tid

/-- Finished threads stay finished, with the same result. -/
def Settled (s s' : Scheduler) : Prop :=
  ∀ t ∈ s.threads, t.state = .finished →
    ∃ t' ∈ s'.threads, t'.tid = t.tid ∧ t'.state = .finished ∧ t'.retval = t.retval

theorem Evolves.joinable (h : Evolves s s') (hs : s.Joinable) : s'.Joinable := by
  intro t' ht' tid hwaits
  rcases h.joins t' ht' tid hwaits with ⟨t, ht, hwaits⟩ | halive
  · exact h.alive (hs t ht tid hwaits)
  · exact halive

theorem Evolves.settled (h : Evolves s s') : Settled s s' := by
  intro t ht hfinished
  obtain ⟨t', ht', hkept⟩ := h.kept t ht
  exact ⟨t', ht', hkept.tid, hkept.finished.mpr hfinished, hkept.retval⟩

theorem Settled.trans {s'' : Scheduler} (h : Settled s s') (h' : Settled s' s'') :
    Settled s s'' := by
  intro t ht hfinished
  obtain ⟨t', ht', htid, hfinished', hretval⟩ := h t ht hfinished
  obtain ⟨t'', ht'', htid', hfinished'', hretval'⟩ := h' t' ht' hfinished'
  exact ⟨t'', ht'', htid'.trans htid, hfinished'', hretval'.trans hretval⟩

theorem settled_of_threads_eq (h : s'.threads = s.threads) : Settled s s' := by
  intro t ht hfinished
  exact ⟨t, by rw [h]; exact ht, rfl, hfinished, rfl⟩

/-- A finished thread is not the running one. -/
theorem InSlice.tid_ne_cur (h : s.InSlice) {t : Thread} (ht : t ∈ s.threads)
    (hfinished : t.state = .finished) : t.tid ≠ s.cur := by
  intro htid
  obtain ⟨u, hu, hutid, hstate⟩ := h.current
  rw [h.distinct.eq_of_tid_eq ht hu (htid.trans hutid.symm)] at hfinished
  exact hstate hfinished

theorem InSlice.settled_setCurrent (h : s.InSlice) (f : Thread → Thread) :
    Settled s (s.setCurrent f) := by
  intro t ht hfinished
  have htid := h.tid_ne_cur ht hfinished
  exact ⟨t, mem_setCurrent.mpr ⟨t, ht, .inr ⟨htid, rfl⟩⟩, rfl, hfinished, rfl⟩

theorem InSlice.settled_finish (h : s.InSlice) (rv : ℕ) : Settled s (s.finish rv) := by
  intro t ht hfinished
  have htid := h.tid_ne_cur ht hfinished
  have hwaits : ¬waitsFor .join s.cur t := by simp [waitsFor, hfinished]
  exact ⟨t, mem_finish.mpr ⟨t, ht, .inr (.inr ⟨htid, hwaits, rfl⟩)⟩, rfl, hfinished, rfl⟩

/-- A saved thread waits for what it waited for, or is runnable. -/
theorem InSlice.joinable_saved (h : s.InSlice) (hjoinable : s.Joinable) {state : ThreadState}
    (hstate : state = .runnable ∨ ∃ t ∈ s.threads, t.tid = s.cur ∧ state = t.state) :
    (s.saved cfg state).Joinable := by
  have hunfinished : state ≠ .finished := by
    rcases hstate with rfl | ⟨t, ht, htid, rfl⟩
    · simp
    · exact fun hfinished => h.tid_ne_cur ht hfinished htid
  have halive {tid : ℕ} (halive : s.Alive tid) : (s.saved cfg state).Alive tid := by
    obtain ⟨t, ht, htid, hliving⟩ := halive
    by_cases hcur : t.tid = s.cur
    · exact ⟨_, mem_setCurrent.mpr ⟨t, ht, .inl ⟨hcur, rfl⟩⟩, htid, hunfinished⟩
    · exact ⟨t, mem_setCurrent.mpr ⟨t, ht, .inr ⟨hcur, rfl⟩⟩, htid, hliving⟩
  intro u hu tid hwaits
  obtain ⟨t, ht, ⟨hcur, rfl⟩ | ⟨hcur, rfl⟩⟩ := mem_setCurrent.mp hu
  · rcases hstate with rfl | ⟨v, hv, hvcur, rfl⟩
    · rw [not_waitsFor_of_state (by simp)] at hwaits
      cases hwaits
    · obtain rfl := h.distinct.eq_of_tid_eq ht hv (hcur.trans hvcur.symm)
      exact halive (hjoinable t ht tid hwaits)
  · exact halive (hjoinable u ht tid hwaits)

theorem Joinable.finish (hjoinable : s.Joinable) (rv : ℕ) : (s.finish rv).Joinable := by
  intro u hu tid hwaits
  obtain ⟨t, ht, ⟨-, rfl⟩ | ⟨-, -, rfl⟩ | ⟨hcur, hnot, rfl⟩⟩ := mem_finish.mp hu
  · rw [not_waitsFor_of_state (by simp)] at hwaits
    cases hwaits
  · rw [not_waitsFor_of_state (by simp [release])] at hwaits
    cases hwaits
  · -- The target is another thread than the one that finishes.
    obtain ⟨v, hv, hvtid, hstate⟩ := hjoinable u ht tid hwaits
    have hne : v.tid ≠ s.cur := by
      rintro heq
      rw [← hvtid, heq] at hwaits
      exact hnot hwaits
    by_cases hwaits' : waitsFor .join s.cur v
    · exact ⟨release v, mem_finish.mpr ⟨v, hv, .inr (.inl ⟨hne, hwaits', rfl⟩)⟩, hvtid, by
        simp [release]⟩
    · exact ⟨v, mem_finish.mpr ⟨v, hv, .inr (.inr ⟨hne, hwaits', rfl⟩)⟩, hvtid, hstate⟩

theorem Distinct.finish (h : s.Distinct) (rv : ℕ) : (s.finish rv).Distinct := by
  have htids : (s.finish rv).threads.map Thread.tid = s.threads.map Thread.tid := by
    rw [threads_finish, List.map_map]
    refine List.map_congr_left fun t _ => ?_
    simp only [Function.comp_apply]
    split
    · rfl
    · split
      · rfl
      · rfl
  refine ⟨by rw [htids]; exact h.nodup, fun u hu => ?_⟩
  obtain ⟨t, ht, htid⟩ : ∃ t ∈ s.threads, u.tid = t.tid := by
    obtain ⟨t, ht, ⟨-, rfl⟩ | ⟨-, -, rfl⟩ | ⟨-, -, rfl⟩⟩ := mem_finish.mp hu
    · exact ⟨t, ht, rfl⟩
    · exact ⟨t, ht, rfl⟩
    · exact ⟨u, ht, rfl⟩
  rw [htid]
  exact h.lt_nextTid t ht

end Scheduler

namespace World

variable {cfg : SchedConfig} {w w' : World} {act : Act} {rv : ℕ}

/-! ## What an event leads to -/

/-- The state in which the slice goes on or is left; a call that throws has done a part. -/
def reached (cfg : SchedConfig) (w : World) : Act → Scheduler
  | .call op => final (op.run cfg w.sched)
  | _ => w.sched

/-- The event ends in an exception that reaches `run`. -/
def Throws (cfg : SchedConfig) (w : World) : Act → Prop
  | .fault _ => True
  | .call op => ∃ err s, op.run cfg w.sched = .error err s
  | _ => False

/-- The event finishes the running thread with the given result: it returned to the sentinel, also
by `thread_exit`, or it is a worker whose fault is tolerated. -/
def Finishes (cfg : SchedConfig) (w : World) (act : Act) (rv : ℕ) : Prop :=
  (act = .sliceEnd ∧ w.sched.Returned ∧ rv = w.sched.mem.engine.reg (.arm64X 0)) ∨
    (w.Throws cfg act ∧ (w.reached cfg act).Tolerates cfg ∧
      ∃ t ∈ (w.reached cfg act).threads, t.tid = w.sched.cur ∧ t.retval = rv)

/-- In every state of a run in progress the table is sound. -/
structure Sound (w : World) : Prop where
  choosing : w.phase = .choosing → w.sched.Distinct ∧ w.sched.Joinable
  slice : w.phase = .slice → w.sched.InSlice ∧ w.sched.Joinable

/-- The ways an event can go. -/
inductive Outcome (cfg : SchedConfig) (w : World) : Act → World → Prop
  /-- A runnable thread starts its slice. -/
  | started {t : Thread} {rr : ℕ} (hphase : w.phase = .choosing) (ht : t ∈ w.sched.threads)
      (hstate : t.state = .runnable) : Outcome cfg w .pick ⟨w.sched.started cfg t rr, .slice⟩
  /-- The slice goes on. -/
  | running (act : Act) (m : Memory) (hphase : w.phase = .slice) (hpick : act ≠ .pick)
      (hend : act ≠ .sliceEnd) (hthrows : ¬w.Throws cfg act) :
      Outcome cfg w act ⟨{ w.reached cfg act with mem := m }, .slice⟩
  /-- The slice ends, and its thread will go on another time. -/
  | saved {state : ThreadState} {preempts : ℕ} (hphase : w.phase = .slice)
      (hreturned : ¬w.sched.Returned) (hstate : state = .runnable ∨
        ∃ t ∈ w.sched.threads, t.tid = w.sched.cur ∧ state = t.state) :
      Outcome cfg w .sliceEnd ⟨{ w.sched.saved cfg state with preempts := preempts }, .choosing⟩
  /-- The running thread is finished, and the run goes on or returns. -/
  | finished {act : Act} {rv : ℕ} {phase : Phase} (running : Bool) (hphase : w.phase = .slice)
      (hfinishes : w.Finishes cfg act rv) (hcan : (w.reached cfg act).CanFinish)
      (hnext : phase ≠ .slice) :
      Outcome cfg w act ⟨{ (w.reached cfg act).finish rv with running := running }, phase⟩
  /-- The running thread is finished, but a joiner cannot be given the result. -/
  | stuck {act : Act} {rv : ℕ} {err : Failure} {s : Scheduler} {t : Thread}
      (hfinishes : w.Finishes cfg act rv) (hcannot : ¬(w.reached cfg act).CanFinish)
      (hwaits : Scheduler.waitsFor .join w.sched.cur t) (ht : t ∈ s.threads) :
      Outcome cfg w act ⟨s, .failed err⟩
  /-- The run fails otherwise. -/
  | failed {act : Act} {err : Failure} {s : Scheduler} (hfinishes : ∀ rv, ¬w.Finishes cfg act rv)
      (hsettled : Scheduler.Settled w.sched s) : Outcome cfg w act ⟨s, .failed err⟩

theorem Sound.evolves_reached (h : w.Sound) (hphase : w.phase = .slice) (cfg : SchedConfig)
    (act : Act) :
    w.sched.Evolves (w.reached cfg act) := by
  obtain ⟨hslice, -⟩ := h.slice hphase
  cases act with
  | call op => exact hslice.evolves_call cfg op
  | _ => exact hslice.distinct.evolves_same rfl rfl le_rfl

/-- An exception that reaches `run` retires the running thread or ends the run. -/
theorem Sound.outcome_fault (h : w.Sound) (hphase : w.phase = .slice) (act : Act)
    (hthrows : w.Throws cfg act) (hend : act ≠ .sliceEnd) (err : Failure) :
    Outcome cfg w act (World.fault cfg err (w.reached cfg act)) := by
  have hevolves := h.evolves_reached hphase cfg act
  have hslice := hevolves.inSlice (h.slice hphase).1
  by_cases htolerates : (w.reached cfg act).Tolerates cfg
  · obtain ⟨t, ht, htid, hfault⟩ := hslice.onFault_retires htolerates err
    have hfinishes : w.Finishes cfg act t.retval :=
      .inr ⟨hthrows, htolerates, t, ht, htid.trans hevolves.cur, rfl⟩
    by_cases hcan : (w.reached cfg act).CanFinish
    · rw [World.fault, hfault, hslice.wakeJoiners_ok hcan]
      exact .finished (w.reached cfg act).running hphase hfinishes hcan (by simp)
    · obtain ⟨err, s, hrun, u, -, -, hwaits, hu⟩ := hslice.wakeJoiners_error hcan t.retval
      rw [World.fault, hfault, hrun]
      rw [hevolves.cur] at hwaits
      exact .stuck hfinishes hcan hwaits hu
  · rw [World.fault, Scheduler.onFault_fails htolerates]
    refine .failed ?_ hevolves.settled
    rintro rv (⟨hsliceEnd, -⟩ | ⟨-, hnot, -⟩)
    · exact hend hsliceEnd
    · exact htolerates hnot

theorem Sound.outcome_sliceEnd (h : w.Sound) (hstep : w.step cfg .sliceEnd = some w') :
    Outcome cfg w .sliceEnd w' := by
  obtain ⟨hphase, hend⟩ := step_sliceEnd hstep
  obtain ⟨hslice, -⟩ := h.slice hphase
  by_cases hreturned : w.sched.Returned
  · have hfinishes : w.Finishes cfg .sliceEnd (w.sched.mem.engine.reg (.arm64X 0)) :=
      .inl ⟨rfl, hreturned, rfl⟩
    by_cases hcan : w.sched.CanFinish
    · rw [hslice.endSlice_finish hreturned hcan] at hend
      rcases hend with ⟨r, s, hrun, rfl⟩ | ⟨err, s, hrun, -⟩
      · obtain ⟨rfl, rfl⟩ := EStateM.Result.ok.inj hrun
        by_cases hmain : w.sched.cur = 0
        · rw [Scheduler.afterReturn, if_pos hmain, if_pos hmain]
          exact .finished false hphase hfinishes hcan (by simp [afterSlice])
        · rw [Scheduler.afterReturn, if_neg hmain, if_neg hmain]
          exact .finished w.sched.running hphase hfinishes hcan (by simp [afterSlice])
      · cases hrun
    · obtain ⟨err, s, hstuck, u, -, -, hwaits, hu⟩ := hslice.endSlice_stuck hreturned hcan cfg
      rw [hstuck] at hend
      rcases hend with ⟨r, s', hrun, -⟩ | ⟨err, s', hrun, rfl⟩
      · cases hrun
      · obtain ⟨rfl, rfl⟩ := EStateM.Result.error.inj hrun
        exact .stuck hfinishes hcan hwaits hu
  · rcases hslice.endSlice_saved hreturned cfg with
      ⟨state, preempts, hstate, hsaved⟩ | ⟨err, s, hfails, hthreads⟩
    · rw [hsaved] at hend
      rcases hend with ⟨r, s, hrun, rfl⟩ | ⟨err, s, hrun, -⟩
      · obtain ⟨rfl, rfl⟩ := EStateM.Result.ok.inj hrun
        exact .saved hphase hreturned hstate
      · cases hrun
    · rw [hfails] at hend
      rcases hend with ⟨r, s', hrun, -⟩ | ⟨err, s', hrun, rfl⟩
      · cases hrun
      · obtain ⟨rfl, rfl⟩ := EStateM.Result.error.inj hrun
        refine .failed ?_ ?_
        · rintro rv (⟨-, hr, -⟩ | ⟨hthrows, -⟩)
          · exact hreturned hr
          · exact hthrows
        · rcases hthreads with rfl | hthreads
          · exact Scheduler.settled_of_threads_eq rfl
          · exact (hslice.settled_setCurrent _).trans
              (Scheduler.settled_of_threads_eq (s := w.sched.saved cfg .runnable) hthreads)

theorem Sound.outcome (h : w.Sound) (hstep : w.step cfg act = some w') : Outcome cfg w act w' := by
  cases act with
  | pick =>
    obtain ⟨hphase, hbegin⟩ := step_pick hstep
    rcases Scheduler.beginSlice_cases cfg w.sched with ⟨t, rr, ht, hstate, hok⟩ | ⟨err, hfails⟩
    · rw [hok] at hbegin
      rcases hbegin with ⟨u, s, hrun, rfl⟩ | ⟨err, s, hrun, -⟩
      · obtain ⟨-, rfl⟩ := EStateM.Result.ok.inj hrun
        exact .started hphase ht hstate
      · cases hrun
    · rw [hfails] at hbegin
      rcases hbegin with ⟨u, s, hrun, -⟩ | ⟨err, s, hrun, rfl⟩
      · cases hrun
      · obtain ⟨-, rfl⟩ := EStateM.Result.error.inj hrun
        refine .failed ?_ (Scheduler.settled_of_threads_eq rfl)
        rintro rv (⟨hsliceEnd, -⟩ | ⟨hthrows, -⟩)
        · cases hsliceEnd
        · exact hthrows
  | exec m =>
    obtain ⟨hphase, -, rfl⟩ := step_exec hstep
    exact .running (.exec m) m hphase (by simp) (by simp) id
  | call op =>
    obtain ⟨hphase, -, ⟨u, s, hrun, rfl⟩ | ⟨err, s, hrun, rfl⟩⟩ := step_call hstep
    · have hreached : w.reached cfg (.call op) = s := by rw [reached, hrun]; rfl
      have hthrows : ¬w.Throws cfg (.call op) := by
        rintro ⟨err, s', hrun'⟩
        cases hrun.symm.trans hrun'
      have houtcome := Outcome.running (.call op) s.mem hphase (by simp) (by simp) hthrows
      rwa [hreached] at houtcome
    · have hreached : w.reached cfg (.call op) = s := by rw [reached, hrun]; rfl
      rw [← hreached]
      have hthrows : w.Throws cfg (.call op) := ⟨err, s, hrun⟩
      exact h.outcome_fault hphase (.call op) hthrows (by simp) err
  | sliceEnd => exact h.outcome_sliceEnd hstep
  | fault err =>
    obtain ⟨hphase, -, rfl⟩ := step_fault hstep
    exact h.outcome_fault hphase (.fault err) trivial (by simp) err

/-- Every event keeps the table sound. -/
theorem Sound.step (h : w.Sound) (hstep : w.step cfg act = some w') : w'.Sound := by
  cases h.outcome hstep with
  | started hphase ht hstate =>
    obtain ⟨hdistinct, hjoinable⟩ := h.choosing hphase
    refine ⟨nofun, fun _ => ⟨⟨⟨hdistinct.nodup, hdistinct.lt_nextTid⟩, ?_⟩, hjoinable⟩⟩
    exact ⟨_, ht, rfl, by simp [hstate]⟩
  | running _ m hphase =>
    obtain ⟨hslice, hjoinable⟩ := h.slice hphase
    have hevolves := h.evolves_reached hphase cfg act
    obtain ⟨⟨hnodup, hlt⟩, hcur⟩ := hevolves.inSlice hslice
    exact ⟨nofun, fun _ => ⟨⟨⟨hnodup, hlt⟩, hcur⟩, hevolves.joinable hjoinable⟩⟩
  | saved hphase hreturned hstate =>
    obtain ⟨hslice, hjoinable⟩ := h.slice hphase
    refine ⟨fun _ => ⟨?_, hslice.joinable_saved hjoinable hstate⟩, nofun⟩
    obtain ⟨hnodup, hlt⟩ := hslice.distinct.setCurrent (f := fun t =>
      { t with ctx := w.sched.mem.engine.saveCtx cfg.noVregs t.ctx, state := _ }) fun _ => rfl
    exact ⟨hnodup, hlt⟩
  | finished running hphase hfinishes hcan hnext =>
    obtain ⟨hslice, hjoinable⟩ := h.slice hphase
    have hevolves := h.evolves_reached hphase cfg act
    refine ⟨fun _ => ⟨?_, (hevolves.joinable hjoinable).finish _⟩,
      fun hslice => absurd hslice hnext⟩
    obtain ⟨hnodup, hlt⟩ := hevolves.distinct.finish _
    exact ⟨hnodup, hlt⟩
  | stuck => exact ⟨nofun, nofun⟩
  | failed => exact ⟨nofun, nofun⟩

theorem sound_start (cfg : SchedConfig) (fn : ℕ) (args : List ℕ) (s : Scheduler) :
    (start cfg fn args s).Sound := by
  refine ⟨fun _ => ⟨⟨by simp [start, Scheduler.beginRun], ?_⟩, ?_⟩, nofun⟩
  · simp [start, Scheduler.beginRun]
  · intro t ht tid hwaits
    simp only [start, Scheduler.beginRun, List.mem_singleton] at ht
    subst ht
    cases hwaits

/-! ## Correct joins -/

/-- The event treats joins as it should. -/
structure JoinCorrect (cfg : SchedConfig) (w : World) (act : Act) (w' : World) : Prop where
  /-- When the loop picks a thread, nobody waits for a thread that is gone or finished. -/
  waits : act = .pick → w.sched.Joinable
  /-- When a thread finishes, exactly the threads that wait for it become runnable. -/
  wakes : ∀ rv, w.Finishes cfg act rv →
    w'.sched.threads = (w.reached cfg act).threads.map fun t =>
      if t.tid = w.sched.cur then { t with retval := rv, state := .finished }
      else if Scheduler.waitsFor .join w.sched.cur t then Scheduler.release t
      else t
  /-- Their out pointers are written, and hold the result unless they overlap each other. -/
  delivers : ∀ rv, w.Finishes cfg act rv → ∀ outs,
    outs = Scheduler.outPointers ((w.reached cfg act).threads.filter fun t =>
      t.tid ≠ w.sched.cur && Scheduler.waitsFor .join w.sched.cur t) →
    w'.sched.mem.engine = Scheduler.delivered rv outs (w.reached cfg act).mem.engine ∧
    ∀ p ∈ outs, (∀ q ∈ outs, q = p ∨ q + 8 ≤ p ∨ p + 8 ≤ q) →
      w'.sched.mem.engine.Holds p (LittleEndian.toBytes 8 rv)
  /-- A finished thread stays finished, with its result. -/
  settled : Scheduler.Settled w.sched w'.sched
  /-- A join of a finished or unknown thread changes no thread and does not stop the slice. -/
  passes : ∀ tid out, act = .call (.doJoin tid out) → ¬w.sched.Alive tid →
    ∃ m, w.reached cfg act = { w.sched with mem := m }

/-- Where the event finishes the running thread, every thread blocked on its join has an out pointer
that is null or can be written. -/
def Writable (cfg : SchedConfig) (w : World) (act : Act) : Prop :=
  ∀ rv, w.Finishes cfg act rv → (w.reached cfg act).CanFinish

/-! ### A join that does not block -/

end World

namespace Scheduler

variable {s : Scheduler} {rv : ℕ}

/-- Nothing but memory and registers differs. -/
def MemOnly (s s' : Scheduler) : Prop := ∃ m, s' = { s with mem := m }

instance : Std.Refl MemOnly := ⟨fun s => ⟨s.mem, rfl⟩⟩

instance : IsTrans Scheduler MemOnly :=
  ⟨fun s s' s'' h h' => by
    obtain ⟨m, rfl⟩ := h
    obtain ⟨m', rfl⟩ := h'
    exact ⟨m', rfl⟩⟩

theorem onMem_memOnly {α : Type} (x : MemM α) : Moves MemOnly (onMem x) := by
  intro s
  unfold onMem
  split
  · exact ⟨_, rfl⟩
  · exact ⟨_, rfl⟩

/-- A join of a thread that is gone or finished touches only memory and registers. -/
theorem doJoin_memOnly {tid out : ℕ} (h : ¬s.Alive tid) :
    MemOnly s (final (doJoin tid out s)) := by
  have hdone (v : ℕ) : Moves MemOnly (do
      if out ≠ 0 then
        writeT 8 out v
      writeReg .ret0 0) := moves_when (onMem_memOnly _) fun _ => onMem_memOnly _
  rw [doJoin, get_bind]
  cases hfind : s.findThread tid with
  | none => exact hdone 0 s
  | some target =>
    obtain ⟨ht, htid⟩ := findThread_mem hfind
    have hfinished : target.state = .finished := by
      by_contra hunfinished
      exact h ⟨target, ht, htid, hunfinished⟩
    dsimp only
    rw [if_pos hfinished]
    exact hdone target.retval s

/-- The retired thread itself is not among the joiners. -/
theorem joiners_retired (s : Scheduler) (rv : ℕ) :
    (s.retired rv).joiners s.cur =
      s.threads.filter fun t => t.tid ≠ s.cur && waitsFor .join s.cur t := by
  rw [joiners, retired, setCurrent, List.filter_map]
  have hfilter : s.threads.filter ((waitsFor .join s.cur) ∘ fun t =>
      if t.tid = s.cur then { t with retval := rv, state := .finished } else t) =
        s.threads.filter fun t => t.tid ≠ s.cur && waitsFor .join s.cur t := by
    refine List.filter_congr fun t _ => ?_
    by_cases htid : t.tid = s.cur
    · simp [htid, waitsFor]
    · simp [htid]
  rw [hfilter, List.map_congr_left (g := id), List.map_id]
  intro t ht
  have htid : t.tid ≠ s.cur := by
    have := (List.mem_filter.mp ht).2
    simp only [Bool.and_eq_true, decide_eq_true_eq] at this
    exact this.1
  rw [if_neg htid, id]

end Scheduler

namespace World

variable {cfg : SchedConfig} {w w' : World} {act : Act} {rv : ℕ}

/-! ### Steps and runs -/

/-- The result of an event is determined. -/
theorem Finishes.unique {rv' : ℕ} (h : w.Finishes cfg act rv) (h' : w.Finishes cfg act rv')
    (hdistinct : (w.reached cfg act).Distinct) : rv = rv' := by
  rcases h with ⟨rfl, -, rfl⟩ | ⟨hthrows, -, t, ht, htid, rfl⟩
  · rcases h' with ⟨-, -, rfl⟩ | ⟨hthrows, -⟩
    · rfl
    · exact hthrows.elim
  · rcases h' with ⟨rfl, -⟩ | ⟨-, -, u, hu, hutid, rfl⟩
    · exact hthrows.elim
    · rw [hdistinct.eq_of_tid_eq ht hu (htid.trans hutid.symm)]

/-- A joiner that is left blocked contradicts a correct join. -/
theorem JoinCorrect.not_waiting (h : JoinCorrect cfg w act w') (hfinishes : w.Finishes cfg act rv)
    {t : Thread} (ht : t ∈ w'.sched.threads) : ¬Scheduler.waitsFor .join w.sched.cur t := by
  rw [h.wakes rv hfinishes] at ht
  obtain ⟨u, -, rfl⟩ := List.mem_map.mp ht
  intro hwaits
  have hblocked := Scheduler.blocked_of_waitsFor hwaits
  split at hblocked
  · cases hblocked
  · split at hblocked
    · cases hblocked
    · rename_i hcur hnot
      rw [if_neg hcur, if_neg hnot] at hwaits
      exact hnot hwaits

/-- An event that finishes no thread treats joins correctly. -/
theorem Sound.joinCorrect_of_not_finishes (h : w.Sound) (hstep : w.step cfg act = some w')
    (hnot : ∀ rv, ¬w.Finishes cfg act rv) (hsettled : Scheduler.Settled w.sched w'.sched) :
    JoinCorrect cfg w act w' where
  waits hpick := by
    subst hpick
    exact (h.choosing (step_pick hstep).1).2
  wakes rv hfinishes := absurd hfinishes (hnot rv)
  delivers rv hfinishes := absurd hfinishes (hnot rv)
  settled := hsettled
  passes tid out hact halive := by
    subst hact
    exact Scheduler.doJoin_memOnly halive

/-- An event treats joins correctly just if no joiner has an out pointer that cannot be written. -/
theorem Sound.joinCorrect_iff (h : w.Sound) (hstep : w.step cfg act = some w') :
    JoinCorrect cfg w act w' ↔ w.Writable cfg act := by
  cases h.outcome hstep with
  | started hphase ht hstate =>
    have hnot : ∀ rv, ¬w.Finishes cfg .pick rv := by
      rintro rv (⟨hend, -⟩ | ⟨hthrows, -⟩)
      · cases hend
      · exact hthrows
    refine iff_of_true (h.joinCorrect_of_not_finishes hstep hnot ?_)
      fun rv hf => absurd hf (hnot rv)
    exact Scheduler.settled_of_threads_eq rfl
  | running _ m hphase hpick hend hthrows =>
    have hnot : ∀ rv, ¬w.Finishes cfg act rv := by
      rintro rv (⟨hsliceEnd, -⟩ | ⟨hthrows', -⟩)
      · exact hend hsliceEnd
      · exact hthrows hthrows'
    refine iff_of_true (h.joinCorrect_of_not_finishes hstep hnot ?_)
      fun rv hf => absurd hf (hnot rv)
    exact (h.evolves_reached hphase cfg act).settled
  | saved hphase hreturned hstate =>
    have hnot : ∀ rv, ¬w.Finishes cfg .sliceEnd rv := by
      rintro rv (⟨-, hr, -⟩ | ⟨hthrows, -⟩)
      · exact hreturned hr
      · exact hthrows
    refine iff_of_true (h.joinCorrect_of_not_finishes hstep hnot ?_)
      fun rv hf => absurd hf (hnot rv)
    exact (h.slice hphase).1.settled_setCurrent _
  | @finished _ rv _ running hphase hfinishes hcan hnext =>
    have hevolves := h.evolves_reached hphase cfg act
    have hslice := hevolves.inSlice (h.slice hphase).1
    refine iff_of_true ⟨?_, ?_, ?_, ?_, ?_⟩ fun _ _ => hcan
    · rintro rfl
      cases hphase.symm.trans (step_pick hstep).1
    · intro rv' hfinishes'
      obtain rfl := hfinishes.unique hfinishes' hevolves.distinct
      rw [← hevolves.cur]
      exact Scheduler.threads_finish _ rv
    · rintro rv' hfinishes' outs rfl
      obtain rfl := hfinishes.unique hfinishes' hevolves.distinct
      rw [← hevolves.cur, ← Scheduler.joiners_retired _ rv]
      refine ⟨rfl, fun p hp hapart => ?_⟩
      exact Scheduler.holds_delivered hp (Scheduler.deliverable_retired.mpr hcan p hp) hapart
    · exact hevolves.settled.trans (hslice.settled_finish rv)
    · rintro tid out rfl halive
      exact Scheduler.doJoin_memOnly halive
  | stuck hfinishes hcannot hwaits ht =>
    refine iff_of_false (fun hcorrect => ?_) fun hwritable => hcannot (hwritable _ hfinishes)
    exact hcorrect.not_waiting hfinishes ht hwaits
  | failed hnot hsettled =>
    exact iff_of_true (h.joinCorrect_of_not_finishes hstep hnot hsettled) fun rv hf =>
      absurd hf (hnot rv)

/-- In every run, all events treat joins correctly if and only if, whenever a thread finishes, each
thread blocked on its join has an out pointer that is null or can be written. -/
theorem joinCorrect_iff_writable (cfg : SchedConfig) (fn : ℕ) (args : List ℕ) (sched : Scheduler)
    (acts : List Act) :
    Steps (step cfg) (fun w act => ∀ w', w.step cfg act = some w' → JoinCorrect cfg w act w')
        (start cfg fn args sched) acts ↔
      Steps (step cfg) (Writable cfg) (start cfg fn args sched) acts := by
  refine steps_iff_of_invariant (I := Sound) (fun _ _ _ h hstep => h.step hstep) ?_
    (sound_start cfg fn args sched)
  intro w act w' h hstep
  constructor
  · intro hcorrect
    exact (h.joinCorrect_iff hstep).mp (hcorrect w' hstep)
  · intro hwritable w'' hstep'
    obtain rfl := Option.some.inj (hstep.symm.trans hstep')
    exact (h.joinCorrect_iff hstep).mpr hwritable

/-- The main thread joins a worker with an out pointer to unmapped memory. When the worker exits,
the main thread stays blocked. -/
theorem join_of_bad_pointer :
    let sched := Scheduler.init (Memory.init .arm64 false false) false
    let acts : List Act := [.pick, .call (.spawn 0 0x6000 0), .call (.doJoin 1 0x5000), .sliceEnd,
      .pick, .call (.threadExit 7)]
    ¬ Steps (step {}) (fun w act => ∀ w', w.step {} act = some w' → JoinCorrect {} w act w')
      (start {} 0x4000 [] sched) (acts ++ [.sliceEnd]) := by
  intro sched acts hsteps
  have hbad : (acts.foldlM (step {}) (start {} 0x4000 [] sched)).any (fun w =>
      (w.step {} .sliceEnd).any fun w' =>
        decide (w.sched.stop = .none ∧ w.sched.mem.engine.reg .arm64Pc = kFiniPage) &&
          w'.sched.threads.any (Scheduler.waitsFor .join w.sched.cur)) = true := by
    decide +kernel
  obtain ⟨w, hrun, hw⟩ := (Option.any_eq_true _ _).mp hbad
  obtain ⟨w', hstep, hw'⟩ := (Option.any_eq_true _ _).mp hw
  simp only [Bool.and_eq_true, decide_eq_true_eq, List.any_eq_true] at hw'
  obtain ⟨⟨hstop, hpc⟩, t, ht, hwaits⟩ := hw'
  have hcorrect := hsteps.last hrun w' hstep
  have hreturned : w.sched.Returned := ⟨by simp [hstop], by simp [hstop], hpc⟩
  exact hcorrect.not_waiting (.inl ⟨rfl, hreturned, rfl⟩) ht hwaits

end World

end Vardoger
