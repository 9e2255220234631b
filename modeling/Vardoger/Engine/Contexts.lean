import Vardoger.Engine.Allocation
import Vardoger.Engine.Join

/-!
# Thread contexts

A run is followed with two records: the register file at the end of the last slice of each thread
that blocked, yielded or was preempted, and the circumstances under which each thread was
spawned. Whatever the other threads do in between, a thread that is picked again finds its registers
as it left them, and a spawned thread starts with its argument on a stack of its own.
-/

namespace Vardoger

open Stateful Runs Words

/-- Every register as a word of its width. -/
def Context.words (c : Context) : Context where
  x i := c.x i % 2 ^ 64
  sp := c.sp % 2 ^ 64
  pc := c.pc % 2 ^ 64
  nzcv := c.nzcv % 2 ^ 64
  tpidr := c.tpidr % 2 ^ 64
  v i := c.v i % 2 ^ 128

/-- The register file of the emulator. -/
def Engine.registers (e : Engine) : Context :=
  Context.words
    { x := fun i => e.reg (.arm64X i)
      sp := e.reg .arm64Sp
      pc := e.reg .arm64Pc
      nzcv := e.reg .arm64Nzcv
      tpidr := e.reg .arm64TpidrEl0
      v := fun i => e.reg (.arm64V i) }

/-- A call of `spawn`: its argument and the emulator before and behind it. -/
structure Birth where
  arg : ℕ
  before : Engine
  after : Engine

/-- A register file as a spawned thread has to find it: its argument, the sentinel to return to, the
thread pointer of its creator, and the top of a stack that the call mapped. -/
structure Birth.Starts (b : Birth) (c : Context) : Prop where
  arg : c.x 0 = b.arg % 2 ^ 64
  lr : c.x 30 = kFiniPage
  tpidr : c.tpidr = b.before.reg .arm64TpidrEl0 % 2 ^ 64
  stack : ∃ base, c.sp = (base + kWorkerStack) % 2 ^ 64 ∧
    ∀ a, base ≤ a → a < base + kWorkerStack → ¬b.before.Mapped a ∧ b.after.Mapped a

/-- A run in progress with its records. -/
structure Recorded where
  world : World
  /-- The register file at the end of the last slice of a thread that will go on. -/
  last : ℕ → Option Context
  born : ℕ → Option Birth

namespace Recorded

/-- The slice ends because its thread blocked, yielded or was preempted. -/
def Leaves (s : Scheduler) : Prop :=
  s.stop = .block ∨ s.stop = .yield ∨ s.mem.engine.reg .arm64Pc ≠ kFiniPage

instance (s : Scheduler) : Decidable (Leaves s) := inferInstanceAs (Decidable (_ ∨ _ ∨ _))

def nextLast (r : Recorded) : Act → ℕ → Option Context
  | .sliceEnd =>
      if Leaves r.world.sched then
        Function.update r.last r.world.sched.cur (some r.world.sched.mem.engine.registers)
      else r.last
  | _ => r.last

def nextBorn (cfg : SchedConfig) (r : Recorded) : Act → ℕ → Option Birth
  | .call (.spawn outPtr routine arg) =>
      Function.update r.born r.world.sched.nextTid
        (some ⟨arg, r.world.sched.mem.engine,
          (r.world.reached cfg (.call (.spawn outPtr routine arg))).mem.engine⟩)
  | _ => r.born

def step (cfg : SchedConfig) (r : Recorded) (act : Act) : Option Recorded :=
  (r.world.step cfg act).map fun world => ⟨world, r.nextLast act, r.nextBorn cfg act⟩

/-- At the start of a run nothing is recorded. -/
def start (cfg : SchedConfig) (fn : ℕ) (args : List ℕ) (s : Scheduler) : Recorded :=
  ⟨.start cfg fn args s, fun _ => none, fun _ => none⟩

/-- The saved contexts agree with the records. -/
structure Faithful (s : Scheduler) (last : ℕ → Option Context) (born : ℕ → Option Birth) :
    Prop where
  resumes : ∀ t ∈ s.threads, ∀ c, last t.tid = some c → t.ctx.words = c
  starts : ∀ t ∈ s.threads, last t.tid = none → ∀ b, born t.tid = some b → b.Starts t.ctx.words
  fresh : ∀ tid, s.nextTid ≤ tid → last tid = none ∧ born tid = none

variable {cfg : SchedConfig} {s s' : Scheduler} {last : ℕ → Option Context}
  {born : ℕ → Option Birth}

/-- Changes of the table that keep ids and contexts do not matter. -/
theorem Faithful.of_ctx (h : Faithful s last born)
    (hctx : ∀ t' ∈ s'.threads, ∃ t ∈ s.threads, t'.tid = t.tid ∧ t'.ctx = t.ctx)
    (hnextTid : s.nextTid ≤ s'.nextTid) : Faithful s' last born where
  resumes t' ht' c hc := by
    obtain ⟨t, ht, htid, hctx⟩ := hctx t' ht'
    rw [hctx]
    exact h.resumes t ht c (by rw [← htid]; exact hc)
  starts t' ht' hnone b hb := by
    obtain ⟨t, ht, htid, hctx⟩ := hctx t' ht'
    rw [hctx]
    exact h.starts t ht (by rw [← htid]; exact hnone) b (by rw [← htid]; exact hb)
  fresh tid htid := h.fresh tid (hnextTid.trans htid)

/-! ## Spawned threads -/

/-- Two states with the same page protections. -/
def SameProt (s s' : Scheduler) : Prop := s'.mem.engine.prot = s.mem.engine.prot

instance : Std.Refl SameProt := ⟨fun _ => rfl⟩

instance : IsTrans Scheduler SameProt := ⟨fun _ _ _ h h' => Eq.trans h' h⟩

theorem onEngine_sameProt {f : Engine → Except Failure Engine}
    (hf : ∀ e e', f e = .ok e' → e'.prot = e.prot) :
    Moves SameProt (Scheduler.onMem (Memory.onEngine f)) := by
  intro s
  unfold Scheduler.onMem Memory.onEngine
  cases h : f s.mem.engine with
  | ok e => exact hf _ _ h
  | error err => rfl

theorem writeReg_sameProt (r : Reg) (v : ℕ) : Moves SameProt (Scheduler.writeReg r v) :=
  onEngine_sameProt fun _ _ h => Engine.prot_writeReg h

theorem announce_sameProt (outPtr tid : ℕ) : Moves SameProt (Scheduler.announce outPtr tid) := by
  have hwrite : Moves SameProt (Scheduler.writeT 8 outPtr tid) :=
    onEngine_sameProt fun _ _ h => Engine.prot_write h
  refine moves_when hwrite fun _ => moves_bind (writeReg_sameProt _ _) fun _ => ?_
  refine moves_bind moves_get fun s => moves_ite ?_ (moves_pure _)
  refine moves_bind (moves_bind (Scheduler.readReg_moves _) fun _ => writeReg_sameProt _ _) fun _ =>
    ?_
  refine moves_bind moves_get fun s => moves_bind (Scheduler.atThread_moves _) fun _ => ?_
  refine moves_bind moves_get fun s => moves_bind (moves_modify fun _ => rfl) fun _ => ?_
  exact moves_bind (moves_modify fun _ => rfl) fun _ => moves_modify fun _ => rfl

/-- A stack comes from pages that were not mapped, and its top is a multiple of 16. -/
theorem mmapAlloc_stack {m m' : Memory} {stack : ℕ}
    (h : Memory.mmapAlloc kWorkerStack ucProtRw "thread stack" m = .ok stack m') :
    maskDown (add64 stack kWorkerStack) 16 = (stack + kWorkerStack) % 2 ^ 64 ∧
      m'.engine.reg = m.engine.reg ∧
      ∀ a, stack ≤ a → a < stack + kWorkerStack → ¬m.engine.Mapped a ∧ m'.engine.Mapped a := by
  obtain ⟨base, size, hsize, -, ⟨-, err, herror⟩ | ⟨-, hmappable, hok⟩⟩ :=
    Memory.mmapAlloc_cases kWorkerStack ucProtRw "thread stack" m
  · cases h.symm.trans herror
  · obtain ⟨rfl, rfl⟩ := EStateM.Result.ok.inj (h.symm.trans hok)
    obtain rfl : size = kWorkerStack := hsize.trans (by decide)
    have haligned : stack % kPageSize = 0 := hmappable.2.1
    refine ⟨?_, rfl, fun a hle hlt => ⟨hmappable.not_mapped ⟨hle, hlt⟩, ?_⟩⟩
    · have hmask := maskDown_two_pow (k := 4) (by omega)
        (Nat.mod_lt (stack + kWorkerStack) (by decide : 2 ^ 64 > 0))
      rw [show (2 : ℕ) ^ 4 = 16 from rfl] at hmask
      rw [add64, hmask]
      simp only [kPageSize, kWorkerStack] at *
      omega
    · have hsize : kWorkerStack % kPageSize = 0 := by decide
      exact (Engine.mapped_mapPages haligned hsize).mpr (.inl ⟨hle, hlt⟩)

/-- The context of a worker is as its birth asks for. -/
theorem starts_worker (outPtr routine arg : ℕ) {stack : ℕ} {m : Memory}
    (h : Memory.mmapAlloc kWorkerStack ucProtRw "thread stack" s.mem = .ok stack m) :
    Birth.Starts ⟨arg, s.mem.engine, (final (Scheduler.spawn outPtr routine arg s)).mem.engine⟩
      (Scheduler.worker { s with mem := m } stack routine arg).ctx.words := by
  obtain ⟨htop, hregs, hpages⟩ := mmapAlloc_stack h
  have hprot : (final (Scheduler.spawn outPtr routine arg s)).mem.engine.prot = m.engine.prot := by
    rw [Scheduler.spawn_ok h]
    exact announce_sameProt outPtr s.nextTid _
  refine ⟨rfl, rfl, ?_, stack, ?_, fun a hle hlt => ?_⟩
  · change m.engine.reg .arm64TpidrEl0 % 2 ^ 64 = _
    rw [hregs]
  · change maskDown (add64 stack kWorkerStack) 16 % 2 ^ 64 = _
    rw [htop, Nat.mod_mod]
  · obtain ⟨hbefore, hafter⟩ := hpages a hle hlt
    refine ⟨hbefore, ?_⟩
    rw [Engine.Mapped, hprot]
    exact hafter

/-- The thread that a call of `spawn` left under the next id is its worker. -/
theorem spawn_worker (hs : s.InSlice) (outPtr routine arg : ℕ) :
    s.nextTid < (final (Scheduler.spawn outPtr routine arg s)).nextTid ∧
      ∀ t ∈ (final (Scheduler.spawn outPtr routine arg s)).threads, t.tid = s.nextTid →
        Birth.Starts
          ⟨arg, s.mem.engine, (final (Scheduler.spawn outPtr routine arg s)).mem.engine⟩
          t.ctx.words := by
  cases h : Memory.mmapAlloc kWorkerStack ucProtRw "thread stack" s.mem with
  | error err m =>
    rw [Scheduler.spawn_error h]
    refine ⟨Nat.lt_succ_self _, fun t ht htid => ?_⟩
    have hlt := hs.distinct.lt_nextTid t ht
    omega
  | ok stack m =>
    have hstarts := starts_worker outPtr routine arg h
    set t := Scheduler.worker { s with mem := m } stack routine arg with ht
    rw [Scheduler.spawn_ok h, ← ht] at hstarts ⊢
    have hadd : s.Evolves (s.addThread m t) := hs.distinct.evolves_addThread m rfl rfl
    have htail : (s.addThread m t).Evolves
        (final (Scheduler.announce outPtr s.nextTid (s.addThread m t))) :=
      Scheduler.announce_moves Scheduler.evolvesInSlice_primitive outPtr s.nextTid _
        (hadd.inSlice hs)
    refine ⟨htail.nextTid, fun u hu hutid => ?_⟩
    have hmem : t ∈ (s.addThread m t).threads := by
      rw [hs.distinct.threads_addThread m rfl]
      simp
    obtain ⟨t', ht', hkept⟩ := htail.kept t hmem
    have heq := htail.distinct.eq_of_tid_eq hu ht' (hutid.trans hkept.tid.symm)
    rw [heq, hkept.ctx]
    exact hstarts

/-! ## Steps and runs -/

variable {r r' : Recorded} {act : Act}

theorem nextBorn_of_lt {tid : ℕ} (h : tid < r.world.sched.nextTid) :
    r.nextBorn cfg act tid = r.born tid := by
  unfold nextBorn
  split
  · exact Function.update_of_ne (Nat.ne_of_lt h) ..
  · rfl

theorem nextLast_of_ne (h : act ≠ .sliceEnd) : r.nextLast act = r.last := by
  unfold nextLast
  split
  · exact absurd rfl h
  · rfl

/-- A call keeps the contexts of the threads there are, and creates one as its birth asks for. -/
theorem Faithful.reached (h : Faithful r.world.sched r.last r.born) (hsound : r.world.Sound)
    (hphase : r.world.phase = .slice) (cfg : SchedConfig) (act : Act) :
    Faithful (r.world.reached cfg act) r.last (r.nextBorn cfg act) := by
  have hevolves := hsound.evolves_reached hphase cfg act
  have hslice := (hsound.slice hphase).1
  refine ⟨fun t' ht' c hc => ?_, fun t' ht' hnone b hb => ?_, fun tid htid => ?_⟩
  · rcases hevolves.origin t' ht' with ⟨t, ht, hkept⟩ | ⟨hnew, -⟩
    · rw [hkept.ctx]
      exact h.resumes t ht c (by rw [← hkept.tid]; exact hc)
    · rw [(h.fresh t'.tid hnew).1] at hc
      cases hc
  · rcases hevolves.origin t' ht' with ⟨t, ht, hkept⟩ | ⟨hnew, -⟩
    · rw [hkept.tid] at hnone hb
      rw [nextBorn_of_lt (hslice.distinct.lt_nextTid t ht)] at hb
      rw [hkept.ctx]
      exact h.starts t ht hnone b hb
    · unfold nextBorn at hb
      split at hb
      · rename_i outPtr routine arg
        by_cases htid : t'.tid = r.world.sched.nextTid
        · rw [htid, Function.update_self] at hb
          obtain rfl := Option.some.inj hb
          exact (spawn_worker hslice outPtr routine arg).2 t' ht' htid
        · rw [Function.update_of_ne htid, (h.fresh t'.tid hnew).2] at hb
          cases hb
      · rw [(h.fresh t'.tid hnew).2] at hb
        cases hb
  · refine ⟨(h.fresh tid (hevolves.nextTid.trans htid)).1, ?_⟩
    unfold nextBorn
    split
    · rename_i outPtr routine arg
      have hlt : r.world.sched.nextTid < tid :=
        Nat.lt_of_lt_of_le (spawn_worker hslice outPtr routine arg).1 htid
      rw [Function.update_of_ne (Nat.ne_of_gt hlt)]
      exact (h.fresh tid hlt.le).2
    · exact (h.fresh tid (hevolves.nextTid.trans htid)).2

/-- Saving the running thread agrees with recording its register file. -/
theorem Faithful.saved (h : Faithful s last born) (hs : s.InSlice) (hvregs : cfg.noVregs = false)
    (state : ThreadState) :
    Faithful (s.saved cfg state) (Function.update last s.cur (some s.mem.engine.registers))
      born := by
  refine ⟨fun u hu c hc => ?_, fun u hu hnone b hb => ?_, fun tid htid => ?_⟩
  · obtain ⟨t, ht, ⟨hcur, rfl⟩ | ⟨hcur, rfl⟩⟩ := Scheduler.mem_setCurrent.mp hu
    · have hc : Function.update last s.cur (some s.mem.engine.registers) t.tid = some c := hc
      rw [hcur, Function.update_self] at hc
      rw [← Option.some.inj hc]
      simp [Engine.saveCtx, hvregs, Engine.registers]
    · rw [Function.update_of_ne hcur] at hc
      exact h.resumes u ht c hc
  · obtain ⟨t, ht, ⟨hcur, rfl⟩ | ⟨hcur, rfl⟩⟩ := Scheduler.mem_setCurrent.mp hu
    · have hnone : Function.update last s.cur (some s.mem.engine.registers) t.tid = none := hnone
      rw [hcur, Function.update_self] at hnone
      cases hnone
    · rw [Function.update_of_ne hcur] at hnone
      exact h.starts u ht hnone b hb
  · obtain ⟨t, ht, hcur, -⟩ := hs.current
    have hlt := hs.distinct.lt_nextTid t ht
    have hne : tid ≠ s.cur := by
      have : s.nextTid ≤ tid := htid
      omega
    rw [Function.update_of_ne hne]
    exact h.fresh tid htid

theorem Faithful.finish (h : Faithful s last born) (rv : ℕ) :
    Faithful (s.finish rv) last born := by
  refine h.of_ctx (fun u hu => ?_) le_rfl
  obtain ⟨t, ht, ⟨-, rfl⟩ | ⟨-, -, rfl⟩ | ⟨-, -, rfl⟩⟩ := Scheduler.mem_finish.mp hu
  · exact ⟨t, ht, rfl, rfl⟩
  · exact ⟨t, ht, rfl, rfl⟩
  · exact ⟨u, ht, rfl, rfl⟩

/-- The invariant of a run in progress. -/
structure Consistent (r : Recorded) : Prop where
  sound : r.world.Sound
  faithful : r.world.phase = .choosing ∨ r.world.phase = .slice →
    Faithful r.world.sched r.last r.born

theorem Consistent.step (hvregs : cfg.noVregs = false) (h : r.Consistent)
    (hstep : r.step cfg act = some r') : r'.Consistent := by
  obtain ⟨w, hw, rfl⟩ := Option.map_eq_some_iff.mp hstep
  refine ⟨h.sound.step hw, fun hphase' => ?_⟩
  cases h.sound.outcome hw with
  | started hphase ht hstate =>
    exact (h.faithful (.inl hphase)).of_ctx (fun t ht => ⟨t, ht, rfl, rfl⟩) le_rfl
  | running _ m hphase hpick hend hthrows =>
    rw [nextLast_of_ne hend]
    exact ((h.faithful (.inr hphase)).reached h.sound hphase cfg act).of_ctx
      (fun t ht => ⟨t, ht, rfl, rfl⟩) le_rfl
  | saved hphase hreturned hstate =>
    have hleaves : Leaves r.world.sched := by
      by_contra hnot
      simp only [Leaves, not_or, not_not] at hnot
      exact hreturned hnot
    have hsaved := (h.faithful (.inr hphase)).saved (h.sound.slice hphase).1 hvregs
    simp only [nextLast, if_pos hleaves]
    exact (hsaved _).of_ctx (fun t ht => ⟨t, ht, rfl, rfl⟩) le_rfl
  | finished running hphase hfinishes hcan hnext =>
    have hlast : r.nextLast act = r.last := by
      rcases hfinishes with ⟨rfl, ⟨hblock, hyield, hpc⟩, -⟩ | ⟨hthrows, -⟩
      · simp [nextLast, Leaves, hblock, hyield, hpc]
      · refine nextLast_of_ne ?_
        rintro rfl
        exact hthrows
    rw [hlast]
    have hreached := (h.faithful (.inr hphase)).reached h.sound hphase cfg act
    exact (hreached.finish _).of_ctx (fun t ht => ⟨t, ht, rfl, rfl⟩) le_rfl
  | stuck => rcases hphase' with hphase' | hphase' <;> cases hphase'
  | failed => rcases hphase' with hphase' | hphase' <;> cases hphase'

theorem consistent_start (cfg : SchedConfig) (fn : ℕ) (args : List ℕ) (sched : Scheduler) :
    (start cfg fn args sched).Consistent :=
  ⟨World.sound_start cfg fn args sched, fun _ => ⟨nofun, nofun, fun _ _ => ⟨rfl, rfl⟩⟩⟩

/-- Loading a context makes it the register file. -/
theorem registers_loadCtx (hvregs : cfg.noVregs = false) (e : Engine) (c : Context) :
    ((e.loadCtx cfg.noVregs c).writeUcReg .arm64Pc c.pc).registers = c.words := by
  simp [Engine.registers, Engine.loadCtx, Engine.writeUcReg, Function.update, hvregs, UcReg.bits,
    Context.words]

/-- After every run, a thread that is picked again starts its slice with the register file it had at
the end of its last one, and a spawned thread starts its first slice as its birth asks for. -/
theorem pick_restores (cfg : SchedConfig) (hvregs : cfg.noVregs = false) (fn : ℕ) (args : List ℕ)
    (sched : Scheduler) (acts : List Act) (r r' : Recorded)
    (hrun : acts.foldlM (step cfg) (start cfg fn args sched) = some r)
    (hpick : r.step cfg .pick = some r') (hslice : r'.world.phase = .slice) :
    (∀ c, r.last r'.world.sched.cur = some c → r'.world.sched.mem.engine.registers = c) ∧
      (r.last r'.world.sched.cur = none → ∀ b, r.born r'.world.sched.cur = some b →
        b.Starts r'.world.sched.mem.engine.registers) := by
  have hconsistent : r.Consistent := foldlM_keeps (fun _ _ _ h hstep => h.step hvregs hstep)
    (consistent_start cfg fn args sched) hrun
  obtain ⟨w, hw, rfl⟩ := Option.map_eq_some_iff.mp hpick
  cases hconsistent.sound.outcome hw with
  | @started t rr hphase ht hstate =>
    have hfaithful := hconsistent.faithful (.inl hphase)
    have hregisters : (r.world.sched.started cfg t rr).mem.engine.registers = t.ctx.words :=
      registers_loadCtx hvregs _ _
    simp only [hregisters]
    exact ⟨hfaithful.resumes t ht, hfaithful.starts t ht⟩
  | running _ _ _ hne => exact absurd rfl hne
  | finished _ hphase => cases hphase.symm.trans (World.step_pick hw).1
  | stuck => cases hslice
  | failed => cases hslice

/-- The main thread spawns a worker, which yields; the next thread that is picked resumes. -/
theorem pick_restores_after_yield :
    let sched := Scheduler.init (Memory.init .arm64 false false) true
    let acts : List Act := [.pick, .call (.spawn 0 0x6000 5), .sliceEnd, .pick, .call .doYield,
      .sliceEnd]
    ∃ r r' c, acts.foldlM (step {}) (start {} 0x4000 [7] sched) = some r ∧
      r.step {} .pick = some r' ∧ r.last r'.world.sched.cur = some c ∧
      r'.world.sched.mem.engine.registers = c := by
  intro sched acts
  have hreaches : (acts.foldlM (step {}) (start {} 0x4000 [7] sched)).any (fun r =>
      (r.step {} .pick).any fun r' =>
        r'.world.phase = .slice && (r.last r'.world.sched.cur).isSome) = true := by
    decide +kernel
  obtain ⟨r, hrun, hr⟩ := (Option.any_eq_true _ _).mp hreaches
  obtain ⟨r', hpick, hr'⟩ := (Option.any_eq_true _ _).mp hr
  simp only [Bool.and_eq_true, decide_eq_true_eq] at hr'
  obtain ⟨hslice, hlast⟩ := hr'
  obtain ⟨c, hc⟩ := Option.isSome_iff_exists.mp hlast
  refine ⟨r, r', c, hrun, hpick, hc, ?_⟩
  exact (pick_restores {} rfl 0x4000 [7] sched acts r r' hrun hpick hslice).1 c hc

end Recorded

end Vardoger
