import Vardoger.Android.ThreadStubs
import Vardoger.Engine.Contexts

/-!
# Workers without a scheduler

Without a running scheduler, `pthread_create` enters the routine in place of its caller, and a stub
that the routine returns to gives the caller its registers back. The callers of the workers that run
are on a stack, and for each depth there is a stack area that is used again. A run is a tree: in
a worker, other workers are created and return.
-/

namespace Vardoger

open Stateful Words LittleEndian Patches

/-- The registers `X19` to `X30`, which a call preserves. -/
theorem savedReg_lt (i : Fin 12) : 19 + i.val < 31 := by omega

namespace Stubs

open Process

/-- The last part of `createInline`, which enters the routine. -/
def launch (depth routine arg : ℕ) : StubM Unit := do
  writeReg .a0 arg
  writeReg .sp (maskDown (add64 ((← get).stubs.workerStacks.getD depth 0) kWorkerStack) 16)
  writeReg .lr (← get).stubs.threadReturnStub
  redirect routine

/-- The part of `createInline` behind the id of the worker. -/
def enterWorker (tid routine arg : ℕ) : StubM Unit := do
  let retLr ← readReg .lr
  let sp ← readReg .sp
  let e := (← get).engine
  let saved : Fin 12 → ℕ := fun i => e.readUcReg (.arm64X ⟨19 + i.val, savedReg_lt i⟩)
  let depth := (← get).stubs.threadCtx.length
  growStacks (depth + 1 - (← get).stubs.workerStacks.length)
  modifyStubs fun s => { s with threadCtx := s.threadCtx ++ [{ tid, retLr, sp, saved }] }
  launch depth routine arg

theorem createInline_eq (out routine arg : ℕ) {p : Process} (habi : p.engine.abi = .arm64) :
    createInline out routine arg p =
      (do
        if out ≠ 0 then
          writeT 8 out p.stubs.nextTid
        enterWorker p.stubs.nextTid routine arg)
        { p with stubs := { p.stubs with nextTid := p.stubs.nextTid + 1 } } := by
  rw [createInline, get_bind, if_neg (by simp [habi])]
  rfl

theorem writeReg_withEngine {p : Process} {e : Engine} {r : Reg} {i : UcReg} (habi : e.abi = .arm64)
    (hr : regId .arm64 r = .ok i) (v : ℕ) :
    writeReg r v (p.withEngine e) = .ok () (p.withEngine (e.writeUcReg i v)) :=
  writeReg_arm64 (p := p.withEngine e) habi hr v

theorem launch_eq {p : Process} (habi : p.engine.abi = .arm64) (depth routine arg : ℕ) :
    launch depth routine arg p = .ok () (p.withEngine ((((p.engine.writeUcReg (.arm64X 0)
      arg).writeUcReg .arm64Sp (maskDown (add64 (p.stubs.workerStacks.getD depth 0) kWorkerStack)
        16)).writeUcReg (.arm64X 30) p.stubs.threadReturnStub).writeUcReg .arm64Pc routine)) := by
  have ha0 : writeReg .a0 arg p = .ok () (p.withEngine (p.engine.writeUcReg (.arm64X 0) arg)) :=
    writeReg_arm64 habi rfl arg
  set e₁ := p.engine.writeUcReg (.arm64X 0) arg
  have he₁ : e₁.abi = .arm64 := habi
  rw [launch, bind_ok ha0, get_bind, bind_ok (writeReg_withEngine (r := .sp) he₁ rfl _), get_bind]
  set e₂ := e₁.writeUcReg .arm64Sp _
  have he₂ : e₂.abi = .arm64 := habi
  rw [bind_ok (writeReg_withEngine (r := .lr) he₂ rfl _)]
  set e₃ := e₂.writeUcReg (.arm64X 30) _
  exact redirect_eq (p := p.withEngine e₃) habi routine

end Stubs

/-! ## Runs -/

/-- The addresses of a worker stack. -/
def OnStack (base a : ℕ) : Prop := base ≤ a ∧ a < base + kWorkerStack

/-- What the guest and the other stubs do: they may change registers and memory and map more of it,
but not what the stubs know of the workers. -/
structure Between (p q : Process) : Prop where
  nextTid : q.stubs.nextTid = p.stubs.nextTid
  threadCtx : q.stubs.threadCtx = p.stubs.threadCtx
  threadResults : q.stubs.threadResults = p.stubs.threadResults
  workerStacks : q.stubs.workerStacks = p.stubs.workerStacks
  running : q.sched.running = p.sched.running
  abi : q.engine.abi = p.engine.abi
  words : ∀ r, q.engine.reg r < 2 ^ r.bits
  mapped : ∀ a, p.engine.Mapped a → q.engine.Mapped a

/-- A call of `pthread_create`: the process at the call, at the start of the routine, when the
routine returns, and when the call does. -/
structure Creation where
  before : Process
  started : Process
  returned : Process
  after : Process

/-- The id of the worker. -/
def Creation.tid (c : Creation) : ℕ := c.before.stubs.nextTid

/-- A stretch of a run at one depth, with all workers created in it, the nested ones among them. -/
inductive Nested : Process → List Creation → Process → Prop
  | start (p : Process) : Nested p [] p
  | between {p q r : Process} {log : List Creation} : Nested p log q → Between q r → Nested p log r
  | create {p : Process} {log inner : List Creation} (c : Creation) : Nested p log c.before →
      Stubs.pthreadCreate c.before = .ok () c.started → Nested c.started inner c.returned →
      Stubs.pthreadWorkerReturn c.returned = .ok () c.after → Nested p (log ++ c :: inner) c.after

/-- A run up to any state, also one in workers that have not returned yet, with the workers that
have. -/
inductive Inside (p : Process) : List Creation → Process → Prop
  | start : Inside p [] p
  | nested {q r : Process} {log inner : List Creation} :
      Inside p log q → Nested q inner r → Inside p (log ++ inner) r
  | enter {q r : Process} {log : List Creation} :
      Inside p log q → Stubs.pthreadCreate q = .ok () r → Inside p log r

/-! ## Stacks -/

/-- The worker stacks are mapped, apart from each other and from the stack of the main thread. -/
structure Pool (main : ℕ → Prop) (p : Process) : Prop where
  idle : p.sched.running = false
  abi : p.engine.abi = .arm64
  words : ∀ r, p.engine.reg r < 2 ^ r.bits
  mainMapped : ∀ a, main a → p.engine.Mapped a
  areas : ∀ b ∈ p.stubs.workerStacks,
    maskDown (add64 b kWorkerStack) 16 = (b + kWorkerStack) % 2 ^ 64 ∧
      ∀ a, OnStack b a → p.engine.Mapped a ∧ ¬main a
  apart : p.stubs.workerStacks.Pairwise fun b b' => ∀ a, OnStack b a → ¬OnStack b' a

theorem Pool.between {main : ℕ → Prop} {p q : Process} (hp : Pool main p) (h : Between p q) :
    Pool main q where
  idle := h.running.trans hp.idle
  abi := h.abi.trans hp.abi
  words := h.words
  mainMapped a ha := h.mapped a (hp.mainMapped a ha)
  areas b hb := by
    rw [h.workerStacks] at hb
    obtain ⟨htop, hmapped⟩ := hp.areas b hb
    exact ⟨htop, fun a ha => ⟨h.mapped a (hmapped a ha).1, (hmapped a ha).2⟩⟩
  apart := by
    rw [h.workerStacks]
    exact hp.apart

/-- A new stack leaves what is mapped as it is. -/
theorem mmapAlloc_mapped {m m' : Memory} {stack : ℕ}
    (h : Memory.mmapAlloc kWorkerStack ucProtRw "thread stack" m = .ok stack m') :
    m'.engine.abi = m.engine.abi ∧
      ∀ a, m.engine.Mapped a → m'.engine.Mapped a ∧ m'.engine.byte a = m.engine.byte a := by
  obtain ⟨base, size, -, -, ⟨-, err, herror⟩ | ⟨-, hmappable, hok⟩⟩ :=
    Memory.mmapAlloc_cases kWorkerStack ucProtRw "thread stack" m
  · cases h.symm.trans herror
  · obtain ⟨rfl, rfl⟩ := EStateM.Result.ok.inj (h.symm.trans hok)
    refine ⟨rfl, fun a ha => ⟨?_, ?_⟩⟩
    · exact (Engine.mapped_mapPages hmappable.2.1 hmappable.2.2.1).mpr (.inr ha)
    · exact if_neg fun hin => hmappable.not_mapped hin ha

theorem of_growStacks_ok {main : ℕ → Prop} {n : ℕ} {p q : Process} (hp : Pool main p)
    (h : Stubs.growStacks n p = .ok () q) :
    Pool main q ∧ (∃ more, more.length = n ∧
      q.stubs = { p.stubs with workerStacks := p.stubs.workerStacks ++ more }) ∧
      q.engine.reg = p.engine.reg ∧
      ∀ a, p.engine.Mapped a → q.engine.byte a = p.engine.byte a := by
  induction n generalizing p with
  | zero =>
    obtain ⟨-, rfl⟩ := EStateM.Result.ok.inj h
    exact ⟨hp, ⟨[], rfl, by simp⟩, rfl, fun _ _ => rfl⟩
  | succ n ih =>
    rw [Stubs.growStacks] at h
    cases hm : Memory.mmapAlloc kWorkerStack ucProtRw "thread stack" p.sched.mem with
    | error err m =>
      rw [bind_error (Process.onMem_error hm)] at h
      cases h
    | ok base m =>
      rw [bind_ok (Process.onMem_ok hm), Process.modifyStubs, modify_bind] at h
      obtain ⟨htop, hregs, hpages⟩ := Recorded.mmapAlloc_stack hm
      obtain ⟨habi, hmapped⟩ := mmapAlloc_mapped hm
      have hpool : Pool main ⟨{ p.sched with mem := m },
          { p.stubs with workerStacks := p.stubs.workerStacks ++ [base] }⟩ := by
        refine ⟨hp.idle, habi.trans hp.abi, ?_, ?_, ?_, ?_⟩
        · intro r
          change m.engine.reg r < _
          rw [hregs]
          exact hp.words r
        · exact fun a ha => (hmapped a (hp.mainMapped a ha)).1
        · intro b hb
          rcases List.mem_append.mp hb with hb | hb
          · obtain ⟨hbtop, hb⟩ := hp.areas b hb
            exact ⟨hbtop, fun a ha => ⟨(hmapped a (hb a ha).1).1, (hb a ha).2⟩⟩
          · obtain rfl := List.mem_singleton.mp hb
            refine ⟨htop, fun a ha => ⟨(hpages a ha.1 ha.2).2, fun hmain => ?_⟩⟩
            exact (hpages a ha.1 ha.2).1 (hp.mainMapped a hmain)
        · refine List.pairwise_append.mpr ⟨hp.apart, List.pairwise_singleton _ _, ?_⟩
          intro b hb b' hb' a ha ha'
          obtain rfl := List.mem_singleton.mp hb'
          exact (hpages a ha'.1 ha'.2).1 ((hp.areas b hb).2 a ha).1
      obtain ⟨hq, ⟨more, hlength, hstubs⟩, hreg, hbyte⟩ := ih hpool h
      refine ⟨hq, ⟨base :: more, by simp [hlength], ?_⟩, hreg.trans hregs, fun a ha => ?_⟩
      · rw [hstubs]
        simp
      · exact (hbyte a (hmapped a ha).1).trans (hmapped a ha).2

/-! ## The start of a worker -/

section Start

variable {main : ℕ → Prop} {p q : Process}

theorem reg_writeUcReg_of_ne (e : Engine) (v : ℕ) {i j : UcReg} (h : j ≠ i) :
    (e.writeUcReg i v).reg j = e.reg j :=
  Function.update_of_ne h ..

theorem reg_writeUcReg (e : Engine) (i : UcReg) (v : ℕ) :
    (e.writeUcReg i v).reg i = v % 2 ^ i.bits :=
  Function.update_self ..

theorem words_writeUcReg {e : Engine} (h : ∀ r, e.reg r < 2 ^ r.bits) (i : UcReg) (v : ℕ)
    (r : UcReg) : (e.writeUcReg i v).reg r < 2 ^ r.bits := by
  by_cases hr : r = i
  · subst hr
    rw [reg_writeUcReg]
    exact Nat.mod_lt _ (Nat.two_pow_pos _)
  · rw [reg_writeUcReg_of_ne e v hr]
    exact h r

/-- The registers with which a routine is entered. -/
theorem reg_launched (e : Engine) (arg top ret pc : ℕ) :
    let e' := (((e.writeUcReg (.arm64X 0) arg).writeUcReg .arm64Sp top).writeUcReg (.arm64X 30)
      ret).writeUcReg .arm64Pc pc
    e'.reg .arm64Sp = top % 2 ^ 64 ∧ e'.reg .arm64Pc = pc % 2 ^ 64 ∧
      e'.reg (.arm64X 0) = arg % 2 ^ 64 ∧ e'.reg (.arm64X 30) = ret % 2 ^ 64 := by
  have h30 : UcReg.arm64X 0 ≠ .arm64X 30 := by decide
  refine ⟨?_, ?_, ?_, ?_⟩
  · rw [reg_writeUcReg_of_ne _ _ (by simp), reg_writeUcReg_of_ne _ _ (by simp), reg_writeUcReg]
    rfl
  · exact reg_writeUcReg _ _ _
  · rw [reg_writeUcReg_of_ne _ _ (by simp), reg_writeUcReg_of_ne _ _ h30,
      reg_writeUcReg_of_ne _ _ (by simp), reg_writeUcReg]
    rfl
  · rw [reg_writeUcReg_of_ne _ _ (by simp), reg_writeUcReg]
    rfl

/-- Other registers keep the stacks. -/
theorem Pool.writeUcReg (hp : Pool main p) (i : UcReg) (v : ℕ) :
    Pool main (p.withEngine (p.engine.writeUcReg i v)) :=
  ⟨hp.idle, hp.abi, words_writeUcReg hp.words i v, hp.mainMapped, hp.areas, hp.apart⟩

/-- What the caller of `pthread_create` gets back. -/
def callerCtx (p : Process) (tid : ℕ) : Stubs.ThreadCtx :=
  ⟨tid, p.engine.reg (.arm64X 30), p.engine.reg .arm64Sp,
    fun i => p.engine.reg (.arm64X ⟨19 + i.val, savedReg_lt i⟩)⟩

/-- A worker is entered on the stack of its depth. -/
structure Entered (main : ℕ → Prop) (tid routine arg : ℕ) (p q : Process) : Prop where
  pool : Pool main q
  stubs : ∃ more, q.stubs = { p.stubs with
    workerStacks := p.stubs.workerStacks ++ more
    threadCtx := p.stubs.threadCtx ++ [callerCtx p tid] }
  sp : ∃ base, q.stubs.workerStacks[p.stubs.threadCtx.length]? = some base ∧
    q.engine.reg .arm64Sp = (base + kWorkerStack) % 2 ^ 64
  pc : q.engine.reg .arm64Pc = routine % 2 ^ 64
  arg : q.engine.reg (.arm64X 0) = arg % 2 ^ 64
  lr : q.engine.reg (.arm64X 30) = p.stubs.threadReturnStub % 2 ^ 64
  byte : ∀ a, p.engine.Mapped a → q.engine.byte a = p.engine.byte a

theorem of_enterWorker_ok {tid routine arg : ℕ} (hp : Pool main p)
    (h : Stubs.enterWorker tid routine arg p = .ok () q) : Entered main tid routine arg p q := by
  rw [Stubs.enterWorker, bind_ok (Process.readReg_arm64 (r := .lr) hp.abi rfl),
    bind_ok (Process.readReg_arm64 (r := .sp) hp.abi rfl), get_bind] at h
  dsimp only at h
  rw [get_bind, get_bind] at h
  obtain ⟨⟨⟩, p₁, hgrow, h⟩ := of_bind_ok h
  obtain ⟨hpool, ⟨more, hlength, hstubs⟩, hreg, hbyte⟩ := of_growStacks_ok hp hgrow
  rw [Process.modifyStubs, modify_bind] at h
  set p₂ : Process := { p₁ with stubs := { p₁.stubs with
    threadCtx := p₁.stubs.threadCtx ++ [callerCtx p tid] } } with hp₂
  have hpool₂ : Pool main p₂ :=
    ⟨hpool.idle, hpool.abi, hpool.words, hpool.mainMapped, hpool.areas, hpool.apart⟩
  have h : Stubs.launch p.stubs.threadCtx.length routine arg p₂ = .ok () q := h
  rw [Stubs.launch_eq hpool₂.abi] at h
  obtain ⟨-, rfl⟩ := EStateM.Result.ok.inj h
  have hdepth : p.stubs.threadCtx.length < p₂.stubs.workerStacks.length := by
    change _ < p₁.stubs.workerStacks.length
    rw [hstubs, List.length_append, hlength]
    omega
  set base := p₂.stubs.workerStacks[p.stubs.threadCtx.length]
  have hbase : p₂.stubs.workerStacks[p.stubs.threadCtx.length]? = some base :=
    List.getElem?_eq_getElem hdepth
  obtain ⟨htop, -⟩ := hpool₂.areas base (List.getElem_mem hdepth)
  obtain ⟨hsp, hpc, harg, hlr⟩ := reg_launched p₂.engine arg (maskDown (add64
    (p₂.stubs.workerStacks.getD p.stubs.threadCtx.length 0) kWorkerStack) 16)
    p₂.stubs.threadReturnStub routine
  rw [List.getD_eq_getElem?_getD, hbase, Option.getD_some, htop, Nat.mod_mod] at hsp
  have hret : p₂.stubs.threadReturnStub = p.stubs.threadReturnStub := by simp only [hp₂, hstubs]
  refine ⟨?_, ⟨more, ?_⟩, ⟨base, hbase, ?_⟩, hpc, harg, hret ▸ hlr, hbyte⟩
  · exact (((hpool₂.writeUcReg _ _).writeUcReg _ _).writeUcReg _ _).writeUcReg _ _
  · change p₂.stubs = _
    simp only [hp₂, hstubs]
  · rw [List.getD_eq_getElem?_getD, hbase, Option.getD_some, htop]
    exact hsp

/-- The worker gets an id of its own, which the caller learns, and the caller is remembered. -/
structure Created (main : ℕ → Prop) (p q : Process) : Prop where
  pool : Pool main q
  nextTid : q.stubs.nextTid = p.stubs.nextTid + 1
  results : q.stubs.threadResults = p.stubs.threadResults
  ctx : q.stubs.threadCtx = p.stubs.threadCtx ++ [callerCtx p p.stubs.nextTid]
  grown : p.stubs.workerStacks <+: q.stubs.workerStacks
  sp : ∃ base, q.stubs.workerStacks[p.stubs.threadCtx.length]? = some base ∧
    q.engine.reg .arm64Sp = (base + kWorkerStack) % 2 ^ 64
  pc : q.engine.reg .arm64Pc = p.engine.reg (.arm64X 2)
  arg : q.engine.reg (.arm64X 0) = p.engine.reg (.arm64X 3)
  lr : q.engine.reg (.arm64X 30) = p.stubs.threadReturnStub % 2 ^ 64
  out : p.engine.reg (.arm64X 0) ≠ 0 →
    slice q.engine.byte (p.engine.reg (.arm64X 0)) 8 = toBytes 8 p.stubs.nextTid

theorem on_eq (hp : Pool main p) : Stubs.on p = .ok false p := by
  rw [Stubs.on, get_bind, hp.idle]
  rfl

theorem of_pthreadCreate_ok (hp : Pool main p) (h : Stubs.pthreadCreate p = .ok () q) :
    Created main p q := by
  rw [Stubs.pthreadCreate, bind_ok (Process.readReg_arm64 (r := .a0) hp.abi rfl),
    bind_ok (Process.readReg_arm64 (r := .a2) hp.abi rfl),
    bind_ok (Process.readReg_arm64 (r := .a3) hp.abi rfl), bind_ok (on_eq hp), if_neg Bool.false_ne_true,
    Stubs.createInline_eq _ _ _ hp.abi] at h
  set p₁ : Process := { p with stubs := { p.stubs with nextTid := p.stubs.nextTid + 1 } }
  have hp₁ : Pool main p₁ := ⟨hp.idle, hp.abi, hp.words, hp.mainMapped, hp.areas, hp.apart⟩
  have hfinish {e : Engine} (he : Pool main (p₁.withEngine e)) (hreg : e.reg = p.engine.reg)
      (hrun : Stubs.enterWorker p.stubs.nextTid (p.engine.reg (.arm64X 2))
        (p.engine.reg (.arm64X 3)) (p₁.withEngine e) = .ok () q)
      (hout : p.engine.reg (.arm64X 0) ≠ 0 → e.Accessible (p.engine.reg (.arm64X 0)) 8 ∧
        slice e.byte (p.engine.reg (.arm64X 0)) 8 = toBytes 8 p.stubs.nextTid) :
      Created main p q := by
    obtain ⟨hpool, ⟨more, hstubs⟩, hsp, hpc, harg, hlr, hbyte⟩ := of_enterWorker_ok he hrun
    have hctx : callerCtx (p₁.withEngine e) p.stubs.nextTid = callerCtx p p.stubs.nextTid := by
      simp only [callerCtx, Process.engine_withEngine, hreg]
    refine ⟨hpool, by rw [hstubs]; rfl, by rw [hstubs]; rfl, ?_, ?_, hsp, ?_, ?_, hlr, ?_⟩
    · rw [hstubs, ← hctx]
      rfl
    · rw [hstubs]
      exact List.prefix_append _ _
    · exact hpc.trans (Nat.mod_eq_of_lt (hp.words (.arm64X 2)))
    · exact harg.trans (Nat.mod_eq_of_lt (hp.words (.arm64X 3)))
    · intro hne
      obtain ⟨haccess, hslice⟩ := hout hne
      rw [← hslice]
      exact slice_congr fun i hi => hbyte _ (haccess.2 i hi)
  dsimp only at h
  by_cases hout : p.engine.reg (.arm64X 0) = 0
  · rw [if_neg (not_not.mpr hout)] at h
    exact hfinish (e := p.engine) hp₁ rfl h fun hne => absurd hout hne
  · rw [if_pos hout] at h
    by_cases haccess : p₁.engine.Accessible (p.engine.reg (.arm64X 0)) 8
    · rw [bind_ok (Process.writeT_eq haccess _)] at h
      set x := toBytes 8 p.stubs.nextTid
      have hput := Engine.slice_setBytes_toBytes p.engine (p.engine.reg (.arm64X 0)) 8
        p.stubs.nextTid
      have hset : Pool main (p₁.withEngine (p₁.engine.setBytes (p.engine.reg (.arm64X 0)) x)) :=
        ⟨hp.idle, hp.abi, hp.words, hp.mainMapped, hp.areas, hp.apart⟩
      exact hfinish hset rfl h fun _ => ⟨haccess, hput⟩
    · rw [bind_error (Process.writeT_error haccess _)] at h
      cases h

/-! ## The return of a worker -/

/-- Write saved registers back. -/
def restored (saved : Fin 12 → ℕ) (l : List (Fin 12)) (e : Engine) : Engine :=
  l.foldl (fun e i => e.writeUcReg (.arm64X ⟨19 + i.val, savedReg_lt i⟩) (saved i)) e

theorem reg_restored (saved : Fin 12 → ℕ) (l : List (Fin 12)) (e : Engine) (i : Fin 12) :
    (restored saved l e).reg (.arm64X ⟨19 + i.val, savedReg_lt i⟩) =
      if i ∈ l then saved i % 2 ^ 64 else e.reg (.arm64X ⟨19 + i.val, savedReg_lt i⟩) := by
  induction l generalizing e with
  | nil => rfl
  | cons j l ih =>
    rw [restored, List.foldl_cons]
    refine (ih _).trans ?_
    by_cases hl : i ∈ l
    · rw [if_pos hl, if_pos (List.mem_cons_of_mem _ hl)]
    · rw [if_neg hl]
      by_cases hij : i = j
      · subst hij
        rw [if_pos (by simp)]
        exact Function.update_self ..
      · rw [if_neg (by simp [hl, hij])]
        refine reg_writeUcReg_of_ne e _ fun heq => hij ?_
        have hval : 19 + i.val = 19 + j.val := congrArg Fin.val (UcReg.arm64X.inj heq)
        omega

theorem Pool.restored (hp : Pool main p) (saved : Fin 12 → ℕ) (l : List (Fin 12)) :
    Pool main (p.withEngine (restored saved l p.engine)) := by
  induction l generalizing p with
  | nil => exact hp
  | cons i l ih => exact ih (hp.writeUcReg (.arm64X ⟨19 + i.val, savedReg_lt i⟩) (saved i))

theorem onMem_restored (saved : Fin 12 → ℕ) (l : List (Fin 12)) (p : Process) :
    Process.onMem (modify fun m => { m with
      engine := l.foldl
        (fun e i => e.writeUcReg (.arm64X ⟨19 + i.val, savedReg_lt i⟩) (saved i)) m.engine }) p =
      .ok () (p.withEngine (restored saved l p.engine)) := rfl

theorem of_pthreadWorkerReturn_ok {cs : List Stubs.ThreadCtx} {ctx : Stubs.ThreadCtx}
    (hp : Pool main p) (hctx : p.stubs.threadCtx = cs ++ [ctx])
    (h : Stubs.pthreadWorkerReturn p = .ok () q) :
    Pool main q ∧ q.stubs = { p.stubs with
        threadCtx := cs
        threadResults :=
          Function.update p.stubs.threadResults ctx.tid (some (p.engine.reg (.arm64X 0))) } ∧
      q.engine.reg (.arm64X 0) = 0 ∧ q.engine.reg .arm64Pc = ctx.retLr % 2 ^ 64 ∧
      q.engine.reg .arm64Sp = ctx.sp % 2 ^ 64 ∧
      ∀ i : Fin 12, q.engine.reg (.arm64X ⟨19 + i.val, savedReg_lt i⟩) = ctx.saved i % 2 ^ 64 := by
  rw [Stubs.pthreadWorkerReturn, get_bind, hctx, List.getLast?_concat] at h
  dsimp only at h
  rw [Process.modifyStubs, modify_bind] at h
  set p₁ : Process := ⟨p.sched, { p.stubs with threadCtx := p.stubs.threadCtx.dropLast }⟩
  have hread : Process.readReg .ret0 p₁ = .ok (p.engine.reg (.arm64X 0)) p₁ :=
    Process.readReg_arm64 (p := p₁) hp.abi rfl
  rw [bind_ok hread, Process.modifyStubs, modify_bind] at h
  set p₂ : Process := ⟨p.sched, { p₁.stubs with
    threadResults :=
      Function.update p₁.stubs.threadResults ctx.tid (some (p.engine.reg (.arm64X 0))) }⟩
  have hpool : Pool main p₂ := ⟨hp.idle, hp.abi, hp.words, hp.mainMapped, hp.areas, hp.apart⟩
  have hpool := hpool.restored ctx.saved (List.finRange 12)
  rw [bind_ok (onMem_restored ctx.saved (List.finRange 12) p₂)] at h
  obtain ⟨e, he⟩ : ∃ e, e = restored ctx.saved (List.finRange 12) p₂.engine := ⟨_, rfl⟩
  rw [← he] at h hpool
  have habi : e.abi = .arm64 := hpool.abi
  rw [bind_ok (Stubs.writeReg_withEngine (r := .sp) habi rfl ctx.sp)] at h
  have habi₁ : (e.writeUcReg .arm64Sp ctx.sp).abi = .arm64 := habi
  rw [bind_ok (Stubs.writeReg_withEngine (r := .ret0) habi₁ rfl 0)] at h
  have hq := Process.redirect_eq
    (p := p₂.withEngine ((e.writeUcReg .arm64Sp ctx.sp).writeUcReg (.arm64X 0) 0)) habi ctx.retLr
  obtain ⟨-, rfl⟩ := EStateM.Result.ok.inj (hq.symm.trans h)
  have hlast : p.stubs.threadCtx.dropLast = cs := by rw [hctx, List.dropLast_concat]
  refine ⟨((hpool.writeUcReg _ _).writeUcReg _ _).writeUcReg _ _, ?_, rfl, rfl, rfl, fun i => ?_⟩
  · rw [← hlast]
    rfl
  · have hne : (UcReg.arm64X ⟨19 + i.val, savedReg_lt i⟩) ≠ .arm64X 0 := by
      intro heq
      have hval : 19 + i.val = 0 := congrArg Fin.val (UcReg.arm64X.inj heq)
      omega
    have hreg : e.reg (.arm64X ⟨19 + i.val, savedReg_lt i⟩) = ctx.saved i % 2 ^ 64 := by
      rw [he, reg_restored, if_pos (List.mem_finRange i)]
    refine Eq.trans ?_ hreg
    have hpc := reg_writeUcReg_of_ne ((e.writeUcReg .arm64Sp ctx.sp).writeUcReg (.arm64X 0) 0)
      ctx.retLr (show UcReg.arm64X ⟨19 + i.val, savedReg_lt i⟩ ≠ .arm64Pc by simp)
    have hx0 := reg_writeUcReg_of_ne (e.writeUcReg .arm64Sp ctx.sp) 0 hne
    have hsp := reg_writeUcReg_of_ne e ctx.sp
      (show UcReg.arm64X ⟨19 + i.val, savedReg_lt i⟩ ≠ .arm64Sp by simp)
    exact (hpc.trans hx0).trans hsp

end Start

/-! ## Whole runs -/

/-- The stacks of the workers that run. -/
def inUse (p : Process) : List ℕ := p.stubs.workerStacks.take p.stubs.threadCtx.length

/-- A call of `pthread_create` is a call of the routine on a stack of its own. -/
structure Creation.Right (main : ℕ → Prop) (c : Creation) : Prop where
  ret : c.after.engine.reg (.arm64X 0) = 0
  pc : c.after.engine.reg .arm64Pc = c.before.engine.reg (.arm64X 30)
  sp : c.after.engine.reg .arm64Sp = c.before.engine.reg .arm64Sp
  saved : ∀ i : Fin 12, c.after.engine.reg (.arm64X ⟨19 + i.val, savedReg_lt i⟩) =
    c.before.engine.reg (.arm64X ⟨19 + i.val, savedReg_lt i⟩)
  routine : c.started.engine.reg .arm64Pc = c.before.engine.reg (.arm64X 2)
  arg : c.started.engine.reg (.arm64X 0) = c.before.engine.reg (.arm64X 3)
  lr : c.started.engine.reg (.arm64X 30) = c.before.stubs.threadReturnStub % 2 ^ 64
  out : c.before.engine.reg (.arm64X 0) ≠ 0 →
    slice c.started.engine.byte (c.before.engine.reg (.arm64X 0)) 8 = toBytes 8 c.tid
  stack : ∃ base, inUse c.started = inUse c.before ++ [base] ∧
    c.started.engine.reg .arm64Sp = (base + kWorkerStack) % 2 ^ 64 ∧
    ∀ a, OnStack base a → c.started.engine.Mapped a ∧ ¬main a ∧ ∀ b ∈ inUse c.before, ¬OnStack b a
  returned : inUse c.returned = inUse c.started
  after : inUse c.after = inUse c.before

/-- What a run with a log of returned workers keeps. -/
structure Logged (main : ℕ → Prop) (p : Process) (log : List Creation) (q : Process) : Prop where
  pool : Pool main q
  deep : q.stubs.threadCtx.length ≤ q.stubs.workerStacks.length
  grown : p.stubs.workerStacks <+: q.stubs.workerStacks
  nextTid : p.stubs.nextTid ≤ q.stubs.nextTid
  tids : ∀ c ∈ log, p.stubs.nextTid ≤ c.tid ∧ c.tid < q.stubs.nextTid
  nodup : (log.map Creation.tid).Nodup
  old : ∀ t < p.stubs.nextTid, q.stubs.threadResults t = p.stubs.threadResults t
  results : ∀ c ∈ log, q.stubs.threadResults c.tid = some (c.returned.engine.reg (.arm64X 0))
  right : ∀ c ∈ log, c.Right main

section Runs

variable {main : ℕ → Prop} {p q r : Process} {log inner : List Creation}

theorem Logged.start (hp : Pool main p)
    (hdeep : p.stubs.threadCtx.length ≤ p.stubs.workerStacks.length) : Logged main p [] p :=
  ⟨hp, hdeep, List.prefix_refl _, le_rfl, by simp, by simp, fun _ _ => rfl, by simp, by simp⟩

theorem Logged.trans (h : Logged main p log q) (h' : Logged main q inner r) :
    Logged main p (log ++ inner) r where
  pool := h'.pool
  deep := h'.deep
  grown := h.grown.trans h'.grown
  nextTid := h.nextTid.trans h'.nextTid
  tids c hc := by
    rcases List.mem_append.mp hc with hc | hc
    · exact ⟨(h.tids c hc).1, (h.tids c hc).2.trans_le h'.nextTid⟩
    · exact ⟨h.nextTid.trans (h'.tids c hc).1, (h'.tids c hc).2⟩
  nodup := by
    rw [List.map_append]
    refine h.nodup.append h'.nodup fun t ht ht' => ?_
    obtain ⟨c, hc, rfl⟩ := List.mem_map.mp ht
    obtain ⟨c', hc', heq⟩ := List.mem_map.mp ht'
    have hlt := (h.tids c hc).2
    have hle := (h'.tids c' hc').1
    omega
  old t ht := (h'.old t (ht.trans_le h.nextTid)).trans (h.old t ht)
  results c hc := by
    rcases List.mem_append.mp hc with hc | hc
    · exact (h'.old c.tid (h.tids c hc).2).trans (h.results c hc)
    · exact h'.results c hc
  right c hc := (List.mem_append.mp hc).elim (h.right c) (h'.right c)

theorem Logged.between (h : Logged main p log q) (hr : Between q r) : Logged main p log r where
  pool := h.pool.between hr
  deep := by
    rw [hr.threadCtx, hr.workerStacks]
    exact h.deep
  grown := by
    rw [hr.workerStacks]
    exact h.grown
  nextTid := hr.nextTid ▸ h.nextTid
  tids := hr.nextTid ▸ h.tids
  nodup := h.nodup
  old := hr.threadResults ▸ h.old
  results := hr.threadResults ▸ h.results
  right := h.right

theorem Created.length_lt (h : Created main p q) :
    p.stubs.threadCtx.length < q.stubs.workerStacks.length := by
  obtain ⟨base, hbase, -⟩ := h.sp
  exact (List.getElem?_eq_some_iff.mp hbase).1

/-- The start of a worker that has not returned yet. -/
theorem Created.logged (h : Created main p q) : Logged main p [] q where
  pool := h.pool
  deep := by
    rw [h.ctx, List.length_append]
    exact h.length_lt
  grown := h.grown
  nextTid := by
    rw [h.nextTid]
    omega
  tids := by simp
  nodup := by simp
  old t _ := by rw [h.results]
  results := by simp
  right := by simp

/-- The stacks in use do not change when the pool grows. -/
theorem inUse_eq (hdeep : p.stubs.threadCtx.length ≤ p.stubs.workerStacks.length)
    (hgrown : p.stubs.workerStacks <+: q.stubs.workerStacks) :
    q.stubs.workerStacks.take p.stubs.threadCtx.length = inUse p := by
  obtain ⟨more, hmore⟩ := hgrown
  rw [← hmore, List.take_append_of_le_length hdeep]
  rfl

/-- A worker is on a stack that is not in use. -/
theorem Created.stack (h : Created main p q)
    (hdeep : p.stubs.threadCtx.length ≤ p.stubs.workerStacks.length) :
    ∃ base, inUse q = inUse p ++ [base] ∧ q.engine.reg .arm64Sp = (base + kWorkerStack) % 2 ^ 64 ∧
      ∀ a, OnStack base a → q.engine.Mapped a ∧ ¬main a ∧ ∀ b ∈ inUse p, ¬OnStack b a := by
  obtain ⟨base, hbase, hsp⟩ := h.sp
  have huse : inUse q = inUse p ++ [base] := by
    rw [inUse, h.ctx, List.length_append, List.length_singleton, List.take_add_one, hbase,
      inUse_eq hdeep h.grown]
    rfl
  have hapart : (inUse p ++ [base]).Pairwise fun b b' => ∀ a, OnStack b a → ¬OnStack b' a :=
    huse ▸ h.pool.apart.take
  refine ⟨base, huse, hsp, fun a ha => ?_⟩
  obtain ⟨hmapped, hmain⟩ := (h.pool.areas base (List.mem_of_getElem? hbase)).2 a ha
  refine ⟨hmapped, hmain, fun b hb hab => ?_⟩
  exact (List.pairwise_append.mp hapart).2.2 b hb base (List.mem_singleton_self _) a hab ha

/-- A call whose routine returns, with the workers created meanwhile. -/
theorem Logged.create {c : Creation} (hp : Pool main c.before)
    (hdeep : c.before.stubs.threadCtx.length ≤ c.before.stubs.workerStacks.length)
    (hstart : Created main c.before c.started) (h : Logged main c.started inner c.returned)
    (hctx : c.returned.stubs.threadCtx = c.started.stubs.threadCtx)
    (hreturn : Stubs.pthreadWorkerReturn c.returned = .ok () c.after) :
    Logged main c.before (c :: inner) c.after ∧
      c.after.stubs.threadCtx = c.before.stubs.threadCtx := by
  have htop := hctx.trans hstart.ctx
  obtain ⟨hpool, hstubs, hret, hpc, hsp, hsaved⟩ := of_pthreadWorkerReturn_ok h.pool htop hreturn
  have hctx' : c.after.stubs.threadCtx = c.before.stubs.threadCtx := by rw [hstubs]
  have hstacks : c.after.stubs.workerStacks = c.returned.stubs.workerStacks := by rw [hstubs]
  have hnext : c.after.stubs.nextTid = c.returned.stubs.nextTid := by rw [hstubs]
  have hresults : c.after.stubs.threadResults = Function.update c.returned.stubs.threadResults
      c.tid (some (c.returned.engine.reg (.arm64X 0))) := by
    rw [hstubs]
    rfl
  have hgrown : c.before.stubs.workerStacks <+: c.after.stubs.workerStacks :=
    hstacks ▸ hstart.grown.trans h.grown
  have htid : c.tid < c.returned.stubs.nextTid := by
    have hle := h.nextTid
    rw [hstart.nextTid] at hle
    exact hle
  have hinner {d : Creation} (hd : d ∈ inner) : c.tid < d.tid := by
    have hle := (h.tids d hd).1
    rw [hstart.nextTid] at hle
    exact hle
  have hright : c.Right main :=
    { ret := hret
      pc := hpc.trans (Nat.mod_eq_of_lt (hp.words (.arm64X 30)))
      sp := hsp.trans (Nat.mod_eq_of_lt (hp.words .arm64Sp))
      saved := fun i => (hsaved i).trans (Nat.mod_eq_of_lt (hp.words (.arm64X ⟨19 + i.val, _⟩)))
      routine := hstart.pc
      arg := hstart.arg
      lr := hstart.lr
      out := hstart.out
      stack := hstart.stack hdeep
      returned := by
        rw [inUse, hctx]
        exact inUse_eq hstart.logged.deep h.grown
      after := by
        rw [inUse, hctx']
        exact inUse_eq hdeep hgrown }
  refine ⟨⟨hpool, ?_, hgrown, ?_, ?_, ?_, ?_, ?_, ?_⟩, hctx'⟩
  · rw [hctx']
    exact hdeep.trans hgrown.length_le
  · rw [hnext]
    exact htid.le
  · intro d hd
    rw [hnext]
    rcases List.mem_cons.mp hd with rfl | hd
    · exact ⟨le_rfl, htid⟩
    · exact ⟨(hinner hd).le, (h.tids d hd).2⟩
  · rw [List.map_cons, List.nodup_cons]
    refine ⟨fun hmem => ?_, h.nodup⟩
    obtain ⟨d, hd, heq⟩ := List.mem_map.mp hmem
    exact (hinner hd).ne heq.symm
  · intro t ht
    have hlt : t < c.started.stubs.nextTid := by
      rw [hstart.nextTid]
      omega
    have hne : t ≠ c.tid := ht.ne
    rw [hresults, Function.update_of_ne hne, h.old t hlt, hstart.results]
  · intro d hd
    rw [hresults]
    rcases List.mem_cons.mp hd with rfl | hd
    · exact Function.update_self ..
    · rw [Function.update_of_ne (hinner hd).ne', h.results d hd]
  · intro d hd
    rcases List.mem_cons.mp hd with rfl | hd
    · exact hright
    · exact h.right d hd

/-- By induction on the tree of calls: a stretch of a run ends at the depth it began at. -/
theorem Nested.logged (h : Nested p log q) (hp : Pool main p)
    (hdeep : p.stubs.threadCtx.length ≤ p.stubs.workerStacks.length) :
    Logged main p log q ∧ q.stubs.threadCtx = p.stubs.threadCtx := by
  induction h with
  | start p => exact ⟨.start hp hdeep, rfl⟩
  | between _ hr ih =>
    obtain ⟨hlogged, hctx⟩ := ih hp hdeep
    exact ⟨hlogged.between hr, hr.threadCtx.trans hctx⟩
  | create c _ hcreate _ hreturn ih ihInner =>
    obtain ⟨hlogged, hctx⟩ := ih hp hdeep
    have hstart := of_pthreadCreate_ok hlogged.pool hcreate
    obtain ⟨hinner, hinnerCtx⟩ := ihInner hstart.pool hstart.logged.deep
    obtain ⟨hcall, hcallCtx⟩ :=
      Logged.create hlogged.pool hlogged.deep hstart hinner hinnerCtx hreturn
    exact ⟨hlogged.trans hcall, hcallCtx.trans hctx⟩

theorem Inside.logged (h : Inside p log q) (hp : Pool main p)
    (hdeep : p.stubs.threadCtx.length ≤ p.stubs.workerStacks.length) : Logged main p log q := by
  induction h with
  | start => exact .start hp hdeep
  | nested _ hnested ih => exact ih.trans (hnested.logged ih.pool ih.deep).1
  | enter _ hcreate ih =>
    have hlogged := ih.trans (of_pthreadCreate_ok ih.pool hcreate).logged
    rwa [List.append_nil] at hlogged

/-- A join delivers the result of a worker that has returned. -/
theorem pthreadJoin_eq {v : ℕ} (hp : Pool main p)
    (hresult : p.stubs.threadResults (p.engine.reg (.arm64X 0)) = some v)
    (hout : p.engine.reg (.arm64X 1) ≠ 0 → p.engine.Accessible (p.engine.reg (.arm64X 1)) 8) :
    ∃ q, Stubs.pthreadJoin p = .ok () q ∧ q.engine.reg (.arm64X 0) = 0 ∧
      (p.engine.reg (.arm64X 1) ≠ 0 →
        slice q.engine.byte (p.engine.reg (.arm64X 1)) 8 = toBytes 8 v) := by
  have hzero {e : Engine} (he : e.abi = .arm64) : Process.writeReg .ret0 0 (p.withEngine e) =
      .ok () (p.withEngine (e.writeUcReg (.arm64X 0) 0)) := Stubs.writeReg_withEngine he rfl 0
  rw [Stubs.pthreadJoin, bind_ok (Process.readReg_arm64 (r := .a0) hp.abi rfl),
    bind_ok (Process.readReg_arm64 (r := .a1) hp.abi rfl), bind_ok (on_eq hp),
    if_neg Bool.false_ne_true, Stubs.joinInline]
  by_cases hne : p.engine.reg (.arm64X 1) = 0
  · rw [if_neg (not_not.mpr hne)]
    exact ⟨_, hzero (e := p.engine) hp.abi, rfl, fun h => absurd hne h⟩
  · rw [if_pos hne, get_bind, hresult, bind_ok (Process.writeT_eq (hout hne) _)]
    set x := toBytes 8 v
    refine ⟨_, hzero (e := p.engine.setBytes (p.engine.reg (.arm64X 1)) x) hp.abi, rfl, fun _ => ?_⟩
    exact Engine.slice_setBytes_toBytes p.engine (p.engine.reg (.arm64X 1)) 8 v

end Runs

/-- No worker runs yet, and the stack of the main thread is mapped. -/
structure NoWorkers (main : ℕ → Prop) (p : Process) : Prop where
  idle : p.sched.running = false
  abi : p.engine.abi = .arm64
  words : ∀ r, p.engine.reg r < 2 ^ r.bits
  mainMapped : ∀ a, main a → p.engine.Mapped a
  threadCtx : p.stubs.threadCtx = []
  workerStacks : p.stubs.workerStacks = []

theorem NoWorkers.pool {main : ℕ → Prop} {p : Process} (h : NoWorkers main p) : Pool main p :=
  ⟨h.idle, h.abi, h.words, h.mainMapped, by simp [h.workerStacks], by simp [h.workerStacks]⟩

/-- Without a scheduler, each worker that returned has run on a stack of its own, its creator went
on as after a call, and a join of its id delivers its result. -/
theorem pthread_create_nests {main : ℕ → Prop} {p q : Process} {log : List Creation}
    (hp : NoWorkers main p) (h : Inside p log q) :
    (log.map Creation.tid).Nodup ∧ ∀ c ∈ log, c.Right main ∧
      (q.engine.reg (.arm64X 0) = c.tid →
        (q.engine.reg (.arm64X 1) ≠ 0 → q.engine.Accessible (q.engine.reg (.arm64X 1)) 8) →
        ∃ r, Stubs.pthreadJoin q = .ok () r ∧ r.engine.reg (.arm64X 0) = 0 ∧
          (q.engine.reg (.arm64X 1) ≠ 0 → slice r.engine.byte (q.engine.reg (.arm64X 1)) 8 =
            toBytes 8 (c.returned.engine.reg (.arm64X 0)))) := by
  have hlogged := h.logged hp.pool (by simp [hp.threadCtx])
  refine ⟨hlogged.nodup, fun c hc => ⟨hlogged.right c hc, fun htid hout => ?_⟩⟩
  exact pthreadJoin_eq hlogged.pool (htid ▸ hlogged.results c hc) hout

/-- The main thread creates a worker, which creates another one, and both return at once. -/
theorem pthread_create_nests_twice :
    let p : Process := ⟨.init (.init .arm64 false false) true, {}⟩
    ∃ (log : List Creation) (q : Process), log.length = 2 ∧ NoWorkers (fun _ => False) p ∧
      Inside p log q ∧ (log.map Creation.tid).Nodup ∧ ∀ c ∈ log, c.Right fun _ => False := by
  intro p
  have hnone : NoWorkers (fun _ => False) p :=
    ⟨rfl, rfl, fun r => Nat.two_pow_pos _, fun _ h => h.elim, rfl, rfl⟩
  have hreturns : (EStateM.run' (do
      Stubs.pthreadCreate; Stubs.pthreadCreate
      Stubs.pthreadWorkerReturn; Stubs.pthreadWorkerReturn : StubM Unit) p).isSome := by
    decide +kernel
  delta EStateM.run' EStateM.run at hreturns
  split at hreturns
  · obtain ⟨⟨⟩, s₁, hcreate₁, h⟩ := of_bind_ok ‹_›
    obtain ⟨⟨⟩, s₂, hcreate₂, h⟩ := of_bind_ok h
    obtain ⟨⟨⟩, s₃, hreturn₁, hreturn₂⟩ := of_bind_ok h
    have hinner := Nested.create ⟨s₁, s₂, s₂, s₃⟩ (.start s₁) hcreate₂ (.start s₂) hreturn₁
    have hrun := Nested.create ⟨p, s₁, s₃, _⟩ (.start p) hcreate₁ hinner hreturn₂
    have hinside := Inside.nested .start hrun
    obtain ⟨hnodup, hright⟩ := pthread_create_nests hnone hinside
    exact ⟨_, _, rfl, hnone, hinside, hnodup, fun c hc => (hright c hc).1⟩
  · cases hreturns

end Vardoger
