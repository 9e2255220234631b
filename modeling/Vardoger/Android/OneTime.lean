import Vardoger.Android.ThreadStubs
import Vardoger.Base.Runs

/-!
# One-time initialisation

`pthread_once` marks its control word before it goes to the initialiser, and the guard of a static
variable is marked only when the initialiser is done. Neither stub waits. Beside a run we keep which
thread has entered which initialiser and who is still inside. The promise of both stubs, one
thread enters and all others wait for it, is kept exactly as long as no thread calls one while
another thread is inside the same initialiser.
-/

namespace Vardoger

open Stateful Runs

/-- The control word of `pthread_once` or the guard of a static variable, at its address. -/
inductive Control
  | once (addr : ℕ)
  | guard (addr : ℕ)
  deriving DecidableEq, Repr

namespace Control

/-- The value the stubs test, if the memory is mapped. -/
def word (e : Engine) : Control → Option ℕ
  | .once addr =>
      if e.Accessible addr 4 then some (LittleEndian.ofBytes (Patches.slice e.byte addr 4))
      else none
  | .guard addr =>
      if e.Accessible addr 1 then some (LittleEndian.ofBytes (Patches.slice e.byte addr 1))
      else none

/-- The word says that there is nothing to do. -/
def Marked (e : Engine) (c : Control) : Prop := ∃ v ∈ c.word e, v ≠ 0

instance (e : Engine) (c : Control) : Decidable (c.Marked e) :=
  inferInstanceAs (Decidable (∃ v ∈ c.word e, v ≠ 0))

end Control

/-- A run with a record of the initialisers: who has entered them, and who is inside. -/
structure InitRecord where
  run : GuestRun
  entered : List (Control × ℕ)
  inside : List (Control × ℕ)

/-- An event of the run, or the running thread returns from the initialiser of a control word. -/
inductive InitEvent
  | event (ev : Event)
  | returns (addr : ℕ)

namespace InitRecord

def cur (r : InitRecord) : ℕ := r.run.world.sched.cur

def engine (r : InitRecord) : Engine := r.run.process.engine

/-- The control that the running thread calls a stub with. -/
def onceArg (r : InitRecord) : Control := .once (r.engine.reg (.arm64X 0))

def guardArg (r : InitRecord) : Control := .guard (r.engine.reg (.arm64X 0))

/-- The running thread enters an initialiser. -/
def enter (r : InitRecord) (c : Control) : InitRecord :=
  { r with entered := (c, r.cur) :: r.entered, inside := (c, r.cur) :: r.inside }

/-- The initialiser of the running thread is complete. -/
def leave (r : InitRecord) (c : Control) : InitRecord :=
  { r with inside := r.inside.filter (· ≠ (c, r.cur)) }

/-- What a stub returns to the running thread, unless it throws. -/
def result (r : InitRecord) (call : StubCall) : Option ℕ :=
  match call.run r.run.process with
  | .ok _ p => some (p.engine.reg (.arm64X 0))
  | .error _ _ => none

/-- The control of a call. -/
def control (r : InitRecord) : StubCall → Option Control
  | .once => some r.onceArg
  | .guardAcquire | .guardRelease => some r.guardArg
  | _ => none

/-- The stub goes to the initialiser, or tells the running thread to initialise. -/
def Enters (r : InitRecord) : StubCall → Prop
  | .once => r.onceArg.word r.engine = some 0
  | .guardAcquire => r.result .guardAcquire = some 1
  | _ => False

/-- The stub returns, and the running thread takes the initialisation for done. -/
def Passes (r : InitRecord) : StubCall → Prop
  | .once => r.onceArg.Marked r.engine
  | .guardAcquire => r.result .guardAcquire = some 0
  | _ => False

instance (r : InitRecord) : (call : StubCall) → Decidable (r.Enters call)
  | .once => inferInstanceAs (Decidable (_ = some 0))
  | .guardAcquire => inferInstanceAs (Decidable (_ = some 1))
  | .keyCreate | .setspecific | .getspecific | .guardRelease | .guardAbort
  | .dlIterate | .dlReturn => isFalse id

/-- The record after an event. -/
def record (r : InitRecord) (g : GuestRun) : Event → InitRecord
  | .stub .guardRelease =>
      { if (r.guardArg.word r.engine).isSome then r.leave r.guardArg else r with run := g }
  | .stub call =>
      match r.control call with
      | some c => { if r.Enters call then r.enter c else r with run := g }
      | none => { r with run := g }
  | .act _ => { r with run := g }

def step (cfg : SchedConfig) (r : InitRecord) : InitEvent → Option InitRecord
  | .event ev => (r.run.step cfg ev).map fun g => r.record g ev
  | .returns addr =>
      if r.run.Going ∧ (.once addr, r.cur) ∈ r.inside then some (r.leave (.once addr)) else none

def start (cfg : SchedConfig) (fn : ℕ) (args : List ℕ) (p : Process) : InitRecord :=
  ⟨.start cfg fn args p, [], []⟩

/-! ## What is promised, and when -/

/-- Whoever enters an initialiser is the only thread that ever does, and whoever passes by it finds
no other thread inside. -/
def OneTime (r : InitRecord) : InitEvent → Prop
  | .event (.stub call) => ∀ c ∈ r.control call,
      (r.Enters call → ∀ x ∈ r.entered, x.1 = c → x.2 = r.cur) ∧
        (r.Passes call → ∀ x ∈ r.inside, x.1 = c → x.2 = r.cur)
  | _ => True

/-- No thread calls `pthread_once` or `__cxa_guard_acquire` with a mapped control while another
thread is inside its initialiser. -/
def Uncontended (r : InitRecord) : InitEvent → Prop
  | .event (.stub call) => (call = .once ∨ call = .guardAcquire) → ∀ c ∈ r.control call,
      (c.word r.engine).isSome → ∀ x ∈ r.inside, x.1 = c → x.2 = r.cur
  | _ => True

/-- The guest is an ARM64 one, leaves no initialiser by an exception, and clears no control of an
initialiser that was entered. -/
def Regular (cfg : SchedConfig) (r : InitRecord) : InitEvent → Prop
  | .event ev =>
      (ev ≠ .stub .guardAbort ∧ r.engine.abi = .arm64) ∧
        ∀ r' ∈ r.step cfg (.event ev), ∀ x ∈ r.entered, x.1.Marked r.engine → x.1.Marked r'.engine
  | .returns _ => True

instance (call : StubCall) : (ev : Event) → Decidable (ev = .stub call)
  | .stub _ => decidable_of_iff _ (Event.stub.injEq _ _).symm.to_iff
  | .act _ => isFalse nofun

instance (r : InitRecord) : (call : StubCall) → Decidable (r.Passes call)
  | .once => inferInstanceAs (Decidable (Control.Marked _ _))
  | .guardAcquire => inferInstanceAs (Decidable (_ = some 0))
  | .keyCreate | .setspecific | .getspecific | .guardRelease | .guardAbort
  | .dlIterate | .dlReturn => isFalse id

instance (r : InitRecord) : (ev : InitEvent) → Decidable (r.OneTime ev)
  | .event (.stub _) => inferInstanceAs (Decidable (∀ _ ∈ _, _ ∧ _))
  | .event (.act _) | .returns _ => isTrue trivial

instance (cfg : SchedConfig) (r : InitRecord) : (ev : InitEvent) → Decidable (r.Regular cfg ev)
  | .event _ => inferInstanceAs (Decidable ((¬_ ∧ _) ∧ ∀ _ ∈ _, ∀ _ ∈ _, _ → _))
  | .returns _ => isTrue trivial

/-- Who is inside has entered; who has entered and left has left a mark, and `pthread_once` leaves
one at once. -/
structure Consistent (r : InitRecord) : Prop where
  entered : ∀ x ∈ r.inside, x ∈ r.entered
  marked : ∀ x ∈ r.entered, ∀ addr, x.1 = .once addr → x.1.Marked r.engine
  left : ∀ x ∈ r.entered, x.1.Marked r.engine ∨ x ∈ r.inside

theorem consistent_start (cfg : SchedConfig) (fn : ℕ) (args : List ℕ) (p : Process) :
    (start cfg fn args p).Consistent := ⟨nofun, nofun, nofun⟩

/-! ## The stubs -/

section Stubs

open Process

variable {p : Process}

theorem word_once_eq {e : Engine} {addr : ℕ} (h : e.Accessible addr 4) :
    (Control.once addr).word e = some (LittleEndian.ofBytes (Patches.slice e.byte addr 4)) :=
  if_pos h

/-- The stub marks the control word and goes to the initialiser. -/
theorem pthreadOnce_enters (habi : p.engine.abi = .arm64)
    (hword : (Control.once (p.engine.reg (.arm64X 0))).word p.engine = some 0) :
    ∃ p', Stubs.pthreadOnce p = .ok () p' ∧
      (Control.once (p.engine.reg (.arm64X 0))).word p'.engine = some 2 := by
  have haccess : p.engine.Accessible (p.engine.reg (.arm64X 0)) 4 := by
    by_contra hnot
    rw [Control.word, if_neg hnot] at hword
    cases hword
  have hzero := Option.some.inj ((word_once_eq haccess).symm.trans hword)
  have honce : readReg .a0 p = .ok (p.engine.reg (.arm64X 0)) p := readReg_arm64 habi rfl
  have hinit : readReg .a1 p = .ok (p.engine.reg (.arm64X 1)) p := readReg_arm64 habi rfl
  refine ⟨_, by rw [Stubs.pthreadOnce, bind_ok honce, bind_ok hinit, bind_ok (readT_eq haccess),
    if_pos hzero, bind_ok (writeT_eq haccess 2), redirect_eq (by exact habi)], ?_⟩
  have hslice := Engine.slice_setBytes_toBytes p.engine (p.engine.reg (.arm64X 0)) 4 2
  refine (word_once_eq (by exact haccess)).trans ?_
  exact congrArg (fun x => some (LittleEndian.ofBytes x)) hslice

theorem word_guard_eq {e : Engine} {addr : ℕ} (h : e.Accessible addr 1) :
    (Control.guard addr).word e = some (LittleEndian.ofBytes (Patches.slice e.byte addr 1)) :=
  if_pos h

/-- The stub reports whether the guard is clear. -/
theorem result_guardAcquire {r : InitRecord} (habi : r.engine.abi = .arm64) :
    r.result .guardAcquire = (r.guardArg.word r.engine).map fun v => if v = 0 then 1 else 0 := by
  set p := r.run.process with hp
  have habi' : p.engine.abi = .arm64 := habi
  have hguard : readReg .a0 p = .ok (p.engine.reg (.arm64X 0)) p := readReg_arm64 habi' rfl
  by_cases haccess : p.engine.Accessible (p.engine.reg (.arm64X 0)) 1
  · have hword : r.guardArg.word r.engine = _ := word_guard_eq haccess
    have hrun (f : ℕ → StubM Unit) : (readReg .a0 >>= fun g => readT 1 g >>= f) p =
        f (LittleEndian.ofBytes (Patches.slice p.engine.byte (p.engine.reg (.arm64X 0)) 1)) p := by
      rw [bind_ok hguard, bind_ok (readT_eq haccess)]
    have hwrite (v : ℕ) : writeReg .ret0 v p = _ :=
      writeReg_arm64 (i := .arm64X 0) habi' rfl v
    rw [hword, Option.map_some, result, StubCall.run, ← hp, Stubs.cxaGuardAcquire, hrun, hwrite]
    simp only [Process.engine, Process.withEngine, Engine.writeUcReg, Function.update_self]
    have hlt (q : Prop) [Decidable q] : (if q then 1 else 0) < 2 ^ 64 := by
      by_cases hq : q <;> simp [hq]
    exact congrArg some (Nat.mod_eq_of_lt (hlt _))
  · have hword : r.guardArg.word r.engine = none := if_neg haccess
    rw [hword, result, StubCall.run, ← hp, Stubs.cxaGuardAcquire, bind_ok hguard,
      bind_error (readT_error haccess)]
    rfl

/-- The stub marks the guard. -/
theorem cxaGuardRelease_marks (habi : p.engine.abi = .arm64)
    (hword : ((Control.guard (p.engine.reg (.arm64X 0))).word p.engine).isSome) :
    ∃ p', Stubs.cxaGuardRelease p = .ok () p' ∧
      (Control.guard (p.engine.reg (.arm64X 0))).word p'.engine = some 1 := by
  have haccess : p.engine.Accessible (p.engine.reg (.arm64X 0)) 1 := by
    by_contra hnot
    rw [Control.word, if_neg hnot] at hword
    cases hword
  have hguard : readReg .a0 p = .ok (p.engine.reg (.arm64X 0)) p := readReg_arm64 habi rfl
  refine ⟨_, by rw [Stubs.cxaGuardRelease, bind_ok hguard, writeT_eq haccess 1], ?_⟩
  have hslice := Engine.slice_setBytes_toBytes p.engine (p.engine.reg (.arm64X 0)) 1 1
  refine (word_guard_eq (by exact haccess)).trans ?_
  exact congrArg (fun x => some (LittleEndian.ofBytes x)) hslice

end Stubs

/-! ## Runs -/

variable {cfg : SchedConfig} {r r' : InitRecord} {ev : Event}

/-- The engine after a stub that returns. -/
theorem engine_of_step {call : StubCall} {p : Process}
    (hstep : r.step cfg (.event (.stub call)) = some r')
    (hrun : call.run r.run.process = .ok () p) :
    r'.engine = p.engine := by
  obtain ⟨g, hg, rfl⟩ := Option.map_eq_some_iff.mp hstep
  have hengine : g.process.engine = p.engine := by
    obtain ⟨-, ⟨u, p', hrun', rfl⟩ | ⟨err, p', hrun', -⟩⟩ := GuestRun.step_stub hg
    · obtain ⟨-, rfl⟩ := EStateM.Result.ok.inj (hrun.symm.trans hrun')
      rfl
    · cases hrun.symm.trans hrun'
  have hrecord : (r.record g (.stub call)).run = g := by
    cases call <;> rfl
  rw [engine, hrecord, hengine]

theorem Consistent.of_same (h : r.Consistent) (hentered : r'.entered = r.entered)
    (hinside : r'.inside = r.inside)
    (hkeeps : ∀ x ∈ r.entered, x.1.Marked r.engine → x.1.Marked r'.engine) : r'.Consistent := by
  constructor
  · rw [hentered, hinside]
    exact h.entered
  · rw [hentered]
    exact fun x hx addr haddr => hkeeps x hx (h.marked x hx addr haddr)
  · rw [hentered, hinside]
    exact fun x hx => (h.left x hx).imp_left (hkeeps x hx)

/-- Entering keeps the record consistent, if `pthread_once` marks its word. -/
theorem Consistent.enter (h : r.Consistent) {c : Control}
    (hentered : r'.entered = (c, r.cur) :: r.entered) (hinside : r'.inside = (c, r.cur) :: r.inside)
    (hkeeps : ∀ x ∈ r.entered, x.1.Marked r.engine → x.1.Marked r'.engine)
    (hmarks : ∀ addr, c = .once addr → c.Marked r'.engine) : r'.Consistent := by
  constructor
  · intro x hx
    rw [hinside] at hx
    rw [hentered]
    rcases List.mem_cons.mp hx with rfl | hx
    · simp
    · exact List.mem_cons_of_mem _ (h.entered x hx)
  · intro x hx addr haddr
    rw [hentered] at hx
    rcases List.mem_cons.mp hx with rfl | hx
    · exact hmarks addr haddr
    · exact hkeeps x hx (h.marked x hx addr haddr)
  · intro x hx
    rw [hentered] at hx
    rw [hinside]
    rcases List.mem_cons.mp hx with rfl | hx
    · simp
    · exact (h.left x hx).imp (hkeeps x hx) (List.mem_cons_of_mem _)

/-- Leaving keeps the record consistent, if the control is marked then. -/
theorem Consistent.leave (h : r.Consistent) {c : Control} (hentered : r'.entered = r.entered)
    (hinside : r'.inside = r.inside.filter (· ≠ (c, r.cur)))
    (hkeeps : ∀ x ∈ r.entered, x.1.Marked r.engine → x.1.Marked r'.engine)
    (hmarks : (c, r.cur) ∈ r.entered → c.Marked r'.engine) : r'.Consistent := by
  constructor
  · intro x hx
    rw [hinside] at hx
    rw [hentered]
    exact h.entered x (List.mem_filter.mp hx).1
  · rw [hentered]
    exact fun x hx addr haddr => hkeeps x hx (h.marked x hx addr haddr)
  · intro x hx
    rw [hentered] at hx
    rw [hinside]
    by_cases hleaves : x = (c, r.cur)
    · subst hleaves
      exact .inl (hmarks hx)
    · refine (h.left x hx).imp (hkeeps x hx) fun hmem => List.mem_filter.mpr ⟨hmem, ?_⟩
      simpa using hleaves

/-- Every event of a regular run keeps the record consistent. -/
theorem Consistent.step (h : r.Consistent) {ev : InitEvent} (hregular : r.Regular cfg ev)
    (hstep : r.step cfg ev = some r') : r'.Consistent := by
  cases ev with
  | returns addr =>
    simp only [InitRecord.step] at hstep
    split at hstep
    · obtain rfl := Option.some.inj hstep
      obtain ⟨-, hinside⟩ := ‹_ ∧ _›
      exact h.leave rfl rfl (fun _ _ => id) fun hmem => h.marked _ hmem addr rfl
    · cases hstep
  | event ev =>
    obtain ⟨⟨habort, habi⟩, hkeeps⟩ := hregular
    have hkeeps := hkeeps r' hstep
    have hstep' := hstep
    obtain ⟨g, hg, rfl⟩ := Option.map_eq_some_iff.mp hstep'
    cases ev with
    | act act => exact h.of_same rfl rfl hkeeps
    | stub call =>
      cases call with
      | once =>
        by_cases henters : r.Enters .once
        · obtain ⟨p, hrun, hword⟩ := pthreadOnce_enters habi henters
          have hengine := engine_of_step hstep hrun
          refine h.enter (c := r.onceArg) ?_ ?_ hkeeps fun addr _ => ?_
          · simp only [record, control, if_pos henters, InitRecord.enter]
          · simp only [record, control, if_pos henters, InitRecord.enter]
          · rw [hengine]
            exact ⟨2, hword, by decide⟩
        · refine h.of_same ?_ ?_ hkeeps
          · simp only [record, control, if_neg henters]
          · simp only [record, control, if_neg henters]
      | guardAcquire =>
        by_cases henters : r.Enters .guardAcquire
        · refine h.enter (c := r.guardArg) ?_ ?_ hkeeps fun addr hguard => ?_
          · simp only [record, control, if_pos henters, InitRecord.enter]
          · simp only [record, control, if_pos henters, InitRecord.enter]
          · cases hguard
        · refine h.of_same ?_ ?_ hkeeps
          · simp only [record, control, if_neg henters]
          · simp only [record, control, if_neg henters]
      | guardRelease =>
        by_cases hmapped : (r.guardArg.word r.engine).isSome
        · obtain ⟨p, hrun, hword⟩ := cxaGuardRelease_marks habi hmapped
          have hengine := engine_of_step hstep hrun
          refine h.leave (c := r.guardArg) ?_ ?_ hkeeps fun _ => ?_
          · simp only [record, if_pos hmapped, InitRecord.leave]
          · simp only [record, if_pos hmapped, InitRecord.leave]
          · rw [hengine]
            exact ⟨1, hword, by decide⟩
        · refine h.of_same ?_ ?_ hkeeps
          · simp only [record, if_neg hmapped]
          · simp only [record, if_neg hmapped]
      | guardAbort => exact absurd rfl habort
      | keyCreate => exact h.of_same rfl rfl hkeeps
      | setspecific => exact h.of_same rfl rfl hkeeps
      | getspecific => exact h.of_same rfl rfl hkeeps
      | dlIterate => exact h.of_same rfl rfl hkeeps
      | dlReturn => exact h.of_same rfl rfl hkeeps

/-- A call of `pthread_once` is in order just if no other thread is inside the initialiser. -/
theorem Consistent.oneTime_once (h : r.Consistent) :
    r.OneTime (.event (.stub .once)) ↔ r.Uncontended (.event (.stub .once)) := by
  simp only [OneTime, Uncontended, control, Option.mem_def, Option.some.injEq, forall_eq', true_or,
    true_implies]
  cases hword : r.onceArg.word r.engine with
  | none =>
    have hmarked : ¬r.onceArg.Marked r.engine := by simp [Control.Marked, hword]
    simp [Enters, Passes, hword, hmarked]
  | some v =>
    by_cases hzero : v = 0
    · subst hzero
      -- The word is clear, so nobody has entered yet.
      have hmarked : ¬r.onceArg.Marked r.engine := by simp [Control.Marked, hword]
      have hnone : ∀ x ∈ r.entered, x.1 ≠ r.onceArg := fun x hx hc =>
        hmarked (hc ▸ h.marked x hx _ hc)
      refine iff_of_true ⟨fun _ x hx hc => absurd hc (hnone x hx), fun hp => absurd hp hmarked⟩ ?_
      exact fun _ x hx hc => absurd hc (hnone x (h.entered x hx))
    · have hmarked : r.onceArg.Marked r.engine := ⟨v, hword, hzero⟩
      have henters : ¬r.Enters .once := by simp [Enters, hword, hzero]
      exact ⟨fun hok _ => hok.2 hmarked, fun hfree =>
        ⟨fun he => absurd he henters, fun _ => hfree rfl⟩⟩

/-- A call of `__cxa_guard_acquire` is in order just if no other thread is inside the
initialiser. -/
theorem Consistent.oneTime_guardAcquire (h : r.Consistent) (habi : r.engine.abi = .arm64) :
    r.OneTime (.event (.stub .guardAcquire)) ↔ r.Uncontended (.event (.stub .guardAcquire)) := by
  have hresult := result_guardAcquire habi
  simp only [OneTime, Uncontended, control, Option.mem_def, Option.some.injEq, forall_eq', or_true,
    true_implies, Enters, Passes]
  cases hword : r.guardArg.word r.engine with
  | none => simp [hresult, hword]
  | some v =>
    rw [hword, Option.map_some] at hresult
    by_cases hzero : v = 0
    · -- The guard is clear, so whoever has entered is still inside.
      subst hzero
      have hmarked : ¬r.guardArg.Marked r.engine := by simp [Control.Marked, hword]
      have hinside : ∀ x ∈ r.entered, x.1 = r.guardArg → x ∈ r.inside := fun x hx hc =>
        (h.left x hx).resolve_left (hc ▸ hmarked)
      rw [if_pos rfl] at hresult
      simp only [hresult, true_implies, Option.some.injEq, one_ne_zero, false_implies, and_true,
        Option.isSome_some]
      exact ⟨fun hok x hx => hok x (h.entered x hx), fun hfree x hx hc =>
        hfree x (hinside x hx hc) hc⟩
    · rw [if_neg hzero] at hresult
      simp only [hresult, Option.some.injEq, zero_ne_one, false_implies, true_and, true_implies,
        Option.isSome_some]

theorem Consistent.oneTime_iff (h : r.Consistent) {ev : InitEvent} (hregular : r.Regular cfg ev) :
    r.OneTime ev ↔ r.Uncontended ev := by
  cases ev with
  | returns addr => exact Iff.rfl
  | event ev =>
    obtain ⟨⟨-, habi⟩, -⟩ := hregular
    cases ev with
    | act act => exact Iff.rfl
    | stub call =>
      cases call with
      | once => exact h.oneTime_once
      | guardAcquire => exact h.oneTime_guardAcquire habi
      | _ => simp [OneTime, Uncontended, Enters, Passes]

/-- In every regular run, initialisers are entered by one thread and waited for by all others if and
only if no thread calls one of the stubs while another thread is inside the same initialiser. -/
theorem oneTime_iff_uncontended (cfg : SchedConfig) (fn : ℕ) (args : List ℕ) (p : Process)
    {events : List InitEvent}
    (hrun : Steps (step cfg) (Regular cfg) (start cfg fn args p) events) :
    Steps (step cfg) OneTime (start cfg fn args p) events ↔
      Steps (step cfg) Uncontended (start cfg fn args p) events :=
  hrun.iff_of_kept (I := Consistent) (fun _ _ _ h hregular hstep => h.step hregular hstep)
    (fun _ _ _ h hregular _ => h.oneTime_iff hregular) (consistent_start cfg fn args p)

/-- Memory with a control word at `0x5000`, and the arguments of a call of `pthread_once`. -/
def onceMemory (word : UInt8) : Memory :=
  { Memory.init .arm64 false false with
    engine :=
      { Engine.fresh .arm64 with
        prot := fun page => if page = 5 then some ucProtRw else none
        byte := fun addr => if addr = 0x5000 then word else 0
        reg := fun r =>
          if r = .arm64X 0 then 0x5000 else if r = .arm64X 1 then 0x6000 else 0 } }

/-- The main thread enters an initialiser. -/
theorem oneTime_iff_uncontended_main :
    let p : Process := ⟨.init (.init .arm64 false false) true, {}⟩
    let events : List InitEvent := [.event (.act .pick), .event (.act (.exec (onceMemory 0))),
      .event (.stub .once), .returns 0x5000]
    Steps (step {}) (Regular {}) (start {} 0 [] p) events ∧
      (Steps (step {}) OneTime (start {} 0 [] p) events ↔
        Steps (step {}) Uncontended (start {} 0 [] p) events) := by
  intro p events
  have hrun : Steps (step {}) (Regular {}) (start {} 0 [] p) events := by decide +kernel
  exact ⟨hrun, oneTime_iff_uncontended {} 0 [] p hrun⟩

/-- A worker yields inside an initialiser. The main thread calls `pthread_once` with the same
control word, and the call returns. -/
theorem once_returns_early :
    let p : Process := ⟨.init (.init .arm64 false false) true, {}⟩
    let events : List InitEvent := [.event (.act .pick),
      .event (.act (.call (.spawn 0 0x7000 0))), .event (.act .sliceEnd), .event (.act .pick),
      .event (.act (.exec (onceMemory 0))), .event (.stub .once), .event (.act (.call .doYield)),
      .event (.act .sliceEnd), .event (.act .pick), .event (.act (.exec (onceMemory 2))),
      .event (.stub .once)]
    Steps (step {}) (Regular {}) (start {} 0 [] p) events ∧
      ¬Steps (step {}) OneTime (start {} 0 [] p) events := by
  decide +kernel

end InitRecord

end Vardoger
