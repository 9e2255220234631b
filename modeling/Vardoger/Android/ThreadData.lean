import Vardoger.Android.ThreadStubs
import Vardoger.Base.Runs

/-!
# Thread-specific data

One table of values by key serves all threads, so a thread that asks for its value gets the value
that any thread stored last. Beside a run we keep what each thread itself has stored, and who was
the last to store under a key. A thread gets its own value back as long as nobody else has stored
under the key since.
-/

namespace Vardoger

open Stateful Runs

/-- A run with a record of the stores: the value each thread has stored last under a key, and the
last thread that stored under it. -/
structure StoreRecord where
  run : GuestRun
  own : (tid key : ℕ) → Option ℕ
  last : (key : ℕ) → Option ℕ

namespace StoreRecord

/-- The running thread. -/
def cur (r : StoreRecord) : ℕ := r.run.world.sched.cur

/-- The first argument of a call. -/
def key (r : StoreRecord) : ℕ := r.run.process.engine.reg (.arm64X 0)

/-- The second argument of a call, a 64-bit word. -/
def value (r : StoreRecord) : ℕ := r.run.process.engine.reg (.arm64X 1) % 2 ^ 64

/-- The value that was stored under a key by anyone, also before the run. -/
def shared (r : StoreRecord) (key : ℕ) : Option ℕ := r.run.stubs.tlsValues key

/-- The record after an event. -/
def record (r : StoreRecord) (g : GuestRun) : Event → StoreRecord
  | .stub .setspecific =>
      { run := g
        own := Function.update r.own r.cur (Function.update (r.own r.cur) r.key (some r.value))
        last := Function.update r.last r.key (some r.cur) }
  | _ => { r with run := g }

def step (cfg : SchedConfig) (r : StoreRecord) (ev : Event) : Option StoreRecord :=
  (r.run.step cfg ev).map fun g => r.record g ev

def start (cfg : SchedConfig) (fn : ℕ) (args : List ℕ) (p : Process) : StoreRecord :=
  ⟨.start cfg fn args p, fun _ _ => none, fun _ => none⟩

/-- Stubs are called on the only architecture that has a scheduler. -/
def OnArm64 (r : StoreRecord) : Event → Prop
  | .stub _ => r.run.process.engine.abi = .arm64
  | .act _ => True

/-- A thread that asks for its value gets the one it has stored last in this run, and `0` if it has
stored none. -/
def GetsOwn (r : StoreRecord) : Event → Prop
  | .stub .getspecific =>
      ∃ p, Stubs.pthreadGetspecific r.run.process = .ok () p ∧
        p.engine.reg (.arm64X 0) = (r.own r.cur r.key).getD 0
  | _ => True

/-- A thread asks for a value only where nobody has stored one, or where it was the last to store
one in this run. -/
def AsksForOwn (r : StoreRecord) : Event → Prop
  | .stub .getspecific => r.shared r.key = none ∨ r.last r.key = some r.cur
  | _ => True

/-- The record agrees with the table where a thread was the last to store, and a thread that stored
has left a value. -/
structure Agrees (r : StoreRecord) : Prop where
  last : ∀ key tid, r.last key = some tid → r.own tid key = (r.shared key).map (· % 2 ^ 64)
  stored : ∀ key tid, r.shared key = none → r.own tid key = none

instance (r : StoreRecord) : (ev : Event) → Decidable (r.OnArm64 ev)
  | .stub _ => inferInstanceAs (Decidable (_ = _))
  | .act _ => isTrue trivial

instance (r : StoreRecord) : (ev : Event) → Decidable (r.AsksForOwn ev)
  | .stub .getspecific => inferInstanceAs (Decidable (_ ∨ _))
  | .stub .keyCreate | .stub .setspecific | .stub .once | .stub .guardAcquire
  | .stub .guardRelease | .stub .guardAbort | .stub .dlIterate | .stub .dlReturn
  | .act _ => isTrue trivial

variable {cfg : SchedConfig} {r r' : StoreRecord} {ev : Event}

theorem agrees_start (cfg : SchedConfig) (fn : ℕ) (args : List ℕ) (p : Process) :
    (start cfg fn args p).Agrees := ⟨nofun, fun _ _ _ => rfl⟩

theorem Agrees.of_shared (h : r.Agrees) (hown : r'.own = r.own) (hlast : r'.last = r.last)
    (hshared : r'.run.stubs.tlsValues = r.run.stubs.tlsValues) : r'.Agrees := by
  have hsame : r'.shared = r.shared := hshared
  constructor
  · rw [hown, hlast, hsame]
    exact h.last
  · rw [hown, hsame]
    exact h.stored

open Process in
/-- Only one stub writes the table. -/
theorem tlsValues_call {call : StubCall} (hcall : call ≠ .setspecific) :
    Moves (Keeps Stubs.tlsValues) call.run :=
  run_keeps (fun _ _ _ => rfl) (fun h => absurd h hcall) fun _ _ _ _ _ _ _ => rfl

open Process in
theorem pthreadSetspecific_eq {p : Process} (habi : p.engine.abi = .arm64) :
    (final (Stubs.pthreadSetspecific p)).stubs.tlsValues =
      Function.update p.stubs.tlsValues (p.engine.reg (.arm64X 0))
        (some (p.engine.reg (.arm64X 1))) := by
  have hkey : readReg .a0 p = .ok (p.engine.reg (.arm64X 0)) p := readReg_arm64 habi rfl
  have hvalue : readReg .a1 p = .ok (p.engine.reg (.arm64X 1)) p := readReg_arm64 habi rfl
  have hkeeps (v : ℕ) : Moves (Keeps Stubs.tlsValues) (writeReg .ret0 v) := onMem_keeps _
  rw [Stubs.pthreadSetspecific, bind_ok hkey, bind_ok hvalue]
  exact hkeeps 0 _

open Process in
theorem pthreadGetspecific_eq {p : Process} (habi : p.engine.abi = .arm64) :
    ∃ p', Stubs.pthreadGetspecific p = .ok () p' ∧ p'.engine.reg (.arm64X 0) =
      ((p.stubs.tlsValues (p.engine.reg (.arm64X 0))).map (· % 2 ^ 64)).getD 0 := by
  have hkey : readReg .a0 p = .ok (p.engine.reg (.arm64X 0)) p := readReg_arm64 habi rfl
  have hwrite (v : ℕ) : writeReg .ret0 v p = _ :=
    writeReg_arm64 (i := .arm64X 0) habi rfl v
  refine ⟨_, by rw [Stubs.pthreadGetspecific, bind_ok hkey, get_bind]; exact hwrite _, ?_⟩
  simp only [engine, withEngine, Engine.writeUcReg, Function.update_self, UcReg.bits]
  cases p.stubs.tlsValues (p.sched.mem.engine.reg (.arm64X 0)) with
  | none => rfl
  | some v => rfl

/-- Every event keeps the record in agreement with the table. -/
theorem Agrees.step (h : r.Agrees) (harm : r.OnArm64 ev) (hstep : r.step cfg ev = some r') :
    r'.Agrees := by
  obtain ⟨g, hg, rfl⟩ := Option.map_eq_some_iff.mp hstep
  cases ev with
  | act act =>
    obtain ⟨w, -, rfl⟩ := GuestRun.step_act hg
    exact h.of_shared rfl rfl rfl
  | stub call =>
    have hstubs := GuestRun.stubs_step_stub hg
    by_cases hcall : call = .setspecific
    · subst hcall
      have hset : g.stubs.tlsValues = Function.update r.shared r.key
          (some (r.run.process.engine.reg (.arm64X 1))) := by
        rw [hstubs]
        exact pthreadSetspecific_eq harm
      constructor
      · intro key tid hlast
        simp only [record, shared, hset, Function.update_apply] at hlast ⊢
        by_cases hkey : key = r.key
        · rw [if_pos hkey] at hlast ⊢
          rw [← Option.some.inj hlast, if_pos rfl, hkey, Function.update_self]
          rfl
        · rw [if_neg hkey] at hlast ⊢
          split
          · rw [Function.update_of_ne hkey, ← ‹tid = r.cur›]
            exact h.last key tid hlast
          · exact h.last key tid hlast
      · intro key tid hnone
        simp only [record, shared, hset, Function.update_apply] at hnone ⊢
        by_cases hkey : key = r.key
        · rw [if_pos hkey] at hnone
          cases hnone
        · rw [if_neg hkey] at hnone
          split
          · rw [Function.update_of_ne hkey]
            exact h.stored key r.cur hnone
          · exact h.stored key tid hnone
    · have hkeeps : g.stubs.tlsValues = r.run.stubs.tlsValues := by
        rw [hstubs]
        exact tlsValues_call hcall r.run.process
      have hrecord : r.record g (.stub call) = { r with run := g } := by
        cases call <;> first | rfl | exact absurd rfl hcall
      rw [hrecord]
      exact h.of_shared rfl rfl hkeeps

/-- Where a thread was the last to store, or nobody has stored, it gets its own. -/
theorem Agrees.getsOwn (h : r.Agrees) (harm : r.OnArm64 ev) (hasks : r.AsksForOwn ev) :
    r.GetsOwn ev := by
  cases ev with
  | act act => trivial
  | stub call =>
    cases call with
    | getspecific =>
      obtain ⟨p, hrun, hreg⟩ := pthreadGetspecific_eq harm
      refine ⟨p, hrun, hreg.trans ?_⟩
      rcases hasks with hnone | hlast
      · have hshared :
            r.run.process.stubs.tlsValues (r.run.process.engine.reg (.arm64X 0)) = none :=
          hnone
        rw [hshared, h.stored r.key r.cur hnone]
        rfl
      · rw [h.last r.key r.cur hlast]
        rfl
    | _ => trivial

/-- In every run in which threads ask only for values that they were the last to store, or that
nobody has stored, every thread gets the value it has itself stored last. -/
theorem getsOwn_of_asksForOwn (cfg : SchedConfig) (fn : ℕ) (args : List ℕ) (p : Process)
    (events : List Event)
    (hrun : Steps (step cfg) (fun r ev => r.OnArm64 ev ∧ r.AsksForOwn ev)
      (start cfg fn args p) events) :
    Steps (step cfg) GetsOwn (start cfg fn args p) events := by
  refine hrun.imp (I := Agrees) ?_ (agrees_start cfg fn args p)
  rintro r ev r' hr ⟨harm, hasks⟩ hstep
  exact ⟨hr.step harm hstep, hr.getsOwn harm hasks⟩

/-- Memory in which nothing is mapped, and two registers. -/
def withArgs (x0 x1 : ℕ) : Memory :=
  { Memory.init .arm64 false false with
    engine := ((Engine.fresh .arm64).writeUcReg (.arm64X 0) x0).writeUcReg (.arm64X 1) x1 }

/-- The main thread stores a value and asks for it. -/
theorem getsOwn_of_asksForOwn_alone :
    let p : Process := ⟨.init (.init .arm64 false false) true, {}⟩
    let events : List Event := [.act .pick, .act (.exec (withArgs 1 7)), .stub .setspecific,
      .act (.exec (withArgs 1 0)), .stub .getspecific]
    Steps (step {}) (fun r ev => r.OnArm64 ev ∧ r.AsksForOwn ev) (start {} 0 [] p) events ∧
      Steps (step {}) GetsOwn (start {} 0 [] p) events := by
  intro p events
  have hrun : Steps (step {}) (fun r ev => r.OnArm64 ev ∧ r.AsksForOwn ev)
      (start {} 0 [] p) events := by decide +kernel
  exact ⟨hrun, getsOwn_of_asksForOwn {} 0 [] p events hrun⟩

/-- A thread without a value under a key gets `7` for it. -/
def getsSeven (r : StoreRecord) : Bool :=
  match Stubs.pthreadGetspecific r.run.process with
  | .ok _ p => p.engine.reg (.arm64X 0) = 7 && r.own r.cur r.key = none
  | .error _ _ => false

/-- The main thread stores a value under a key. A worker that has stored none gets it. -/
theorem worker_gets_value_of_main :
    let p : Process := ⟨.init (.init .arm64 false false) true, {}⟩
    let events : List Event := [.act .pick, .act (.exec (withArgs 1 7)), .stub .setspecific,
      .act (.call (.spawn 0 0x6000 0)), .act .sliceEnd, .act .pick, .act (.exec (withArgs 1 0))]
    ¬Steps (step {}) GetsOwn (start {} 0 [] p) (events ++ [.stub .getspecific]) := by
  intro p events hsteps
  have hbad : (events.foldlM (step {}) (start {} 0 [] p)).any getsSeven = true := by
    decide +kernel
  obtain ⟨r, hrun, hr⟩ := (Option.any_eq_true _ _).mp hbad
  obtain ⟨p', hgets, hreg⟩ := hsteps.last hrun
  simp only [getsSeven, hgets, Bool.and_eq_true, decide_eq_true_eq] at hr
  rw [hr.1, hr.2] at hreg
  cases hreg

end StoreRecord

end Vardoger
