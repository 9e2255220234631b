import Vardoger.Dex.Dalvik

/-!
# Callbacks that enter the interpreter again

A callback of the interpreter may call `Dalvik::run` again, and it may end with an exception. This
file separates what an instruction asks a callback from what it does with the answer, and runs the
interpreter with callbacks that are programs of nested runs. The member `depth_` is counted up when
a method is entered and down at every return, but not when an exception leaves the method. So it
drifts by the number of activations that exceptions have left.
-/

namespace Vardoger.Dalvik

open Dex

/-! ## Requests -/

/-- The callbacks of the interpreter. -/
inductive Callback
  | invoke | sget | sput | iget | iput | constString | newInstance | newArray | arrayLength | aget
  | aput
  deriving DecidableEq, Repr

/-- A call of a callback. -/
inductive Request
  | invoke (k : InvokeKind) (idx : ℕ) (args : List (BitVec 64))
  | sget (idx : ℕ)
  | sput (idx : ℕ) (v : BitVec 64)
  | iget (obj : BitVec 64) (idx : ℕ)
  | iput (obj : BitVec 64) (idx : ℕ) (v : BitVec 64)
  | constString (idx : ℕ)
  | newInstance (idx : ℕ)
  | newArray (idx : ℕ) (len : BitVec 32)
  | arrayLength (arr : BitVec 64)
  | aget (arr : BitVec 64) (idx : BitVec 32)
  | aput (arr : BitVec 64) (idx : BitVec 32) (v : BitVec 64)
  deriving DecidableEq, Repr

/-- What an instruction does, without the state of the host: an outcome, or a request to a callback
with the outcome if it is unset and the outcome for each answer. There is no request if a register
for it is missing. -/
inductive Effect
  | plain (o : Outcome Unit)
  | call (c : Callback) (unset : Outcome Unit) (request : Option Request)
      (resume : BitVec 64 → Outcome Unit)

/-- The answer to a request goes to a register. -/
def Frame.asks (f : Frame) (dst : ℕ) (c : Callback) (units : ℕ) (request : Option Request) :
    Effect :=
  .call c (f.write dst 0 units ()) request fun v => f.write dst v units ()

/-- A request without an answer. -/
def Frame.tells (f : Frame) (c : Callback) (units : ℕ) (request : Option Request) : Effect :=
  .call c (.next (f.advance units) ()) request fun _ => .next (f.advance units) ()

/-- The answer to an invocation is kept as its result. -/
def Frame.calls (f : Frame) (k : InvokeKind) (idx : ℕ) (args : Option (List (BitVec 64))) :
    Effect :=
  .call .invoke (args.elim .undefined fun _ => .next { f.advance 3 with ret := 0 } ())
    (args.map (.invoke k idx)) fun v => .next { f.advance 3 with ret := v } ()

def effect (ins : Insn) (f : Frame) : Effect :=
  match ins with
  | .skip n => .plain (.next (f.advance n) ())
  | .move _ dst src n => .plain (f.read src fun v => f.write dst v n ())
  | .moveResult dst => .plain (f.write dst f.ret 1 ())
  | .returnVoid => .plain (.done 0 ())
  | .returnReg _ src => .plain (f.read src fun v => .done v ())
  | .const _ dst v n => .plain (f.write dst v n ())
  | .constString dst idx n => f.asks dst .constString n (some (.constString idx))
  | .placeholder dst v => .plain (f.write dst v 2 ())
  | .newInstance dst idx => f.asks dst .newInstance 2 (some (.newInstance idx))
  | .newArray dst len idx => f.asks dst .newArray 2
      (f.regs[len]?.map fun n => .newArray idx (n.setWidth 32))
  | .arrayLength dst arr => f.asks dst .arrayLength 1 (f.regs[arr]?.map .arrayLength)
  | .throw => .plain (.done f.ret ())
  | .goto off => .plain (if off = 0 then .done f.ret () else .next (f.jump off) ())
  | .gotoWide off n => .plain (.next (f.branch true off n) ())
  | .ifTest c a b off => .plain (f.read a fun x => f.read b fun y =>
      .next (f.branch (c.holds x y) off 2) ())
  | .ifTestz c a off => .plain (f.read a fun x => .next (f.branch (c.holds x 0) off 2) ())
  | .aget dst arr idx => f.asks dst .aget 2
      (f.regs[arr]?.bind fun a => f.regs[idx]?.map fun i => .aget a (i.setWidth 32))
  | .aput src arr idx => f.tells .aput 2
      (f.regs[arr]?.bind fun a => f.regs[idx]?.bind fun i => f.regs[src]?.map fun v =>
        .aput a (i.setWidth 32) v)
  | .iget dst obj idx => f.asks dst .iget 2 (f.regs[obj]?.map fun o => .iget o idx)
  | .iput src obj idx => f.tells .iput 2
      (f.regs[obj]?.bind fun o => f.regs[src]?.map fun v => .iput o idx v)
  | .sget dst idx => f.asks dst .sget 2 (some (.sget idx))
  | .sput src idx => f.tells .sput 2 (f.regs[src]?.map fun v => .sput idx v)
  | .invoke k idx args => f.calls k idx (args.mapM fun r => r.bind (f.regs[·]?))
  | .invokeRange k idx first count => f.calls k idx (some ((f.regs.drop first).take count))
  | .unop u dst src => .plain (f.read src fun v => f.write dst (u.eval v) 1 ())
  | .binop _ k dst a b n => .plain (f.read a fun x => f.read b fun y =>
      f.writeResult dst (ibin k x y) n ())
  | .lit k dst src lit => .plain (f.read src fun v => f.writeResult dst (k.eval v lit) 2 ())

section Pure

variable {σ : Type*}

/-- Is the callback set? -/
def Host.has (host : Host σ) : Callback → Bool
  | .invoke => host.onInvoke.isSome
  | .sget => host.onSget.isSome
  | .sput => host.onSput.isSome
  | .iget => host.onIget.isSome
  | .iput => host.onIput.isSome
  | .constString => host.onConstString.isSome
  | .newInstance => host.onNewInstance.isSome
  | .newArray => host.onNewArray.isSome
  | .arrayLength => host.onArrayLength.isSome
  | .aget => host.onAget.isSome
  | .aput => host.onAput.isSome

/-- The answer of a host whose callbacks are functions; an unset one is not asked. -/
def Host.answer (host : Host σ) (q : Request) (s : σ) : BitVec 64 × σ :=
  match q with
  | .invoke k idx args => host.onInvoke.elim (0, s) fun g => g k idx args s
  | .sget idx => host.onSget.elim (0, s) fun g => g idx s
  | .sput idx v => (0, host.onSput.elim s fun g => g idx v s)
  | .iget obj idx => host.onIget.elim (0, s) fun g => g obj idx s
  | .iput obj idx v => (0, host.onIput.elim s fun g => g obj idx v s)
  | .constString idx => host.onConstString.elim (0, s) fun g => g idx s
  | .newInstance idx => host.onNewInstance.elim (0, s) fun g => g idx s
  | .newArray idx len => host.onNewArray.elim (0, s) fun g => g idx len s
  | .arrayLength arr =>
      host.onArrayLength.elim (0, s) fun g => ((g arr s).1.setWidth 64, (g arr s).2)
  | .aget arr idx => host.onAget.elim (0, s) fun g => g arr idx s
  | .aput arr idx v => (0, host.onAput.elim s fun g => g arr idx v s)

/-- An outcome with the state of the host. -/
def Outcome.withState (o : Outcome Unit) (s : σ) : Outcome σ :=
  match o with
  | .next f _ => .next f s
  | .done v _ => .done v s
  | .undefined => .undefined

def Effect.perform (e : Effect) (host : Host σ) (s : σ) : Outcome σ :=
  match e with
  | .plain o => o.withState s
  | .call c unset request resume =>
      if host.has c then
        match request with
        | none => .undefined
        | some q => (resume (host.answer q s).1).withState (host.answer q s).2
      else unset.withState s

theorem withState_read (f : Frame) (r : ℕ) (k : BitVec 64 → Outcome Unit) (s : σ) :
    (f.read r k).withState s = f.read r fun v => (k v).withState s := by
  unfold Frame.read
  cases f.regs[r]? with
  | none => rfl
  | some v => rfl

theorem withState_write (f : Frame) (r : ℕ) (v : BitVec 64) (n : ℕ) (s : σ) :
    (f.write r v n ()).withState s = f.write r v n s := by
  unfold Frame.write
  split
  · rfl
  · rfl

theorem withState_writeResult (f : Frame) (r : ℕ) (v : Option (BitVec 64)) (n : ℕ) (s : σ) :
    (f.writeResult r v n ()).withState s = f.writeResult r v n s := by
  cases v with
  | none => rfl
  | some v => exact withState_write f r v n s

theorem perform_asks {α : Type*} {host : Host σ} {f : Frame} {dst n : ℕ} {c : Callback} {s : σ}
    {callback : Option α} {request : Option Request}
    {k : α → (BitVec 64 × σ → Outcome σ) → Outcome σ} (hc : host.has c = callback.isSome)
    (hk : ∀ g, callback = some g → ∀ resume : BitVec 64 × σ → Outcome σ,
      k g resume = request.elim .undefined fun q => resume (host.answer q s)) :
    f.ask dst callback n s k = (f.asks dst c n request).perform host s := by
  unfold Frame.ask Frame.asks Effect.perform
  dsimp only
  rw [hc]
  cases callback with
  | none => exact (withState_write f dst 0 n s).symm
  | some g =>
    dsimp only
    rw [hk g rfl]
    cases request with
    | none => rfl
    | some q => exact (withState_write f dst _ n _).symm

theorem perform_tells {α : Type*} {host : Host σ} {f : Frame} {n : ℕ} {c : Callback} {s : σ}
    {callback : Option α} {request : Option Request} {k : α → (σ → Outcome σ) → Outcome σ}
    (hc : host.has c = callback.isSome)
    (hk : ∀ g, callback = some g → ∀ resume : σ → Outcome σ,
      k g resume = request.elim .undefined fun q => resume (host.answer q s).2) :
    f.tell callback n s k = (f.tells c n request).perform host s := by
  unfold Frame.tell Frame.tells Effect.perform
  dsimp only
  rw [hc]
  cases callback with
  | none => rfl
  | some g =>
    dsimp only
    rw [hk g rfl]
    cases request with
    | none => rfl
    | some q => rfl

theorem perform_calls (host : Host σ) (f : Frame) (k : InvokeKind) (idx : ℕ)
    (args : Option (List (BitVec 64))) (s : σ) :
    f.call host k idx args s = (f.calls k idx args).perform host s := by
  unfold Frame.call Frame.calls Effect.perform Host.has Host.answer
  cases args with
  | none =>
    cases host.onInvoke with
    | none => rfl
    | some g => rfl
  | some a =>
    cases host.onInvoke with
    | none => rfl
    | some g => rfl

/-- With callbacks that are functions, an instruction does what `exec` says. -/
theorem exec_eq_perform (host : Host σ) (ins : Insn) (f : Frame) (s : σ) :
    exec host ins f s = (effect ins f).perform host s := by
  cases ins with
  | skip n => rfl
  | move t dst src n => simp only [exec, effect, Effect.perform, withState_read, withState_write]
  | moveResult dst => exact (withState_write f dst f.ret 1 s).symm
  | returnVoid => rfl
  | returnReg t src =>
    simp only [exec, effect, Effect.perform, withState_read]
    rfl
  | const t dst v n => exact (withState_write f dst v n s).symm
  | constString dst idx n =>
    rw [exec, effect]
    apply perform_asks
    · rfl
    · intro g hg resume
      simp only [Host.answer, hg, Option.elim_some]
  | placeholder dst v => exact (withState_write f dst v 2 s).symm
  | newInstance dst idx =>
    rw [exec, effect]
    apply perform_asks
    · rfl
    · intro g hg resume
      simp only [Host.answer, hg, Option.elim_some]
  | newArray dst len idx =>
    rw [exec, effect]
    apply perform_asks
    · rfl
    · intro g hg resume
      unfold Frame.read
      cases f.regs[len]? <;> simp [Host.answer, hg]
  | arrayLength dst arr =>
    rw [exec, effect]
    apply perform_asks
    · rfl
    · intro g hg resume
      unfold Frame.read
      cases f.regs[arr]? <;> simp [Host.answer, hg]
  | throw => rfl
  | goto off =>
    simp only [exec, effect, Effect.perform]
    split
    · rfl
    · rfl
  | gotoWide off n => rfl
  | ifTest c a b off =>
    simp only [exec, effect, Effect.perform, withState_read]
    rfl
  | ifTestz c a off =>
    simp only [exec, effect, Effect.perform, withState_read]
    rfl
  | aget dst arr idx =>
    rw [exec, effect]
    apply perform_asks
    · rfl
    · intro g hg resume
      unfold Frame.read
      cases f.regs[arr]? <;> cases f.regs[idx]? <;> simp [Host.answer, hg]
  | aput src arr idx =>
    rw [exec, effect]
    apply perform_tells
    · rfl
    · intro g hg resume
      unfold Frame.read
      cases f.regs[arr]? <;> cases f.regs[idx]? <;> cases f.regs[src]? <;> simp [Host.answer, hg]
  | iget dst obj idx =>
    rw [exec, effect]
    apply perform_asks
    · rfl
    · intro g hg resume
      unfold Frame.read
      cases f.regs[obj]? <;> simp [Host.answer, hg]
  | iput src obj idx =>
    rw [exec, effect]
    apply perform_tells
    · rfl
    · intro g hg resume
      unfold Frame.read
      cases f.regs[obj]? <;> cases f.regs[src]? <;> simp [Host.answer, hg]
  | sget dst idx =>
    rw [exec, effect]
    apply perform_asks
    · rfl
    · intro g hg resume
      simp only [Host.answer, hg, Option.elim_some]
  | sput src idx =>
    rw [exec, effect]
    apply perform_tells
    · rfl
    · intro g hg resume
      unfold Frame.read
      cases f.regs[src]? <;> simp [Host.answer, hg]
  | invoke k idx args => exact perform_calls host f k idx _ s
  | invokeRange k idx first count => exact perform_calls host f k idx _ s
  | unop u dst src => simp only [exec, effect, Effect.perform, withState_read, withState_write]
  | binop t k dst a b n =>
    simp only [exec, effect, Effect.perform, withState_read, withState_writeResult]
  | lit k dst src lit =>
    simp only [exec, effect, Effect.perform, withState_read, withState_writeResult]

end Pure

/-! ## Nested runs -/

/-- What a callback does: it returns a slot, throws, or enters the interpreter again and goes on
with the result, none if that run ended with an exception. -/
inductive Behaviour (σ : Type*)
  | ret (v : BitVec 64) (s : σ)
  | throw (s : σ)
  | enter (code : Code) (args : List (BitVec 64)) (s : σ)
      (resume : Option (BitVec 64) → σ → Behaviour σ)

/-- The callbacks that are set, and what they do. -/
structure Callbacks (σ : Type*) where
  has : Callback → Bool
  answer : Request → σ → Behaviour σ

/-- The state of the host and the member `depth_`. The last field is not in the source: it counts
the activations that an exception has left. -/
structure Machine (σ : Type*) where
  host : σ
  depth : ℕ
  escaped : ℕ := 0
  deriving DecidableEq, Repr

/-- How a run ends. -/
inductive Ending
  | value (v : BitVec 64)
  | thrown
  deriving DecidableEq, Repr

def Ending.value? : Ending → Option (BitVec 64)
  | .value v => some v
  | .thrown => none

variable {σ : Type*}

/-- The way into the interpreter that a callback has. There is no result if the run has none. -/
abbrev Enter (σ : Type*) := Code → List (BitVec 64) → Machine σ → Option (Ending × Machine σ)

def Behaviour.perform (enter : Enter σ) : Behaviour σ → Machine σ → Option (Ending × Machine σ)
  | .ret v s, m => some (.value v, { m with host := s })
  | .throw s, m => some (.thrown, { m with host := s })
  | .enter code args s resume, m =>
      match enter code args { m with host := s } with
      | none => none
      | some (ending, m') => (resume ending.value? m'.host).perform enter m'

/-- What an instruction leads to. -/
inductive Step (σ : Type*)
  | next (f : Frame) (m : Machine σ)
  | done (v : BitVec 64) (m : Machine σ)
  | threw (m : Machine σ)
  | undefined

def Outcome.onMachine (o : Outcome Unit) (m : Machine σ) : Step σ :=
  match o with
  | .next f _ => .next f m
  | .done v _ => .done v m
  | .undefined => .undefined

def Effect.onMachine (e : Effect) (cb : Callbacks σ) (enter : Enter σ) (m : Machine σ) : Step σ :=
  match e with
  | .plain o => o.onMachine m
  | .call c unset request resume =>
      if cb.has c then
        match request with
        | none => .undefined
        | some q =>
            match (cb.answer q m.host).perform enter m with
            | none => .undefined
            | some (.value v, m') => (resume v).onMachine m'
            | some (.thrown, m') => .threw m'
      else unset.onMachine m

/-- One pass of the loop. -/
def stepIn (d : List UInt8) (cb : Callbacks σ) (enter : Enter σ) (code : Code) (f : Frame)
    (m : Machine σ) : Step σ :=
  match d[(insnAddr code f.pc).toNat]? with
  | none => .undefined
  | some op =>
      match shapeOf op.toNat with
      | none => .done f.ret m
      | some shape =>
          (effect (shape.decode (fieldsAt d (insnAddr code f.pc))) f).onMachine cb enter m

/-- `--depth_` at a return. -/
def Machine.leave (m : Machine σ) : Machine σ := { m with depth := m.depth - 1 }

/-- An exception leaves the method: nothing counts `depth_` down. -/
def Machine.escape (m : Machine σ) : Machine σ := { m with escaped := m.escaped + 1 }

/-- The loop of `Dalvik::run` with the returns behind it. -/
def loopIn (d : List UInt8) (cb : Callbacks σ) (enter : Enter σ) (code : Code) :
    (steps : ℕ) → Frame → Machine σ → Option (Ending × Machine σ)
  | 0, f, m => some (.value f.ret, m.leave)
  | steps + 1, f, m =>
      if code.insnsSize ≤ f.pc.toNat then some (.value f.ret, m.leave)
      else
        match stepIn d cb enter code f m with
        | .undefined => none
        | .done v m' => some (.value v, m'.leave)
        | .threw m' => some (.thrown, m'.escape)
        | .next f' m' => loopIn d cb enter code steps f' m'

/-- A run in which at most `n` activations are nested. -/
def runWithin (d : List UInt8) (cb : Callbacks σ) : (n : ℕ) → Enter σ
  | 0, _, _, m => some (.value 0, m)
  | n + 1, code, args, m =>
      if !code.valid ∨ kMaxDepth ≤ m.depth then some (.value 0, m)
      else
        match entryRegs code args with
        | none => none
        | some regs =>
            loopIn d cb (runWithin d cb n) code kMaxSteps ⟨regs, 0, 0⟩
              { m with depth := m.depth + 1 }

/-- `Dalvik::run` with callbacks that may enter it again. The depth limit bounds the nesting. -/
def runIn (d : List UInt8) (cb : Callbacks σ) : Enter σ := runWithin d cb kMaxDepth

/-! ## What a step preserves -/

/-- Exceptions leave the callback only if `T` holds. If no nested run ends with one, then what the
callback would do after one does not matter. -/
inductive Behaviour.ThrowsIf (T : Prop) : Behaviour σ → Prop
  | ret (v : BitVec 64) (s : σ) : (Behaviour.ret v s).ThrowsIf T
  | throw (s : σ) (hT : T) : (Behaviour.throw s).ThrowsIf T
  | enter (code : Code) (args : List (BitVec 64)) (s : σ)
      (resume : Option (BitVec 64) → σ → Behaviour σ)
      (hvalue : ∀ v s, (resume (some v) s).ThrowsIf T)
      (hthrown : T → ∀ s, (resume none s).ThrowsIf T) :
      (Behaviour.enter code args s resume).ThrowsIf T

/-- Every run is related by `R`, and ends with an exception only if `T` holds. -/
def Respects (R : Machine σ → Machine σ → Prop) (T : Prop) (enter : Enter σ) : Prop :=
  ∀ code args m ending m', enter code args m = some (ending, m') →
    R m m' ∧ (ending = .thrown → T)

/-- The states that a step leads to. -/
def Step.machine? : Step σ → Option (Machine σ)
  | .next _ m => some m
  | .done _ m => some m
  | .threw m => some m
  | .undefined => none

variable {d : List UInt8} {cb : Callbacks σ} {enter : Enter σ} {code : Code} {m m' : Machine σ}

section Rules

variable {R : Machine σ → Machine σ → Prop} {T : Prop} (hhost : ∀ m s, R m { m with host := s })
  (htrans : ∀ m m' m'', R m m' → R m' m'' → R m m'') (henter : Respects R T enter)

include hhost htrans henter

theorem Behaviour.perform_rule {b : Behaviour σ} (hb : b.ThrowsIf T) {ending : Ending}
    (h : b.perform enter m = some (ending, m')) : R m m' ∧ (ending = .thrown → T) := by
  induction hb generalizing m with
  | ret v s =>
    obtain ⟨rfl, rfl⟩ := Prod.mk.inj (Option.some.inj h)
    exact ⟨hhost m s, fun hthrown => by cases hthrown⟩
  | throw s hT =>
    obtain ⟨rfl, rfl⟩ := Prod.mk.inj (Option.some.inj h)
    exact ⟨hhost m s, fun _ => hT⟩
  | enter code args s resume hvalue hthrown ihvalue ihthrown =>
    rw [perform] at h
    cases hrun : enter code args { m with host := s } with
    | none =>
      rw [hrun] at h
      cases h
    | some r =>
      obtain ⟨nested, m₁⟩ := r
      rw [hrun] at h
      obtain ⟨hR, hT⟩ := henter _ _ _ _ _ hrun
      have hbefore := htrans _ _ _ (hhost m s) hR
      cases nested with
      | value v =>
        obtain ⟨hafter, hending⟩ := ihvalue v m₁.host h
        exact ⟨htrans _ _ _ hbefore hafter, hending⟩
      | thrown =>
        obtain ⟨hafter, hending⟩ := ihthrown (hT rfl) m₁.host h
        exact ⟨htrans _ _ _ hbefore hafter, hending⟩

variable (hcb : ∀ q s, (cb.answer q s).ThrowsIf T)

include hcb

theorem Effect.onMachine_rule (e : Effect) :
    (∀ m', (e.onMachine cb enter m).machine? = some m' → R m m') ∧
      ∀ m', e.onMachine cb enter m = .threw m' → T := by
  have hplain : ∀ (o : Outcome Unit) (m₁ : Machine σ), R m m₁ →
      (∀ m', (o.onMachine m₁).machine? = some m' → R m m') ∧
        ∀ m', o.onMachine m₁ = .threw m' → T := by
    intro o m₁ hm₁
    cases o with
    | next f s => exact ⟨fun m' h => Option.some.inj h ▸ hm₁, fun m' h => by cases h⟩
    | done v s => exact ⟨fun m' h => Option.some.inj h ▸ hm₁, fun m' h => by cases h⟩
    | undefined => exact ⟨fun m' h => (by cases h), fun m' h => by cases h⟩
  cases e with
  | plain o => exact hplain o m (hhost m m.host)
  | call c unset request resume =>
    unfold onMachine
    dsimp only
    split
    next =>
      cases request with
      | none => exact ⟨fun m' h => (by cases h), fun m' h => by cases h⟩
      | some q =>
        dsimp only
        cases hrun : (cb.answer q m.host).perform enter m with
        | none => exact ⟨fun m' h => (by cases h), fun m' h => by cases h⟩
        | some r =>
          obtain ⟨ending, m₁⟩ := r
          obtain ⟨hR, hT⟩ := Behaviour.perform_rule hhost htrans henter (hcb q m.host) hrun
          cases ending with
          | value v => exact hplain (resume v) m₁ hR
          | thrown => exact ⟨fun m' h => Option.some.inj h ▸ hR, fun _ _ => hT rfl⟩
    next => exact hplain unset m (hhost m m.host)

/-- One pass of the loop. -/
theorem stepIn_rule (d : List UInt8) (code : Code) (f : Frame) (m : Machine σ) :
    (∀ m', (stepIn d cb enter code f m).machine? = some m' → R m m') ∧
      ∀ m', stepIn d cb enter code f m = .threw m' → T := by
  unfold stepIn
  split
  next => exact ⟨fun m' h => (by cases h), fun m' h => by cases h⟩
  next op hop =>
    split
    next => exact ⟨fun m' h => Option.some.inj h ▸ hhost m m.host, fun m' h => by cases h⟩
    next shape hshape => exact Effect.onMachine_rule hhost htrans henter hcb _

end Rules

theorem Behaviour.throwsIf_true (b : Behaviour σ) : b.ThrowsIf True := by
  induction b with
  | ret v s => exact .ret v s
  | throw s => exact .throw s trivial
  | enter code args s resume ih =>
    exact .enter code args s resume (fun v s => ih (some v) s) fun _ s => ih none s

/-! ## The drift of the depth -/

/-- Between two states the depth grows by the number of activations that exceptions have left. -/
structure Drift (m m' : Machine σ) : Prop where
  escaped_le : m.escaped ≤ m'.escaped
  depth_eq : m'.depth + m.escaped = m.depth + m'.escaped

theorem Drift.withHost (m : Machine σ) (s : σ) : Drift m { m with host := s } := ⟨le_rfl, rfl⟩

theorem Drift.trans (m m' m'' : Machine σ) (h : Drift m m') (h' : Drift m' m'') : Drift m m'' := by
  obtain ⟨hle, heq⟩ := h
  obtain ⟨hle', heq'⟩ := h'
  constructor <;> omega

theorem Drift.depth_le (h : Drift m m') : m.depth ≤ m'.depth := by
  obtain ⟨hle, heq⟩ := h
  omega

/-- Both ways out of the loop leave a level less than there was, up to the drift. -/
theorem loopIn_drift (henter : Respects Drift True enter) (steps : ℕ) (f : Frame) {ending : Ending}
    (hm : 1 ≤ m.depth) (hl : loopIn d cb enter code steps f m = some (ending, m')) :
    m.escaped ≤ m'.escaped ∧ m'.depth + 1 + m.escaped = m.depth + m'.escaped := by
  induction steps generalizing f m with
  | zero =>
    obtain ⟨-, rfl⟩ := Prod.mk.inj (Option.some.inj hl)
    simp only [Machine.leave]
    omega
  | succ steps ih =>
    rw [loopIn] at hl
    split at hl
    next =>
      obtain ⟨-, rfl⟩ := Prod.mk.inj (Option.some.inj hl)
      simp only [Machine.leave]
      omega
    next =>
      have hstep := (stepIn_rule Drift.withHost Drift.trans henter
        (fun q s => (cb.answer q s).throwsIf_true) d code f m).1
      cases hs : stepIn d cb enter code f m with
      | undefined =>
        rw [hs] at hl
        cases hl
      | done v m₁ =>
        rw [hs] at hl hstep
        obtain ⟨hle, heq⟩ := hstep m₁ rfl
        obtain ⟨-, rfl⟩ := Prod.mk.inj (Option.some.inj hl)
        simp only [Machine.leave]
        omega
      | threw m₁ =>
        rw [hs] at hl hstep
        obtain ⟨hle, heq⟩ := hstep m₁ rfl
        obtain ⟨-, rfl⟩ := Prod.mk.inj (Option.some.inj hl)
        simp only [Machine.escape]
        omega
      | next f₁ m₁ =>
        rw [hs] at hl hstep
        have hdrift := hstep m₁ rfl
        have hdepth := hdrift.depth_le
        obtain ⟨hle, heq⟩ := hdrift
        have hrest := ih f₁ (by omega) hl
        omega

/-- A rule for runs from a rule for the loop. -/
theorem runWithin_rule {R : Machine σ → Machine σ → Prop} {T : Prop} (hrefl : ∀ m, R m m)
    (hloop : ∀ enter : Enter σ, Respects R T enter → ∀ code f (m m' : Machine σ) ending,
      loopIn d cb enter code kMaxSteps f { m with depth := m.depth + 1 } = some (ending, m') →
        R m m' ∧ (ending = .thrown → T)) (n : ℕ) :
    Respects R T (runWithin d cb n) := by
  induction n with
  | zero =>
    intro code args m ending m' h
    obtain ⟨rfl, rfl⟩ := Prod.mk.inj (Option.some.inj h)
    exact ⟨hrefl m, fun hthrown => by cases hthrown⟩
  | succ n ih =>
    intro code args m ending m' h
    rw [runWithin] at h
    split at h
    next =>
      obtain ⟨rfl, rfl⟩ := Prod.mk.inj (Option.some.inj h)
      exact ⟨hrefl m, fun hthrown => by cases hthrown⟩
    next =>
      cases hregs : entryRegs code args with
      | none =>
        simp only [hregs] at h
        cases h
      | some regs =>
        simp only [hregs] at h
        exact hloop _ ih _ _ _ _ _ h

theorem runWithin_drift (d : List UInt8) (cb : Callbacks σ) (n : ℕ) :
    Respects Drift True (runWithin d cb n) := by
  refine runWithin_rule (fun m => Drift.withHost m m.host) ?_ n
  intro enter henter code f m m' ending hl
  obtain ⟨hle, heq⟩ := loopIn_drift henter _ _ (Nat.le_add_left 1 m.depth) hl
  dsimp only at hle heq
  exact ⟨⟨hle, by omega⟩, fun _ => trivial⟩

/-! ## Callbacks that do not throw -/

/-- No callback ends with an exception of its own making. -/
def Callbacks.Quiet (cb : Callbacks σ) : Prop := ∀ q s, (cb.answer q s).ThrowsIf False

theorem loopIn_quiet (hcb : cb.Quiet)
    (henter : Respects (fun m m' => m'.escaped = m.escaped) False enter) (steps : ℕ) (f : Frame)
    {ending : Ending} (hl : loopIn d cb enter code steps f m = some (ending, m')) :
    m'.escaped = m.escaped ∧ (ending = .thrown → False) := by
  induction steps generalizing f m with
  | zero =>
    obtain ⟨rfl, rfl⟩ := Prod.mk.inj (Option.some.inj hl)
    exact ⟨rfl, fun hthrown => by cases hthrown⟩
  | succ steps ih =>
    rw [loopIn] at hl
    split at hl
    next =>
      obtain ⟨rfl, rfl⟩ := Prod.mk.inj (Option.some.inj hl)
      exact ⟨rfl, fun hthrown => by cases hthrown⟩
    next =>
      obtain ⟨hstep, hthrew⟩ := stepIn_rule (fun _ _ => rfl) (fun _ _ _ h h' => h'.trans h) henter
        hcb d code f m
      cases hs : stepIn d cb enter code f m with
      | undefined =>
        rw [hs] at hl
        cases hl
      | done v m₁ =>
        rw [hs] at hl hstep
        obtain ⟨rfl, rfl⟩ := Prod.mk.inj (Option.some.inj hl)
        exact ⟨hstep m₁ rfl, fun hthrown => by cases hthrown⟩
      | threw m₁ => exact (hthrew m₁ hs).elim
      | next f₁ m₁ =>
        rw [hs] at hl hstep
        obtain ⟨hescaped, hending⟩ := ih f₁ hl
        exact ⟨hescaped.trans (hstep m₁ rfl), hending⟩

theorem runWithin_quiet (d : List UInt8) (hcb : cb.Quiet) (n : ℕ) :
    Respects (fun m m' => m'.escaped = m.escaped) False (runWithin d cb n) := by
  refine runWithin_rule (R := fun m m' => m'.escaped = m.escaped) (fun _ => rfl) ?_ n
  intro enter henter code f m m' ending hl
  have hquiet := loopIn_quiet hcb henter _ _ hl
  exact hquiet

/-! ## Callbacks that are functions -/

/-- The callbacks of a host that neither throws nor enters the interpreter again. -/
def Host.callbacks (host : Host σ) : Callbacks σ where
  has := host.has
  answer q s := .ret (host.answer q s).1 (host.answer q s).2

/-- The outcome of an instruction as a step. -/
def Outcome.toStep (o : Outcome σ) (m : Machine σ) : Step σ :=
  match o with
  | .next f s => .next f { m with host := s }
  | .done v s => .done v { m with host := s }
  | .undefined => .undefined

theorem toStep_withState (o : Outcome Unit) (s : σ) (m : Machine σ) :
    (o.withState s).toStep m = o.onMachine { m with host := s } := by
  cases o with
  | next f u => rfl
  | done v u => rfl
  | undefined => rfl

theorem stepIn_callbacks (host : Host σ) (f : Frame) (m : Machine σ) :
    stepIn d host.callbacks enter code f m = (step d host code f m.host).toStep m := by
  have heffect : ∀ e : Effect,
      e.onMachine host.callbacks enter m = (e.perform host m.host).toStep m := by
    intro e
    cases e with
    | plain o => exact (toStep_withState o m.host m).symm
    | call c unset request resume =>
      unfold Effect.onMachine Effect.perform Host.callbacks
      dsimp only
      split
      next =>
        cases request with
        | none => rfl
        | some q => exact (toStep_withState _ _ m).symm
      next => exact (toStep_withState unset m.host m).symm
  unfold stepIn step
  cases d[(insnAddr code f.pc).toNat]? with
  | none => rfl
  | some op =>
    dsimp only
    cases shapeOf op.toNat with
    | none => rfl
    | some shape =>
      dsimp only
      rw [heffect, exec_eq_perform]

/-- With callbacks that are functions, the loop is the one without nested runs. -/
theorem loopIn_callbacks (host : Host σ) (steps : ℕ) (f : Frame) (m : Machine σ) :
    loopIn d host.callbacks enter code steps f m =
      (loop d host code steps f m.host).map fun r =>
        (.value r.1, { m.leave with host := r.2 }) := by
  induction steps generalizing f m with
  | zero => rfl
  | succ steps ih =>
    rw [loopIn, loop]
    split
    next => rfl
    next =>
      rw [stepIn_callbacks]
      cases step d host code f m.host with
      | next f' s' => exact ih f' { m with host := s' }
      | done v s' => rfl
      | undefined => rfl

/-! ## The bound on the nesting -/

section Budget

variable {enter' : Enter σ} {D : ℕ} (hdrift : Respects Drift True enter)
  (hagree : ∀ code args m, D ≤ m.depth → enter code args m = enter' code args m)

include hdrift hagree

theorem Behaviour.perform_congr (b : Behaviour σ) (hm : D ≤ m.depth) :
    b.perform enter m = b.perform enter' m := by
  induction b generalizing m with
  | ret v s => rfl
  | throw s => rfl
  | enter code args s resume ih =>
    rw [perform, perform, ← hagree code args { m with host := s } hm]
    cases hrun : enter code args { m with host := s } with
    | none => rfl
    | some r =>
      have hdepth : m.depth ≤ r.2.depth := (hdrift _ _ _ _ _ hrun).1.depth_le
      exact ih _ _ (by omega)

theorem stepIn_congr (f : Frame) (hm : D ≤ m.depth) :
    stepIn d cb enter code f m = stepIn d cb enter' code f m := by
  have heffect : ∀ e : Effect, e.onMachine cb enter m = e.onMachine cb enter' m := by
    intro e
    cases e with
    | plain o => rfl
    | call c unset request resume =>
      cases request with
      | none => rfl
      | some q =>
        unfold Effect.onMachine
        dsimp only
        rw [Behaviour.perform_congr hdrift hagree _ hm]
  unfold stepIn
  simp only [heffect]

theorem loopIn_congr (steps : ℕ) (f : Frame) (hm : D ≤ m.depth) :
    loopIn d cb enter code steps f m = loopIn d cb enter' code steps f m := by
  induction steps generalizing f m with
  | zero => rfl
  | succ steps ih =>
    rw [loopIn, loopIn, ← stepIn_congr hdrift hagree f hm]
    have hstep := (stepIn_rule Drift.withHost Drift.trans hdrift
      (fun q s => (cb.answer q s).throwsIf_true) d code f m).1
    split
    next => rfl
    next =>
      cases hs : stepIn d cb enter code f m with
      | undefined => rfl
      | done v m₁ => rfl
      | threw m₁ => rfl
      | next f₁ m₁ =>
        rw [hs] at hstep
        exact ih f₁ (hm.trans (hstep m₁ rfl).depth_le)

end Budget

/-- More nesting than the depth limit allows makes no difference. -/
theorem runWithin_succ (d : List UInt8) (cb : Callbacks σ) (n : ℕ) (code : Code)
    (args : List (BitVec 64)) (m : Machine σ) (hn : kMaxDepth ≤ n + m.depth) :
    runWithin d cb (n + 1) code args m = runWithin d cb n code args m := by
  induction n generalizing code args m with
  | zero =>
    simp only [runWithin]
    exact if_pos (.inr (by omega))
  | succ n ih =>
    rw [runWithin, runWithin]
    split
    next => rfl
    next =>
      cases entryRegs code args with
      | none => rfl
      | some regs =>
        refine loopIn_congr (D := m.depth + 1) (runWithin_drift d cb _) ?_ _ _ le_rfl
        intro code args m₁ hm₁
        exact ih code args m₁ (by omega)

/-- A run of `Dalvik::run`, whose callbacks enter it again without a bound of their own. -/
theorem runIn_eq (d : List UInt8) (cb : Callbacks σ) (code : Code) (args : List (BitVec 64))
    (m : Machine σ) :
    runIn d cb code args m =
      if !code.valid ∨ kMaxDepth ≤ m.depth then some (.value 0, m)
      else
        (entryRegs code args).bind fun regs =>
          loopIn d cb (runIn d cb) code kMaxSteps ⟨regs, 0, 0⟩ { m with depth := m.depth + 1 } := by
  rw [runIn, ← runWithin_succ d cb kMaxDepth code args m (by omega), runWithin]
  cases entryRegs code args with
  | none => rfl
  | some regs => rfl

/-- With callbacks that are functions, a run is the one without nested runs. -/
theorem runIn_callbacks (d : List UInt8) (host : Host σ) (code : Code) (args : List (BitVec 64))
    (m : Machine σ) :
    runIn d host.callbacks code args m =
      (run d host m.depth code args m.host).map fun r => (.value r.1, { m with host := r.2 }) := by
  rw [runIn_eq, run]
  split
  next => rfl
  next =>
    cases entryRegs code args with
    | none => rfl
    | some regs => exact loopIn_callbacks host _ _ _

end Vardoger.Dalvik
