import Vardoger.Dex.Reentry
import Vardoger.Jni.Invoke

/-!
# Lifecycle runs and the depth limit

`LifecycleRunner::run` looks up a method and interprets it; an exception is reported and becomes the
result zero. The interpreter lives as long as the runner, so a level of its depth that an exception
leaves behind is gone for all later runs. After as many exceptions as there are levels, every run is
refused.
-/

namespace Vardoger.LifecycleRunner

open Dex Bytes LittleEndian Dalvik

/-- The arguments of a call of `LifecycleRunner::run`. -/
structure LifecycleCall where
  classDesc : List UInt8
  method : List UInt8
  shorty : List UInt8
  args : List (BitVec 64)

variable {σ : Type*}

def run (f : DexFile) (cb : Callbacks σ) (c : LifecycleCall) (m : Machine σ) :
    Option (BitVec 64 × Machine σ) :=
  let co := findCode f c.classDesc c.method c.shorty
  if co = 0 then some (0, m)
  else
    match runIn f.data cb (f.codeAt co) c.args m with
    | none => none
    | some (.value v, m') => some (v, m')
    | some (.thrown, m') => some (0, m')

/-- The state after a sequence of calls. -/
def runs (f : DexFile) (cb : Callbacks σ) (calls : List LifecycleCall) (m : Machine σ) :
    Option (Machine σ) :=
  calls.foldlM (fun m c => (run f cb c m).map Prod.snd) m

variable {f : DexFile} {cb : Callbacks σ} {m m' : Machine σ}

/-- What holds of every run of the interpreter holds of a call. -/
theorem run_rule {R : Machine σ → Machine σ → Prop} {T : Prop} (hrefl : ∀ m, R m m)
    (hrun : Respects R T (runIn f.data cb)) {c : LifecycleCall} {v : BitVec 64}
    (h : run f cb c m = some (v, m')) : R m m' := by
  unfold run at h
  dsimp only at h
  split at h
  next =>
    obtain ⟨-, rfl⟩ := Prod.mk.inj (Option.some.inj h)
    exact hrefl m
  next =>
    cases hin : runIn f.data cb (f.codeAt (findCode f c.classDesc c.method c.shorty)) c.args m with
    | none =>
      rw [hin] at h
      cases h
    | some r =>
      obtain ⟨ending, m₁⟩ := r
      have hR := (hrun _ _ _ _ _ hin).1
      cases ending with
      | value v =>
        rw [hin] at h
        obtain ⟨-, rfl⟩ := Prod.mk.inj (Option.some.inj h)
        exact hR
      | thrown =>
        rw [hin] at h
        obtain ⟨-, rfl⟩ := Prod.mk.inj (Option.some.inj h)
        exact hR

/-- What holds of every run of the interpreter holds of a sequence of calls. -/
theorem runs_rule {R : Machine σ → Machine σ → Prop} {T : Prop} (hrefl : ∀ m, R m m)
    (htrans : ∀ m m' m'', R m m' → R m' m'' → R m m'') (hrun : Respects R T (runIn f.data cb))
    {calls : List LifecycleCall} (h : runs f cb calls m = some m') : R m m' := by
  induction calls generalizing m with
  | nil => exact Option.some.inj h ▸ hrefl m
  | cons c calls ih =>
    rw [runs, List.foldlM_cons] at h
    obtain ⟨m₁, hfirst, hrest⟩ := Option.bind_eq_some_iff.mp h
    obtain ⟨r, hr, rfl⟩ := Option.map_eq_some_iff.mp hfirst
    exact htrans _ _ _ (run_rule hrefl hrun hr) (ih hrest)

/-- A run of the interpreter keeps its depth exactly if no exception leaves an activation in it. If
no callback throws, then the depth is zero after every sequence of calls, and no run is refused. -/
theorem depth_balanced (f : DexFile) (cb : Callbacks σ) :
    (∀ code args m ending m', runIn f.data cb code args m = some (ending, m') →
        (m'.depth = m.depth ↔ m'.escaped = m.escaped)) ∧
      (cb.Quiet → (∀ code args m ending m', runIn f.data cb code args m = some (ending, m') →
          m'.depth = m.depth) ∧
        ∀ calls s m, runs f cb calls ⟨s, 0, 0⟩ = some m → m.depth = 0 ∧ m.depth < kMaxDepth) := by
  have hdrift := runWithin_drift f.data cb kMaxDepth
  refine ⟨fun code args m ending m' h => ?_, fun hcb => ⟨fun code args m ending m' h => ?_,
    fun calls s m h => ?_⟩⟩
  · have heq := (hdrift _ _ _ _ _ h).1.depth_eq
    omega
  · have heq := (hdrift _ _ _ _ _ h).1.depth_eq
    have hescaped := (runWithin_quiet f.data hcb kMaxDepth _ _ _ _ _ h).1
    dsimp only at hescaped
    omega
  · have heq := (runs_rule (fun m => Drift.withHost m m.host) Drift.trans hdrift h).depth_eq
    have hescaped : m.escaped = 0 :=
      runs_rule (R := fun m m' => m'.escaped = m.escaped) (fun _ => rfl)
        (fun _ _ _ h h' => h'.trans h) (runWithin_quiet f.data hcb kMaxDepth) h
    dsimp only at heq
    unfold kMaxDepth
    omega

/-- A file with one method, which reads a static field and returns. -/
def sgetDex : DexFile where
  data := List.replicate 4 0 ++ toBytes 2 1 ++ List.replicate 10 0 ++ toBytes 4 3 ++
    [0x60, 0, 0, 0, 0x0e, 0]
  stringIds := ⟨0, 0⟩
  typeIds := ⟨0, 0⟩
  protoIds := ⟨0, 0⟩
  fieldIds := ⟨0, 0⟩
  methodIds := ⟨0, 0⟩
  classDefs := ⟨0, 0⟩
  classes := [{
    descriptor := ascii "LA;"
    superclass := []
    access := 0
    classDataOff := 0
    directMethods := [{ name := ascii "f", sig := ascii "V", codeOff := 4 }]
    virtualMethods := [] }]

def sgetCall : LifecycleCall := ⟨ascii "LA;", ascii "f", ascii "V", []⟩

theorem depth_balanced_sgetDex :
    ∃ m, runs sgetDex ⟨fun _ => true, fun _ s => .ret 7 s⟩ [sgetCall, sgetCall] ⟨(), 0, 0⟩ =
      some m ∧ m.depth = 0 := by
  have hruns : runs sgetDex ⟨fun _ => true, fun _ s => .ret 7 s⟩ [sgetCall, sgetCall] ⟨(), 0, 0⟩ =
      some ⟨(), 0, 0⟩ := by decide +kernel
  have hquiet : Callbacks.Quiet (σ := Unit) ⟨fun _ => true, fun _ s => .ret 7 s⟩ :=
    fun _ s => .ret 7 s
  exact ⟨_, hruns, (((depth_balanced sgetDex _).2 hquiet).2 _ _ _ hruns).1⟩

/-- A callback that throws leaves a level behind; after 64 of them a run does nothing. -/
theorem depth_leaks :
    runs sgetDex ⟨fun _ => true, fun _ s => .throw s⟩ [sgetCall] ⟨(), 0, 0⟩ = some ⟨(), 1, 1⟩ ∧
      runs sgetDex ⟨fun _ => true, fun _ s => .throw s⟩ (List.replicate 64 sgetCall) ⟨(), 0, 0⟩ =
        some ⟨(), 64, 64⟩ ∧
      run sgetDex ⟨fun _ => true, fun _ s => .throw s⟩ sgetCall ⟨(), 64, 64⟩ =
        some (0, ⟨(), 64, 64⟩) := by
  decide +kernel

end Vardoger.LifecycleRunner
