import Mathlib.Logic.Basic

/-!
# Runs of a partial step function

A labelled transition system is a function that sends a state and an action to the next state, or to
nothing where the action is not possible. This file says what it means that every step of a
finite run has a property and that every state on the way has one, and gives the rule by which
a safety property of the states is equivalent to a condition on the steps.
-/

namespace Runs

variable {σ α : Type*} (step : σ → α → Option σ)

/-- Every action of the list is possible in its turn, and is taken where `P` allows it. -/
def Steps (P : σ → α → Prop) : σ → List α → Prop
  | _, [] => True
  | s, a :: acts => P s a ∧ ∃ s', step s a = some s' ∧ Steps P s' acts

/-- Every state on the way, the first and the last included, satisfies `Q`. -/
def Visits (Q : σ → Prop) : σ → List α → Prop
  | s, [] => Q s
  | s, a :: acts => Q s ∧ ∀ s', step s a = some s' → Visits Q s' acts

variable {step} {I Q : σ → Prop} {D G : σ → α → Prop}

theorem Visits.head {s : σ} {acts : List α} (h : Visits step Q s acts) : Q s := by
  cases acts with
  | nil => exact h
  | cons a acts => exact h.1

/-- If an invariant implies `Q`, survives the good steps and every other step breaks `Q`, then the
runs on which `Q` always holds are exactly those made of good steps. -/
theorem visits_iff_steps (hsafe : ∀ s, I s → Q s)
    (hkeep : ∀ s a s', I s → D s a → G s a → step s a = some s' → I s')
    (hbreak : ∀ s a s', I s → D s a → ¬G s a → step s a = some s' → ¬Q s')
    {s : σ} {acts : List α} (hs : I s) (hrun : Steps step D s acts) :
    Visits step Q s acts ↔ Steps step G s acts := by
  induction acts generalizing s with
  | nil => exact ⟨fun _ => trivial, fun _ => hsafe s hs⟩
  | cons a acts ih =>
    obtain ⟨hD, s', hstep, hrest⟩ := hrun
    constructor
    · rintro ⟨-, hvisits⟩
      have hnext := hvisits s' hstep
      have hG : G s a := Classical.byContradiction fun hbad =>
        hbreak s a s' hs hD hbad hstep hnext.head
      exact ⟨hG, s', hstep, (ih (hkeep s a s' hs hD hG hstep) hrest).mp hnext⟩
    · rintro ⟨hG, t, ht, hsteps⟩
      obtain rfl : s' = t := Option.some.inj (hstep.symm.trans ht)
      refine ⟨hsafe s hs, fun u hu => ?_⟩
      obtain rfl : s' = u := Option.some.inj (hstep.symm.trans hu)
      exact (ih (hkeep s a s' hs hD hG hstep) hrest).mpr hsteps

/-- Every step of a run from a state with an invariant that all steps keep is one from such a
state, so two conditions that agree on those agree on the run. -/
theorem steps_iff_of_invariant (hkeep : ∀ s a s', I s → step s a = some s' → I s')
    (h : ∀ s a s', I s → step s a = some s' → (D s a ↔ G s a)) {s : σ} {acts : List α} (hs : I s) :
    Steps step D s acts ↔ Steps step G s acts := by
  induction acts generalizing s with
  | nil => exact Iff.rfl
  | cons a acts ih =>
    constructor
    · rintro ⟨hD, s', hstep, hrest⟩
      exact ⟨(h s a s' hs hstep).mp hD, s', hstep, (ih (hkeep s a s' hs hstep)).mp hrest⟩
    · rintro ⟨hG, s', hstep, hrest⟩
      exact ⟨(h s a s' hs hstep).mpr hG, s', hstep, (ih (hkeep s a s' hs hstep)).mpr hrest⟩

/-- The same for a run of steps that meet a third condition, which keep the invariant. -/
theorem Steps.iff_of_kept {E : σ → α → Prop}
    (hkeep : ∀ s a s', I s → E s a → step s a = some s' → I s')
    (h : ∀ s a s', I s → E s a → step s a = some s' → (D s a ↔ G s a)) {s : σ} {acts : List α}
    (hs : I s) (hrun : Steps step E s acts) : Steps step D s acts ↔ Steps step G s acts := by
  induction acts generalizing s with
  | nil => exact Iff.rfl
  | cons a acts ih =>
    obtain ⟨hE, s', hstep, hrest⟩ := hrun
    have htail := ih (hkeep s a s' hs hE hstep) hrest
    constructor
    · rintro ⟨hD, t, ht, hsteps⟩
      obtain rfl := Option.some.inj (hstep.symm.trans ht)
      exact ⟨(h s a s' hs hE hstep).mp hD, s', hstep, htail.mp hsteps⟩
    · rintro ⟨hG, t, ht, hsteps⟩
      obtain rfl := Option.some.inj (hstep.symm.trans ht)
      exact ⟨(h s a s' hs hE hstep).mpr hG, s', hstep, htail.mpr hsteps⟩

/-- If the steps that meet one condition keep an invariant and, from a state that has it, meet
a second condition, then a run of steps that meet the first meets the second throughout. -/
theorem Steps.imp (hkeep : ∀ s a s', I s → D s a → step s a = some s' → I s' ∧ G s a) {s : σ}
    {acts : List α} (hs : I s) (h : Steps step D s acts) : Steps step G s acts := by
  induction acts generalizing s with
  | nil => trivial
  | cons a acts ih =>
    obtain ⟨hD, s', hstep, hrest⟩ := h
    obtain ⟨hs', hG⟩ := hkeep s a s' hs hD hstep
    exact ⟨hG, s', hstep, ih hs' hrest⟩

/-- What every step keeps holds at the end of every run. -/
theorem foldlM_keeps (hkeep : ∀ s a s', I s → step s a = some s' → I s') {s s' : σ}
    {acts : List α} (hs : I s) (hrun : acts.foldlM step s = some s') : I s' := by
  induction acts generalizing s with
  | nil =>
    obtain rfl : s = s' := Option.some.inj hrun
    exact hs
  | cons a acts ih =>
    obtain ⟨t, ht, hrest⟩ := Option.bind_eq_some_iff.mp hrun
    exact ih (hkeep s a t hs ht) hrest

/-- The condition on the last step of a run. -/
theorem Steps.last {s s' : σ} {acts : List α} {a : α} (h : Steps step D s (acts ++ [a]))
    (hrun : acts.foldlM step s = some s') : D s' a := by
  induction acts generalizing s with
  | nil =>
    obtain rfl : s = s' := Option.some.inj hrun
    exact h.1
  | cons b acts ih =>
    obtain ⟨t, ht, hrest⟩ := Option.bind_eq_some_iff.mp hrun
    obtain ⟨-, u, hu, hsteps⟩ := h
    obtain rfl := Option.some.inj (ht.symm.trans hu)
    exact ih hsteps hrest

/-- Two conditions that agree on every step agree on every run. -/
theorem steps_congr (h : ∀ s a, D s a ↔ G s a) (s : σ) (acts : List α) :
    Steps step D s acts ↔ Steps step G s acts := by
  have hDG : D = G := funext fun s => funext fun a => propext (h s a)
  rw [hDG]

/-- Where every action is possible, a run goes on from the state that its first action leads to. -/
theorem steps_cons_some {next : σ → α → σ} {s : σ} {a : α} {acts : List α} :
    Steps (fun s a => some (next s a)) D s (a :: acts) ↔
      D s a ∧ Steps (fun s a => some (next s a)) D (next s a) acts := by
  constructor
  · rintro ⟨hD, s', hs', hrest⟩
    obtain rfl := Option.some.inj hs'
    exact ⟨hD, hrest⟩
  · rintro ⟨hD, hrest⟩
    exact ⟨hD, next s a, rfl, hrest⟩

/-- A run is checked by making it. -/
instance decidableSteps [∀ s a, Decidable (D s a)] :
    (s : σ) → (acts : List α) → Decidable (Steps step D s acts)
  | _, [] => isTrue trivial
  | s, a :: acts =>
      match h : step s a with
      | none => isFalse fun hrun => by
          obtain ⟨-, s', hstep, -⟩ := hrun
          cases h.symm.trans hstep
      | some t =>
          have := decidableSteps t acts
          decidable_of_iff (D s a ∧ Steps step D t acts)
            ⟨fun hrun => ⟨hrun.1, t, h, hrun.2⟩, fun hrun => by
              obtain ⟨hD, s', hstep, hrest⟩ := hrun
              obtain rfl := Option.some.inj (h.symm.trans hstep)
              exact ⟨hD, hrest⟩⟩

/-- The last state of a run is one of the visited ones. -/
theorem Visits.last {s s' : σ} {acts : List α} (h : Visits step Q s acts)
    (hrun : acts.foldlM step s = some s') : Q s' := by
  induction acts generalizing s with
  | nil =>
    obtain rfl : s = s' := Option.some.inj hrun
    exact h
  | cons a acts ih =>
    obtain ⟨t, ht, hrest⟩ := Option.bind_eq_some_iff.mp hrun
    exact ih (h.2 t ht) hrest

end Runs
