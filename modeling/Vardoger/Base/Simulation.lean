import Mathlib.Data.Nat.Notation
import Mathlib.Order.Basic

/-!
# Machines that halt, and loops that simulate them

A machine is a partial step function whose steps lead to the next state or to a result. A loop with
a bounded number of passes simulates it if each pass follows a step; it then gives the result of
every run that is not longer than the bound.
-/

namespace Simulation

variable {S V T W : Type*}

/-- What a step leads to. -/
inductive Next (S V : Type*)
  | next (s : S)
  | done (v : V)

/-- The result of a run of at most `n` steps. -/
def runFor (step : S → Option (Next S V)) : ℕ → S → Option V
  | 0, _ => none
  | n + 1, s =>
      match step s with
      | none => none
      | some (.done v) => some v
      | some (.next s') => runFor step n s'

/-- A condition holds in every state that the first `n` steps start from. -/
def Throughout (step : S → Option (Next S V)) (D : S → Prop) : ℕ → S → Prop
  | 0, _ => True
  | n + 1, s => D s ∧ ∀ s', step s = some (.next s') → Throughout step D n s'

/-- A loop that follows the steps from related states gives the result of the machine. -/
theorem eq_of_runFor {step : S → Option (Next S V)} {D : S → Prop} {R : S → T → Prop}
    (loop : ℕ → T → W) (out : V → W)
    (hdone : ∀ s t v n, R s t → D s → step s = some (.done v) → loop (n + 1) t = out v)
    (hnext : ∀ s t s', R s t → D s → step s = some (.next s') →
      ∃ t', R s' t' ∧ ∀ n, loop (n + 1) t = loop n t')
    {n bound : ℕ} {s : S} {t : T} {v : V} (hrun : runFor step n s = some v)
    (hD : Throughout step D n s) (hR : R s t) (hn : n ≤ bound) : loop bound t = out v := by
  induction n generalizing s t bound with
  | zero => exact nomatch hrun
  | succ n ih =>
    obtain ⟨bound, rfl⟩ : ∃ k, bound = k + 1 := Nat.exists_eq_add_one.mpr (by omega)
    rw [runFor] at hrun
    split at hrun
    · exact nomatch hrun
    · next w hstep =>
      obtain rfl := Option.some.inj hrun
      exact hdone s t w bound hR hD.1 hstep
    · next s' hstep =>
      obtain ⟨t', hR', hloop⟩ := hnext s t s' hR hD.1 hstep
      rw [hloop]
      exact ih hrun (hD.2 s' hstep) hR' (by omega)

end Simulation
