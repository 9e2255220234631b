import Vardoger.Base.Stateful

/-!
# Two runs side by side

Two computations from related states are *coupled* if both return the same value or both throw the
same exception, and leave related states behind. This is how a property of two runs is proved:
a relation between the states is established once and kept by every step.
-/

namespace Stateful

variable {ε σ α β : Type} {R S T : σ → σ → Prop}

/-- Two results with the same outcome and related states. -/
inductive Coupled (R : σ → σ → Prop) :
    EStateM.Result ε σ α → EStateM.Result ε σ α → Prop
  | ok (a : α) {s s' : σ} : R s s' → Coupled R (.ok a s) (.ok a s')
  | error (err : ε) {s s' : σ} : R s s' → Coupled R (.error err s) (.error err s')

/-- From states related by `R`, the computation has coupled results in states related by `S`. -/
def Couples (R S : σ → σ → Prop) (x : EStateM ε σ α) : Prop :=
  ∀ s s', R s s' → Coupled S (x s) (x s')

/-- What a computation returned or threw. -/
def outcome : EStateM.Result ε σ α → Except ε α
  | .ok a _ => .ok a
  | .error err _ => .error err

theorem Coupled.outcome_eq {x y : EStateM.Result ε σ α} (h : Coupled R x y) :
    outcome x = outcome y := by
  cases h with
  | ok => rfl
  | error => rfl

theorem Coupled.final {x y : EStateM.Result ε σ α} (h : Coupled R x y) :
    R (final x) (final y) := by
  cases h with
  | ok a h => exact h
  | error err h => exact h

theorem couples_pure (a : α) : Couples R R (pure a : EStateM ε σ α) := fun _ _ h => .ok a h

theorem couples_modify {f : σ → σ} (h : ∀ s s', R s s' → S (f s) (f s')) :
    Couples R S (modify f : EStateM ε σ PUnit) := by
  intro s s' hs
  change Coupled S (.ok PUnit.unit (f s)) (.ok PUnit.unit (f s'))
  exact .ok _ (h s s' hs)

/-- Either both return or both throw. -/
theorem Coupled.elim {x y : EStateM.Result ε σ α} (h : Coupled R x y) :
    (∃ a t t', x = .ok a t ∧ y = .ok a t' ∧ R t t') ∨
      ∃ err t t', x = .error err t ∧ y = .error err t' ∧ R t t' := by
  cases h with
  | ok a h => exact .inl ⟨a, _, _, rfl, rfl, h⟩
  | error err h => exact .inr ⟨err, _, _, rfl, rfl, h⟩

/-- After coupled first parts, a sequence goes on in related states or ends. -/
theorem Coupled.bind {x : EStateM ε σ α} {f : α → EStateM ε σ β} {s s' : σ}
    (hx : Coupled S (x s) (x s')) (hf : ∀ a, Couples S T (f a)) (hST : ∀ s s', S s s' → T s s') :
    Coupled T ((x >>= f) s) ((x >>= f) s') := by
  obtain ⟨a, t, t', hxs, hxs', h⟩ | ⟨err, t, t', hxs, hxs', h⟩ := hx.elim
  · rw [bind_ok hxs, bind_ok hxs']
    exact hf a t t' h
  · rw [bind_error hxs, bind_error hxs']
    exact .error err (hST t t' h)

/-- A handler goes on from related states with the same exception. -/
theorem Coupled.tryCatch {x : EStateM ε σ α} {handler : ε → EStateM ε σ α} {s s' : σ}
    (hx : Coupled S (x s) (x s')) (hhandler : ∀ err, Couples S S (handler err)) :
    Coupled S ((tryCatch x handler) s) ((tryCatch x handler) s') := by
  obtain ⟨a, t, t', hxs, hxs', h⟩ | ⟨err, t, t', hxs, hxs', h⟩ := hx.elim
  · rw [tryCatch_ok hxs, tryCatch_ok hxs']
    exact .ok a h
  · rw [tryCatch_error hxs, tryCatch_error hxs']
    exact hhandler err t t' h

end Stateful
