import Mathlib.Order.Basic

/-!
# What a stateful computation can do to its state

A computation in `EStateM` ends in a state whether it returns or throws. `Moves R x` says that this
final state is related by `R` to the initial one. For a preorder `R` the relation composes along
every control structure, so a fact about a whole operation reduces to its primitive updates.
-/

namespace Stateful

variable {ε σ α β : Type}

/-- The state at the end of a computation, thrown or not. -/
def final : EStateM.Result ε σ α → σ
  | .ok _ s => s
  | .error _ s => s

/-- After a first part that returns, a sequence continues from where it ended. -/
theorem bind_ok {x : EStateM ε σ α} {f : α → EStateM ε σ β} {s s' : σ} {a : α}
    (h : x s = .ok a s') : (x >>= f) s = f a s' := by
  change EStateM.bind x f s = _
  simp only [EStateM.bind, h]

/-- A sequence whose first part throws ends there. -/
theorem bind_error {x : EStateM ε σ α} {f : α → EStateM ε σ β} {s s' : σ} {err : ε}
    (h : x s = .error err s') : (x >>= f) s = .error err s' := by
  change EStateM.bind x f s = _
  simp only [EStateM.bind, h]

/-- A sequence that returns is one whose two parts return. -/
theorem of_bind_ok {x : EStateM ε σ α} {f : α → EStateM ε σ β} {s s' : σ} {b : β}
    (h : (x >>= f) s = .ok b s') : ∃ a t, x s = .ok a t ∧ f a t = .ok b s' := by
  cases hx : x s with
  | ok a t => exact ⟨a, t, rfl, (bind_ok hx).symm.trans h⟩
  | error err t =>
    rw [bind_error hx] at h
    cases h

/-- A computation returns under a function what it returns. -/
theorem of_map_ok {f : α → β} {x : EStateM ε σ α} {s s' : σ} {b : β}
    (h : (f <$> x) s = .ok b s') : ∃ a, x s = .ok a s' ∧ f a = b := by
  change EStateM.map f x s = _ at h
  unfold EStateM.map at h
  split at h
  next a t hx =>
    obtain ⟨rfl, rfl⟩ := EStateM.Result.ok.inj h
    exact ⟨a, hx, rfl⟩
  · cases h

/-- Without a state: a sequence whose first part returns goes on. -/
theorem except_bind_ok {x : Except ε α} {f : α → Except ε β} {a : α} (h : x = .ok a) :
    (x >>= f) = f a := by
  rw [h]
  rfl

/-- What follows both branches of a conditional follows the conditional. -/
theorem ite_bind {p : Prop} [Decidable p] (x y : EStateM ε σ α) (f : α → EStateM ε σ β) :
    (if p then x >>= f else y >>= f) = (if p then x else y) >>= f :=
  (apply_ite (· >>= f) p x y).symm

/-- Reading the state passes it on. -/
theorem get_bind (f : σ → EStateM ε σ β) (s : σ) : ((get : EStateM ε σ σ) >>= f) s = f s s := rfl

/-- An update passes the new state on. -/
theorem modify_bind (g : σ → σ) (f : PUnit → EStateM ε σ β) (s : σ) :
    ((modify g : EStateM ε σ PUnit) >>= f) s = f ⟨⟩ (g s) := rfl

theorem final_modify (g : σ → σ) (s : σ) : final ((modify g : EStateM ε σ PUnit) s) = g s := rfl

/-- A loop runs its body for the first element and goes on. -/
theorem forM_cons_apply (b : β) (xs : List β) (f : β → EStateM ε σ PUnit) (s : σ) :
    (b :: xs).forM f s = (f b >>= fun _ => xs.forM f) s := rfl

/-- A loop whose body only acts on some elements is the loop over these. -/
theorem forM_filter_apply (p : β → Bool) (f : β → EStateM ε σ PUnit) (xs : List β) (s : σ) :
    xs.forM (fun b => if p b then f b else pure ⟨⟩) s = (xs.filter p).forM f s := by
  induction xs generalizing s with
  | nil => rfl
  | cons b xs ih =>
    rw [forM_cons_apply, List.filter_cons]
    by_cases hb : p b
    · rw [if_pos hb, if_pos hb, forM_cons_apply]
      cases hf : f b s with
      | ok u t => rw [bind_ok hf, bind_ok hf, ih]
      | error err t => rw [bind_error hf, bind_error hf]
    · rw [if_neg hb, if_neg hb]
      exact ih s

theorem forM_map_apply {γ : Type} (g : γ → β) (f : β → EStateM ε σ PUnit) (xs : List γ) (s : σ) :
    (xs.map g).forM f s = xs.forM (fun c => f (g c)) s := by
  induction xs generalizing s with
  | nil => rfl
  | cons c xs ih =>
    rw [List.map_cons, forM_cons_apply, forM_cons_apply]
    cases hf : f (g c) s with
    | ok u t => rw [bind_ok hf, bind_ok hf, ih]
    | error err t => rw [bind_error hf, bind_error hf]

/-- A loop over two lists is the loop over the first and then the one over the second. -/
theorem forM_append_eq (xs ys : List β) (f : β → EStateM ε σ PUnit) :
    (xs ++ ys).forM f = (xs.forM f >>= fun _ => ys.forM f) := by
  induction xs with
  | nil => rfl
  | cons b xs ih =>
    change (f b >>= fun _ => (xs ++ ys).forM f) = (f b >>= fun _ => xs.forM f) >>= _
    rw [ih, bind_assoc]

/-- A loop goes on behind a part of it that returns. -/
theorem forM_append_ok {xs ys : List β} {f : β → EStateM ε σ PUnit} {s s' : σ}
    (h : xs.forM f s = .ok ⟨⟩ s') : (xs ++ ys).forM f s = ys.forM f s' := by
  induction xs generalizing s with
  | nil =>
    obtain ⟨-, rfl⟩ := EStateM.Result.ok.inj h
    rfl
  | cons b xs ih =>
    rw [forM_cons_apply] at h
    obtain ⟨u, t, hfirst, hrest⟩ := of_bind_ok h
    rw [List.cons_append, forM_cons_apply, bind_ok hfirst, ih hrest]

/-- The last round of a loop that returns. -/
theorem of_forM_concat_ok {xs : List β} {x : β} {f : β → EStateM ε σ PUnit} {s s' : σ}
    (h : (xs ++ [x]).forM f s = .ok ⟨⟩ s') :
    ∃ t, xs.forM f s = .ok ⟨⟩ t ∧ f x t = .ok ⟨⟩ s' := by
  induction xs generalizing s with
  | nil =>
    rw [List.nil_append, forM_cons_apply] at h
    obtain ⟨u, t, hlast, hend⟩ := of_bind_ok h
    obtain ⟨-, rfl⟩ := EStateM.Result.ok.inj hend
    exact ⟨s, rfl, hlast⟩
  | cons b xs ih =>
    rw [List.cons_append, forM_cons_apply] at h
    obtain ⟨u, t, hfirst, hrest⟩ := of_bind_ok h
    obtain ⟨t', hfront, hlast⟩ := ih hrest
    exact ⟨t', by rw [forM_cons_apply, bind_ok hfirst, hfront], hlast⟩

/-- In a loop that returns, the body returned at every element, from a state with each property that
the body keeps. -/
theorem forM_ok_at {I : σ → Prop} {xs : List β} {f : β → EStateM ε σ PUnit} {s s' : σ} {x : β}
    (hkeep : ∀ y t, I t → I (final (f y t))) (hs : I s) (h : xs.forM f s = .ok ⟨⟩ s')
    (hx : x ∈ xs) : ∃ t t', I t ∧ f x t = .ok ⟨⟩ t' := by
  induction xs generalizing s with
  | nil => cases hx
  | cons b xs ih =>
    rw [forM_cons_apply] at h
    obtain ⟨u, t, hfirst, hrest⟩ := of_bind_ok h
    obtain rfl | hmem := List.mem_cons.mp hx
    · exact ⟨s, t, hs, hfirst⟩
    · have hnext := hkeep b s hs
      rw [hfirst] at hnext
      exact ih hnext hrest hmem

/-- A handler is not consulted by a computation that returns. -/
theorem tryCatch_ok {x : EStateM ε σ α} {handler : ε → EStateM ε σ α} {s s' : σ} {a : α}
    (h : x s = .ok a s') : (tryCatch x handler) s = .ok a s' := by
  change EStateM.tryCatch x handler s = _
  rw [EStateM.tryCatch, h]

/-- A handler continues from the state in which the exception was thrown. -/
theorem tryCatch_error {x : EStateM ε σ α} {handler : ε → EStateM ε σ α} {s s' : σ} {err : ε}
    (h : x s = .error err s') : (tryCatch x handler) s = handler err s' := by
  change EStateM.tryCatch x handler s = _
  rw [EStateM.tryCatch, h]
  rfl

/-- A computation on a part of the state. -/
def focus {τ : Type} (part : σ → τ) (put : τ → σ → σ) (x : EStateM ε τ α) : EStateM ε σ α :=
  fun s =>
    match x (part s) with
    | .ok a t => .ok a (put t s)
    | .error err t => .error err (put t s)

theorem focus_ok {τ : Type} {part : σ → τ} {put : τ → σ → σ} {x : EStateM ε τ α} {s : σ} {t : τ}
    {a : α} (h : x (part s) = .ok a t) : focus part put x s = .ok a (put t s) := by
  rw [focus, h]

theorem focus_error {τ : Type} {part : σ → τ} {put : τ → σ → σ} {x : EStateM ε τ α} {s : σ} {t : τ}
    {err : ε} (h : x (part s) = .error err t) : focus part put x s = .error err (put t s) := by
  rw [focus, h]

/-- Every run of `x` relates its initial to its final state. -/
def Moves (R : σ → σ → Prop) (x : EStateM ε σ α) : Prop := ∀ s, R s (final (x s))

variable {R : σ → σ → Prop}

theorem moves_pure [Std.Refl R] (a : α) : Moves R (pure a : EStateM ε σ α) := fun s => refl_of R s

theorem moves_get [Std.Refl R] : Moves R (get : EStateM ε σ σ) := fun s => refl_of R s

theorem moves_throw [Std.Refl R] (err : ε) : Moves R (throw err : EStateM ε σ α) :=
  fun s => refl_of R s

/-- A sequence whose first part is known to start in `s` moves `s` as the two parts do. -/
theorem related_bind [IsTrans σ R] {x : EStateM ε σ α} {f : α → EStateM ε σ β} {s : σ}
    (hx : R s (final (x s))) (hf : ∀ a, Moves R (f a)) : R s (final ((x >>= f) s)) := by
  cases h : x s with
  | ok a s' =>
    rw [h] at hx
    rw [bind_ok h]
    exact trans_of R hx (hf a s')
  | error err s' =>
    rw [h] at hx
    rwa [bind_error h]

/-- A sequence moves the state as its two parts do. -/
theorem moves_bind [IsTrans σ R] {x : EStateM ε σ α} {f : α → EStateM ε σ β}
    (hx : Moves R x) (hf : ∀ a, Moves R (f a)) : Moves R (x >>= f) := by
  intro s
  exact related_bind (hx s) hf

theorem moves_map {f : α → β} {x : EStateM ε σ α} (hx : Moves R x) : Moves R (f <$> x) := by
  intro s
  have hmoves := hx s
  change R s (final (EStateM.map f x s))
  unfold EStateM.map
  split
  next a t h => rwa [h] at hmoves
  next err t h => rwa [h] at hmoves

/-- A handler moves the state on from where the exception left it. -/
theorem moves_tryCatch [IsTrans σ R] {x : EStateM ε σ α} {handler : ε → EStateM ε σ α}
    (hx : Moves R x) (hhandler : ∀ err, Moves R (handler err)) :
    Moves R (tryCatch x handler) := by
  intro s
  have hfirst := hx s
  cases h : x s with
  | ok a s' =>
    rw [h] at hfirst
    rw [tryCatch_ok h]
    exact hfirst
  | error err s' =>
    rw [h] at hfirst
    rw [tryCatch_error h]
    exact trans_of R hfirst (hhandler err s')

/-- A loop moves the state as each of its iterations does. -/
theorem moves_forM [Std.Refl R] [IsTrans σ R] {xs : List β} {f : β → EStateM ε σ PUnit}
    (hf : ∀ b ∈ xs, Moves R (f b)) :
    Moves R (xs.forM f) := by
  induction xs with
  | nil => exact moves_pure _
  | cons b xs ih =>
    exact moves_bind (hf b (by simp)) fun _ => ih fun c hc => hf c (by simp [hc])

/-- An update moves the state by the function it applies. -/
theorem moves_modify {f : σ → σ} (h : ∀ s, R s (f s)) :
    Moves R (modify f : EStateM ε σ PUnit) := h

/-- An update that also returns a value moves the state by its second component. -/
theorem moves_modifyGet {f : σ → α × σ} (h : ∀ s, R s (f s).2) :
    Moves R (modifyGet f : EStateM ε σ α) := h

/-- A conditional moves the state as both branches do. -/
theorem moves_ite {p : Prop} [Decidable p] {x y : EStateM ε σ α}
    (hx : Moves R x) (hy : Moves R y) : Moves R (if p then x else y) := by
  split
  · exact hx
  · exact hy

/-- A computation behind an optional first action moves the state as the two do. -/
theorem moves_when [IsTrans σ R] {p : Prop} [Decidable p] {y : EStateM ε σ PUnit}
    {x : PUnit → EStateM ε σ α} (hy : Moves R y) (hx : ∀ u, Moves R (x u)) :
    Moves R (if p then y >>= x else x ⟨⟩) :=
  moves_ite (moves_bind hy hx) (hx ⟨⟩)

/-- A computation behind a check that may throw moves the state as it does without the check. -/
theorem moves_check [Std.Refl R] [IsTrans σ R] {p : Prop} [Decidable p] {err : ε}
    {x : PUnit → EStateM ε σ α} (hx : ∀ u, Moves R (x u)) :
    Moves R (if p then throw err >>= x else x ⟨⟩) :=
  moves_when (moves_throw err) hx

/-- Every run of `x` that returns ends in a state with the property. -/
def Ensures (Q : σ → Prop) (x : EStateM ε σ α) : Prop := ∀ s a s', x s = .ok a s' → Q s'

/-- The last part of a sequence decides what it ensures. -/
theorem ensures_bind {Q : σ → Prop} {x : EStateM ε σ α} {f : α → EStateM ε σ β}
    (hf : ∀ a, Ensures Q (f a)) : Ensures Q (x >>= f) := by
  intro s b s' h
  obtain ⟨a, t, -, hrest⟩ := of_bind_ok h
  exact hf a t b s' hrest

/-- The relation between two states of which the second satisfies `I` if the first does. -/
def Preserves (I : σ → Prop) (s s' : σ) : Prop := I s → I s'

instance (I : σ → Prop) : Std.Refl (Preserves I) := ⟨fun _ h => h⟩

instance (I : σ → Prop) : IsTrans σ (Preserves I) := ⟨fun _ _ _ h h' hs => h' (h hs)⟩

/-- A predicate that survives each step of a list of operations holds after every prefix. -/
theorem foldl_keeps {σ τ : Type*} {I : σ → Prop} {step : σ → τ → σ}
    (hstep : ∀ s op, I s → I (step s op)) {s : σ} (hs : I s) (ops : List τ) :
    I (ops.foldl step s) :=
  List.foldlRecOn ops step hs fun s h op _ => hstep s op h

/-! ## Loops in `Except` -/

section Except

variable {α : Type} {f : β → Except ε α} {xs : List β}

/-- A loop whose steps return. -/
theorem mapM_ok {g : β → α} (h : ∀ x ∈ xs, f x = .ok (g x)) : xs.mapM f = .ok (xs.map g) := by
  induction xs with
  | nil => rfl
  | cons x xs ih =>
    rw [List.mapM_cons, h x (by simp), ih fun x hx => h x (by simp [hx])]
    rfl

/-- A loop over an accumulator whose steps return. -/
theorem foldlM_ok {step : α → β → Except ε α} {g : α → β → α}
    (h : ∀ x ∈ xs, ∀ a, step a x = .ok (g a x)) (a : α) :
    xs.foldlM step a = .ok (xs.foldl g a) := by
  induction xs generalizing a with
  | nil => rfl
  | cons x xs ih =>
    rw [List.foldlM_cons, h x List.mem_cons_self]
    exact ih (fun y hy => h y (List.mem_cons_of_mem x hy)) (g a x)

/-- The steps of a loop that returns, and its results, belong together. -/
theorem of_mapM_ok {ys : List α} (h : xs.mapM f = .ok ys) :
    (∀ x ∈ xs, ∃ y ∈ ys, f x = .ok y) ∧ ∀ y ∈ ys, ∃ x ∈ xs, f x = .ok y := by
  induction xs generalizing ys with
  | nil =>
    obtain rfl := Except.ok.inj h
    simp
  | cons x xs ih =>
    rw [List.mapM_cons] at h
    cases hx : f x with
    | error err =>
      rw [hx] at h
      cases h
    | ok y =>
      cases hxs : xs.mapM f with
      | error err =>
        rw [hx, hxs] at h
        cases h
      | ok zs =>
        rw [hx, hxs] at h
        obtain rfl := Except.ok.inj h
        obtain ⟨hsteps, hresults⟩ := ih hxs
        constructor
        · intro x' hx'
          rcases List.mem_cons.mp hx' with rfl | hx'
          · exact ⟨y, List.mem_cons_self, hx⟩
          · obtain ⟨y', hy', hstep⟩ := hsteps x' hx'
            exact ⟨y', List.mem_cons_of_mem _ hy', hstep⟩
        · intro y' hy'
          rcases List.mem_cons.mp hy' with rfl | hy'
          · exact ⟨x, List.mem_cons_self, hx⟩
          · obtain ⟨x', hx', hstep⟩ := hresults y' hy'
            exact ⟨x', List.mem_cons_of_mem _ hx', hstep⟩

end Except

end Stateful
