import Mathlib.Data.List.Basic
import Mathlib.Logic.Function.Basic

/-!
# Machines that share a cell

Machines of one kind take turns. Each has a state of its own, and an operation may also read and
change one cell that all of them see. An operation that does not use the cell is *silent*. A machine
is undisturbed by the others if its own operations are all silent, or if those of the others are.
-/

namespace SharedCell

variable {ι γ σ ο ρ : Type} [DecidableEq ι]

/-- The cell and the state of each machine. -/
structure Shared (ι γ σ : Type) where
  cell : γ
  part : ι → σ

variable (f : ο → γ → σ → ρ × γ × σ)

/-- One operation of a machine, with its result. -/
def step (i : ι) (op : ο) (p : Shared ι γ σ) : ρ × Shared ι γ σ :=
  ((f op p.cell (p.part i)).1,
    ⟨(f op p.cell (p.part i)).2.1, Function.update p.part i (f op p.cell (p.part i)).2.2⟩)

/-- Operations one after the other, with their results. -/
def run : List (ι × ο) → Shared ι γ σ → List (ι × ρ) × Shared ι γ σ
  | [], p => ([], p)
  | (i, op) :: ops, p =>
      let (r, next) := step f i op p
      let (rs, last) := run ops next
      ((i, r) :: rs, last)

/-- What belongs to one machine. -/
def own {α : Type} (i : ι) (l : List (ι × α)) : List (ι × α) := l.filter fun e => e.1 = i

/-- The operation neither reads nor changes the cell. -/
def Silent (op : ο) : Prop :=
  ∀ c c' s, (f op c s).1 = (f op c' s).1 ∧ (f op c s).2.2 = (f op c' s).2.2 ∧ (f op c s).2.1 = c

variable {f}

/-- Either the operations of a machine are silent, or those of all others are and the cell is the
same; then the machine runs as it would alone. -/
theorem run_own {i : ι} {ops : List (ι × ο)} {p q : Shared ι γ σ} (hpart : p.part i = q.part i)
    (h : (∀ op, (i, op) ∈ ops → Silent f op) ∨
      p.cell = q.cell ∧ ∀ j op, (j, op) ∈ ops → j ≠ i → Silent f op) :
    own i (run f ops p).1 = (run f (own i ops) q).1 ∧
      (run f ops p).2.part i = (run f (own i ops) q).2.part i := by
  induction ops generalizing p q with
  | nil => exact ⟨rfl, hpart⟩
  | cons e ops ih =>
    obtain ⟨j, op⟩ := e
    by_cases hj : j = i
    · subst hj
      have hown : own j ((j, op) :: ops) = (j, op) :: own j ops := by simp [own]
      have hsame : (f op p.cell (p.part j)).1 = (f op q.cell (q.part j)).1 ∧
          (f op p.cell (p.part j)).2.2 = (f op q.cell (q.part j)).2.2 := by
        rw [hpart]
        rcases h with hsilent | ⟨hcell, -⟩
        · have hop := hsilent op (by simp) p.cell q.cell (q.part j)
          exact ⟨hop.1, hop.2.1⟩
        · rw [hcell]
          exact ⟨rfl, rfl⟩
      have hrest := ih (p := (step f j op p).2) (q := (step f j op q).2)
        (by simp [step, hsame.2]) (by
          rcases h with hsilent | ⟨hcell, hothers⟩
          · exact .inl fun op' hop' => hsilent op' (List.mem_cons_of_mem _ hop')
          · refine .inr ⟨?_, fun k op' hop' => hothers k op' (List.mem_cons_of_mem _ hop')⟩
            simp only [step, hpart, hcell])
      rw [hown]
      refine ⟨?_, hrest.2⟩
      have hresult : (step f j op p).1 = (step f j op q).1 := hsame.1
      simp only [run, own, List.filter_cons, decide_true, if_true] at hrest ⊢
      rw [hresult, hrest.1]
    · have hown : own i ((j, op) :: ops) = own i ops := by simp [own, hj]
      have hrest := ih (p := (step f j op p).2) (q := q)
        (by simp [step, Function.update_of_ne (Ne.symm hj), hpart]) (by
          rcases h with hsilent | ⟨hcell, hothers⟩
          · exact .inl fun op' hop' => hsilent op' (List.mem_cons_of_mem _ hop')
          · refine .inr ⟨?_, fun k op' hop' => hothers k op' (List.mem_cons_of_mem _ hop')⟩
            rw [← hcell]
            exact (hothers j op (by simp) hj p.cell p.cell (p.part j)).2.2)
      rw [hown]
      refine ⟨?_, hrest.2⟩
      simp only [run, own, List.filter_cons, hj, decide_false] at hrest ⊢
      exact hrest.1

end SharedCell
