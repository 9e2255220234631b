import Mathlib.Order.Lattice.Nat

/-!
# Maximal runs

The maximal runs of points with some property between two bounds, and how a search from left to
right meets them: up to the first point without the property there is one run, and the others are
the runs behind that point.
-/

namespace Segments

variable {P : ℕ → Prop} {low high s t a : ℕ}

/-- A maximal run of points with a property between two bounds. -/
structure IsRun (P : ℕ → Prop) (low high s t : ℕ) : Prop where
  low_le : low ≤ s
  lt : s < t
  le_high : t ≤ high
  all : ∀ a, s ≤ a → a < t → P a
  left : low < s → ¬P (s - 1)
  right : t < high → ¬P t

/-- If all points have the property, they are one run. -/
theorem isRun_of_all (hall : ∀ a, low ≤ a → a < high → P a) :
    IsRun P low high s t ↔ s = low ∧ t = high ∧ low < high := by
  constructor
  · intro h
    obtain ⟨hlow, hlt, hhigh, -, hleft, hright⟩ := h
    refine ⟨?_, ?_, by omega⟩
    · by_contra hne
      exact hleft (by omega) (hall _ (by omega) (by omega))
    · by_contra hne
      exact hright (by omega) (hall _ (by omega) (by omega))
  · rintro ⟨rfl, rfl, hlt⟩
    exact ⟨le_rfl, hlt, le_rfl, hall, fun h => absurd h (lt_irrefl _),
      fun h => absurd h (lt_irrefl _)⟩

/-- A point without the property separates the run before it from those behind it. -/
theorem isRun_iff_of_not (hall : ∀ b, low ≤ b → b < a → P b) (hlow : low ≤ a) (hhigh : a < high)
    (hnot : ¬P a) :
    IsRun P low high s t ↔ (s = low ∧ t = a ∧ low < a) ∨ IsRun P (a + 1) high s t := by
  constructor
  · intro h
    obtain ⟨hlow, hlt, hle, hrun, hleft, hright⟩ := h
    by_cases hsa : s ≤ a
    · have hta : t ≤ a := by
        by_contra hgt
        exact hnot (hrun a hsa (by omega))
      refine .inl ⟨?_, ?_, by omega⟩
      · by_contra hne
        exact hleft (by omega) (hall _ (by omega) (by omega))
      · by_contra hne
        exact hright (by omega) (hall _ (by omega) (by omega))
    · exact .inr ⟨by omega, hlt, hle, hrun, fun _ => hleft (by omega), hright⟩
  · rintro (⟨rfl, rfl, hlt⟩ | ⟨hlow', hlt, hle, hrun, hleft, hright⟩)
    · exact ⟨le_rfl, hlt, hhigh.le, hall, fun h => absurd h (lt_irrefl _), fun _ => hnot⟩
    · refine ⟨by omega, hlt, hle, hrun, fun _ => ?_, hright⟩
      obtain rfl | hgt := hlow'.eq_or_lt
      · exact hnot
      · exact hleft hgt

end Segments
