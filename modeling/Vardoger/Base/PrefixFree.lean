import Mathlib.Data.List.Infix

/-!
# Prefix-free words

If no word of a set begins with another word of it, then a sequence of such words can be read off
their concatenation, up to a letter that begins none of them.
-/

/-- No word of the set begins with another one. -/
def PrefixFree {α : Type*} (C : List α → Prop) : Prop := ∀ x y, C x → C y → x <+: y → x = y

namespace PrefixFree

variable {α : Type*} {C : List α → Prop}

theorem append_inj (hC : PrefixFree C) {x y r s : List α} (hx : C x) (hy : C y)
    (h : x ++ r = y ++ s) : x = y ∧ r = s := by
  have hxy : x = y := by
    rcases List.prefix_or_prefix_of_prefix (List.prefix_append x r)
      (h ▸ List.prefix_append y s) with hle | hle
    · exact hC x y hx hy hle
    · exact (hC y x hy hx hle).symm
  subst hxy
  exact ⟨rfl, List.append_cancel_left h⟩

/-- The words before a letter that begins none of them. -/
theorem flatten_inj (hC : PrefixFree C) {c : α} (hc : ∀ x, C x → ∃ a rest, x = a :: rest ∧ a ≠ c)
    {xs ys : List (List α)} {r s : List α} (hxs : ∀ x ∈ xs, C x) (hys : ∀ y ∈ ys, C y)
    (h : xs.flatten ++ c :: r = ys.flatten ++ c :: s) : xs = ys ∧ r = s := by
  induction xs generalizing ys with
  | nil =>
    cases ys with
    | nil => exact ⟨rfl, (List.cons.inj h).2⟩
    | cons y ys =>
      obtain ⟨a, rest, rfl, ha⟩ := hc y (hys y (by simp))
      exact absurd (List.cons.inj h).1.symm ha
  | cons x xs ih =>
    cases ys with
    | nil =>
      obtain ⟨a, rest, rfl, ha⟩ := hc x (hxs x (by simp))
      exact absurd (List.cons.inj h).1 ha
    | cons y ys =>
      rw [List.flatten_cons, List.flatten_cons, List.append_assoc, List.append_assoc] at h
      obtain ⟨rfl, hrest⟩ := hC.append_inj (hxs x (by simp)) (hys y (by simp)) h
      obtain ⟨rfl, hrs⟩ := ih (fun z hz => hxs z (by simp [hz])) (fun z hz => hys z (by simp [hz]))
        hrest
      exact ⟨rfl, hrs⟩

end PrefixFree
