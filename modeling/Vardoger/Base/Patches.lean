import Mathlib.Data.List.Basic
import Mathlib.Data.List.GetD
import Mathlib.Data.List.Pairwise
import Mathlib.Data.Nat.Basic

/-!
# Memories and patches

A memory is a function on addresses. A patch replaces its entries from one position on, and
patches that are pairwise apart can be applied in any order: each address holds the entry of the
one patch that covers it, or what it held before.
-/

namespace Patches

variable {β : Type*}

/-- The entries of a range. -/
def slice (f : ℕ → β) (a n : ℕ) : List β := (List.range n).map fun i => f (a + i)

/-- Replace the entries from a position on. -/
def put (f : ℕ → β) (pos : ℕ) (x : List β) : ℕ → β :=
  fun a => if pos ≤ a then x.getD (a - pos) (f a) else f a

/-- A position and the entries to write there. -/
structure Patch (β : Type*) where
  pos : ℕ
  entries : List β

/-- The patch writes this address. -/
def Patch.Covers (p : Patch β) (a : ℕ) : Prop := p.pos ≤ a ∧ a < p.pos + p.entries.length

/-- The patches have no address in common. -/
def Patch.Apart (p q : Patch β) : Prop := ∀ a, p.Covers a → ¬q.Covers a

/-- Apply patches one after the other. -/
def patched (f : ℕ → β) (ps : List (Patch β)) : ℕ → β :=
  ps.foldl (fun f p => put f p.pos p.entries) f

variable {f g : ℕ → β} {a n pos : ℕ} {x : List β} {p q : Patch β} {ps qs : List (Patch β)}

@[simp]
theorem length_slice (f : ℕ → β) (a n : ℕ) : (slice f a n).length = n := by simp [slice]

theorem slice_congr (h : ∀ i < n, f (a + i) = g (a + i)) : slice f a n = slice g a n :=
  List.map_congr_left fun i hi => h i (List.mem_range.mp hi)

/-- A slice is made of two slices. -/
theorem slice_add (f : ℕ → β) (a n m : ℕ) :
    slice f a (n + m) = slice f a n ++ slice f (a + n) m := by
  simp only [slice, List.range_add, List.map_append, List.map_map, Function.comp_def,
    Nat.add_assoc]

/-- A part of a slice is a slice. -/
theorem take_drop_slice {i m : ℕ} (h : i + m ≤ n) :
    ((slice f a n).drop i).take m = slice f (a + i) m := by
  refine List.ext_getElem? fun j => ?_
  by_cases hj : j < m
  · simp [slice, List.getElem?_take_of_lt hj, Nat.add_assoc, hj, show i + j < n by omega]
  · rw [List.getElem?_take_eq_none (not_lt.mp hj),
      List.getElem?_eq_none (by rw [length_slice]; omega)]

theorem put_of_lt {i : ℕ} (f : ℕ → β) (pos : ℕ) (hi : i < x.length) :
    put f pos x (pos + i) = x[i] := by
  rw [put, if_pos (Nat.le_add_right _ _), Nat.add_sub_cancel_left,
    List.getD_eq_getElem _ _ hi]

theorem put_of_not_covers (h : ¬(⟨pos, x⟩ : Patch β).Covers a) : put f pos x a = f a := by
  rw [put]
  split
  · refine List.getD_eq_default _ _ ?_
    simp only [Patch.Covers] at h
    omega
  · rfl

/-- A covered address does not depend on what was there before. -/
theorem put_congr (h : p.Covers a) : put f p.pos p.entries a = put g p.pos p.entries a := by
  obtain ⟨i, rfl⟩ : ∃ i, a = p.pos + i := ⟨a - p.pos, by have := h.1; omega⟩
  have hi : i < p.entries.length := by have := h.2; omega
  rw [put_of_lt f _ hi, put_of_lt g _ hi]

/-- The entries just written are read back. -/
theorem slice_put (f : ℕ → β) (pos : ℕ) (x : List β) : slice (put f pos x) pos x.length = x := by
  refine List.ext_getElem (by simp) fun i hi hi' => ?_
  simp only [slice, List.getElem_map, List.getElem_range]
  exact put_of_lt f pos hi'

/-- An address that no patch covers keeps its entry. -/
theorem patched_of_not_covers (h : ∀ p ∈ ps, ¬p.Covers a) : patched f ps a = f a := by
  induction ps generalizing f with
  | nil => rfl
  | cons q ps ih =>
    calc patched (put f q.pos q.entries) ps a
        = put f q.pos q.entries a := ih fun p hp => h p (by simp [hp])
      _ = f a := put_of_not_covers (h q (by simp))

/-- An address that a patch covers holds the entry of this patch. -/
theorem patched_of_mem (hps : ps.Pairwise Patch.Apart) (hp : p ∈ ps) (ha : p.Covers a) :
    patched f ps a = put f p.pos p.entries a := by
  induction ps generalizing f with
  | nil => cases hp
  | cons q ps ih =>
    obtain ⟨hq, hps⟩ := List.pairwise_cons.mp hps
    rcases List.mem_cons.mp hp with rfl | hp
    · exact patched_of_not_covers fun r hr => hq r hr a ha
    · exact (ih hps hp).trans (put_congr ha)

/-- Every patch is read back. -/
theorem slice_patched (f : ℕ → β) (hps : ps.Pairwise Patch.Apart) (hp : p ∈ ps) :
    slice (patched f ps) p.pos p.entries.length = p.entries := by
  have hsame : slice (patched f ps) p.pos p.entries.length =
      slice (put f p.pos p.entries) p.pos p.entries.length := by
    refine slice_congr fun i hi => patched_of_mem hps hp ⟨by omega, by omega⟩
  rw [hsame, slice_put]

/-! ## Updates in place -/

/-- The ranges of `n` entries at two positions do not overlap. -/
def Separate (n p q : ℕ) : Prop := p + n ≤ q ∨ q + n ≤ p

theorem Separate.symm {n p q : ℕ} (h : Separate n p q) : Separate n q p := Or.symm h

theorem slice_put_of_separate {p q : ℕ} (h : Separate n p q) (hx : x.length = n) (f : ℕ → β) :
    slice (put f p x) q n = slice f q n := by
  apply slice_congr
  intro i hi
  apply put_of_not_covers
  simp only [Patch.Covers, Separate] at h ⊢
  omega

/-- Replace the entries of a range by a function of them. -/
def update (step : List β → List β) (n : ℕ) (f : ℕ → β) (pos : ℕ) : ℕ → β :=
  put f pos (step (slice f pos n))

/-- Update the ranges at some positions, one after the other. -/
def updated (step : List β → List β) (n : ℕ) (f : ℕ → β) (ps : List ℕ) : ℕ → β :=
  ps.foldl (update step n) f

/-- The patches that put the updated entries where the entries were. -/
def updates (step : List β → List β) (n : ℕ) (f : ℕ → β) (ps : List ℕ) : List (Patch β) :=
  ps.map fun pos => ⟨pos, step (slice f pos n)⟩

variable {step : List β → List β}

theorem updated_cons (step : List β → List β) (n : ℕ) (f : ℕ → β) (p : ℕ) (ps : List ℕ) :
    updated step n f (p :: ps) = updated step n (update step n f p) ps := List.foldl_cons ..

theorem updates_congr (step : List β → List β) {ps : List ℕ}
    (h : ∀ p ∈ ps, slice f p n = slice g p n) : updates step n f ps = updates step n g ps := by
  apply List.map_congr_left
  intro p hp
  rw [h p hp]

theorem updated_append (step : List β → List β) (n : ℕ) (f : ℕ → β) (ps qs : List ℕ) :
    updated step n f (ps ++ qs) = updated step n (updated step n f ps) qs := List.foldl_append

theorem pairwise_apart_updates (hstep : ∀ x : List β, x.length = n → (step x).length = n)
    (f : ℕ → β) {ps : List ℕ} (hps : ps.Pairwise (Separate n)) :
    (updates step n f ps).Pairwise Patch.Apart := by
  apply List.pairwise_map.mpr
  apply hps.imp
  intro p q hpq a hp hq
  simp only [Patch.Covers, Separate, hstep _ (length_slice _ _ _)] at hp hq hpq
  omega

/-- Updates of ranges that do not overlap are patches: none of them sees what another one wrote. -/
theorem updated_eq_patched (hstep : ∀ x : List β, x.length = n → (step x).length = n)
    (f : ℕ → β) {ps : List ℕ} (hps : ps.Pairwise (Separate n)) :
    updated step n f ps = patched f (updates step n f ps) := by
  induction ps generalizing f with
  | nil => rfl
  | cons p ps ih =>
    obtain ⟨hp, hps⟩ := List.pairwise_cons.mp hps
    have hsame : updates step n (update step n f p) ps = updates step n f ps := by
      apply updates_congr
      intro q hq
      rw [update, slice_put_of_separate (hp q hq) (hstep _ (length_slice _ _ _))]
    rw [updated_cons, ih _ hps, hsame]
    rfl

end Patches
