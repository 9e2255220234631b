import Mathlib.Data.List.Sort

/-!
# Sorted tables of disjoint intervals

Entries of an arbitrary type stand for half-open intervals through two functions, the start and the
length. A table is *separated* when every entry ends before the next one starts. Inserting an
interval that meets no entry keeps a table separated and adds exactly its points.
-/

namespace Intervals

variable {α : Type*} (start length : α → ℕ)

/-- The points of an entry. -/
def Contains (a : α) (x : ℕ) : Prop := start a ≤ x ∧ x < start a + length a

/-- Every entry ends before each later one starts. -/
def Separated (table : List α) : Prop := table.Pairwise fun a b => start a + length a ≤ start b

variable {start length}

/-- Two nonempty entries without a common point lie on either side of each other. -/
theorem apart_of_disjoint {a b : α} (ha : 0 < length a) (hb : 0 < length b)
    (h : ∀ x, Contains start length a x → ¬Contains start length b x) :
    start a + length a ≤ start b ∨ start b + length b ≤ start a := by
  by_contra hoverlap
  have hmeet := h (max (start a) (start b))
  simp only [Contains] at hmeet
  omega

/-- Entries of a separated table with a common point are equal. -/
theorem Separated.unique {table : List α} (htable : Separated start length table) {a b : α}
    (ha : a ∈ table) (hb : b ∈ table) {x : ℕ} (hax : Contains start length a x)
    (hbx : Contains start length b x) : a = b := by
  simp only [Contains] at hax hbx
  induction table with
  | nil => cases ha
  | cons c table ih =>
    obtain ⟨hc, htable⟩ := List.pairwise_cons.mp htable
    obtain rfl | ha' := List.mem_cons.mp ha
    · obtain rfl | hb' := List.mem_cons.mp hb
      · rfl
      · have hafter := hc b hb'
        omega
    · obtain rfl | hb' := List.mem_cons.mp hb
      · have hafter := hc a ha'
        omega
      · exact ih htable ha' hb'

/-- Inserting by start point adds the points of the new entry and no others. -/
theorem exists_contains_orderedInsert {a : α} {table : List α} {x : ℕ} :
    (∃ b ∈ table.orderedInsert (fun a b => start a < start b) a, Contains start length b x) ↔
      Contains start length a x ∨ ∃ b ∈ table, Contains start length b x := by
  simp only [List.mem_orderedInsert, or_and_right, exists_or, exists_eq_left]

/-- A separated table stays separated when an interval that meets no entry is inserted. -/
theorem separated_orderedInsert {a : α} {table : List α} (htable : Separated start length table)
    (ha : 0 < length a)
    (hapart : ∀ b ∈ table, start a + length a ≤ start b ∨ start b + length b ≤ start a) :
    Separated start length (table.orderedInsert (fun a b => start a < start b) a) := by
  induction table with
  | nil => exact List.pairwise_singleton _ _
  | cons b rest ih =>
    obtain ⟨hb, hrest⟩ := List.pairwise_cons.mp htable
    rw [List.orderedInsert]
    split
    · rename_i hlt
      have hab : start a + length a ≤ start b := by
        have := hapart b (by simp)
        omega
      refine List.pairwise_cons.mpr ⟨?_, htable⟩
      intro c hc
      rcases List.mem_cons.mp hc with rfl | hc
      · exact hab
      · have := hb c hc
        omega
    · rename_i hge
      have hba : start b + length b ≤ start a := by
        have := hapart b (by simp)
        omega
      refine List.pairwise_cons.mpr ⟨?_, ih hrest fun c hc => hapart c (by simp [hc])⟩
      intro c hc
      rcases (List.mem_orderedInsert _).mp hc with rfl | hc
      · exact hba
      · exact hb c hc

/-- In a sorted table, what is selected of it and of the inserted entry is selected of the
result. -/
theorem filter_orderedInsert {a : α} {table : List α} (p : α → Bool)
    (hsorted : table.Pairwise fun b c => start b ≤ start c) :
    (table.orderedInsert (fun a b => start a < start b) a).filter p =
      if p a then (table.filter p).orderedInsert (fun a b => start a < start b) a
      else table.filter p := by
  induction table with
  | nil => simp only [List.orderedInsert, List.filter_cons, List.filter_nil]
  | cons b rest ih =>
    obtain ⟨hb, hrest⟩ := List.pairwise_cons.mp hsorted
    by_cases hlt : start a < start b
    · rw [List.orderedInsert_cons, if_pos hlt, List.filter_cons]
      split
      · -- Everything that is selected of the table starts behind the entry.
        cases hfilter : (b :: rest).filter p with
        | nil => rfl
        | cons c selected =>
          have hc : c ∈ b :: rest :=
            List.mem_of_mem_filter (by rw [hfilter]; exact List.mem_cons_self)
          have hle : start b ≤ start c := by
            obtain rfl | hmem := List.mem_cons.mp hc
            · exact le_refl _
            · exact hb c hmem
          rw [List.orderedInsert_cons, if_pos (by omega)]
      · rfl
    · rw [List.orderedInsert_cons, if_neg hlt, List.filter_cons, ih hrest, List.filter_cons]
      by_cases hpb : p b = true
      · rw [if_pos hpb, if_pos hpb]
        split
        · rw [List.orderedInsert_cons, if_neg hlt]
        · rfl
      · rw [if_neg hpb, if_neg hpb]

end Intervals
