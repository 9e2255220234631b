import Vardoger.Base.Intervals

/-!
# First fit by skipping

A table of disjoint intervals, sorted by their starts, is searched for a gap: while some entry
meets the candidate range, the search goes on behind the first such entry. This file shows that the
search visits the entries between its start and the lowest gap one by one, so that it reaches the
gap just when it may take at least as many steps as there are such entries.
-/

namespace FirstFit

open Intervals

variable {α : Type*} (start length : α → ℕ)

/-- Retry behind the first entry that clashes, at most `tries` times. -/
def search (clash : ℕ → α → Bool) (stop : α → ℕ) (table : List α) : ℕ → ℕ → ℕ
  | 0, base => base
  | tries + 1, base =>
      match table.find? (clash base) with
      | some a => search clash stop table tries (stop a)
      | none => base

/-- No entry meets the range of `size` points from `b` on. -/
def Free (table : List α) (size b : ℕ) : Prop :=
  ∀ a ∈ table, start a + length a ≤ b ∨ b + size ≤ start a

/-- The entries that end behind `base` and start before `b`. -/
def between (table : List α) (base b : ℕ) : List α :=
  table.filter fun a => base < start a + length a ∧ start a < b

variable {start length} {table : List α} {size base b : ℕ} {a : α}

theorem mem_between :
    a ∈ between start length table base b ↔
      a ∈ table ∧ base < start a + length a ∧ start a < b := by
  simp [between]

/-- If no entry lies between, the range is as free at `base` as at `b`. -/
theorem free_of_between_eq_nil (hpos : ∀ a ∈ table, 0 < length a) (hle : base ≤ b)
    (hfree : Free start length table size b) (hnone : between start length table base b = []) :
    Free start length table size base := by
  intro a ha
  have hpos := hpos a ha
  have hout : ¬(base < start a + length a ∧ start a < b) := by
    intro hin
    have hmem := mem_between.mpr ⟨ha, hin⟩
    rw [hnone] at hmem
    cases hmem
  obtain hbefore | hbehind := hfree a ha
  · left
    omega
  · right
    omega

/-- Behind the first entry in between, the other ones are in between. -/
theorem between_stop {rest : List α} (hsep : Separated start length table)
    (hpos : ∀ a ∈ table, 0 < length a) (hcons : between start length table base b = a :: rest) :
    between start length table (start a + length a) b = rest := by
  obtain ⟨ha, hbase, hb⟩ := mem_between.mp (by rw [hcons]; exact List.mem_cons_self)
  have hsorted : (a :: rest).Pairwise fun c d => start c + length c ≤ start d := by
    rw [← hcons]
    exact hsep.sublist List.filter_sublist
  have hrest := (List.pairwise_cons.mp hsorted).1
  have hsplit : between start length table (start a + length a) b =
      (between start length table base b).filter
        fun c => start a + length a < start c + length c := by
    rw [between, between, List.filter_filter]
    apply List.filter_congr
    intro c _
    simp only [← Bool.decide_and, decide_eq_decide]
    omega
  rw [hsplit, hcons, List.filter_cons_of_neg (by simp)]
  apply List.filter_eq_self.mpr
  intro c hc
  have hc' : c ∈ table := (mem_between.mp (by rw [hcons]; exact List.mem_cons_of_mem a hc)).1
  have hafter := hrest c hc
  have hnonempty := hpos c hc'
  simp only [decide_eq_true_eq]
  omega

/-- Where the range is not free, the first entry in between is the first one that it meets. -/
theorem find_clash {clash : ℕ → α → Bool} {rest : List α} (hsep : Separated start length table)
    (hclash : ∀ c ∈ table, clash base c = true ↔
      base < start c + length c ∧ start c < base + size)
    (hcons : between start length table base b = a :: rest)
    (hbusy : ¬Free start length table size base) : table.find? (clash base) = some a := by
  obtain ⟨ha, hbase, hb⟩ := mem_between.mp (by rw [hcons]; exact List.mem_cons_self)
  -- The table is `a` behind entries that end before the candidate range.
  obtain ⟨front, back, htable, hfront⟩ : ∃ front back, table = front ++ a :: back ∧
      ∀ c ∈ front, ¬(base < start c + length c ∧ start c < b) := by
    obtain ⟨front, back, htable, hfront, -, -⟩ := List.filter_eq_cons_iff.mp hcons
    exact ⟨front, back, htable, fun c hc hin => hfront c hc (by simpa using hin)⟩
  have hsorted := htable ▸ hsep
  obtain ⟨-, hback, hbefore⟩ := List.pairwise_append.mp hsorted
  have hfrontEnds : ∀ c ∈ front, start c + length c ≤ base := by
    intro c hc
    have hout := hfront c hc
    have hlt := hbefore c hc a List.mem_cons_self
    omega
  have hmeets : start a < base + size := by
    rw [Free] at hbusy
    push Not at hbusy
    obtain ⟨c, hc, hc₁, hc₂⟩ := hbusy
    rw [htable] at hc
    obtain hc | hc := List.mem_append.mp hc
    · exact absurd (hfrontEnds c hc) (by omega)
    · obtain rfl | hc := List.mem_cons.mp hc
      · exact hc₂
      · have hafter := (List.pairwise_cons.mp hback).1 c hc
        omega
  rw [htable, List.find?_append]
  have hskip : front.find? (clash base) = none := by
    apply List.find?_eq_none.mpr
    intro c hc hclashes
    have hmem : c ∈ table := by
      rw [htable]
      exact List.mem_append_left _ hc
    have hends := hfrontEnds c hc
    have hmeets := (hclash c hmem).mp hclashes
    omega
  rw [hskip, Option.none_or, List.find?_cons_of_pos ((hclash a ha).mpr ⟨hbase, hmeets⟩)]

variable {clash : ℕ → α → Bool} {stop : α → ℕ} {P : ℕ → Prop}

/-- Let `b` be the least gap among the admissible starts from `base` on, where the ends of entries
are admissible. A search that may take a step for every entry in between finds `b`. Any other one
ends before `b`. -/
theorem search_spec (hsep : Separated start length table) (hpos : ∀ a ∈ table, 0 < length a)
    (hclash : ∀ c ≤ b, ∀ a ∈ table, clash c a = true ↔
      c < start a + length a ∧ start a < c + size)
    (hstop : ∀ c ≤ b, ∀ a ∈ table, clash c a = true → stop a = start a + length a)
    (hP : ∀ a ∈ table, P (start a + length a)) (hfree : Free start length table size b)
    (hsize : 0 < size) (tries : ℕ) (hbase : P base) (hle : base ≤ b)
    (hleast : ∀ c, P c → base ≤ c → Free start length table size c → b ≤ c) :
    ((between start length table base b).length ≤ tries ∧
      search clash stop table tries base = b) ∨
    (tries < (between start length table base b).length ∧
      P (search clash stop table tries base) ∧ base ≤ search clash stop table tries base ∧
      search clash stop table tries base < b) := by
  induction tries generalizing base with
  | zero =>
    cases hcons : between start length table base b with
    | nil =>
      have hgap := hleast base hbase le_rfl (free_of_between_eq_nil hpos hle hfree hcons)
      exact .inl ⟨le_rfl, le_antisymm hle hgap⟩
    | cons a rest =>
      obtain ⟨ha, hends, hstarts⟩ := mem_between.mp (by rw [hcons]; exact List.mem_cons_self)
      have hlt : base < b := by
        have hapart := hfree a ha
        omega
      exact .inr ⟨Nat.succ_pos _, hbase, le_rfl, hlt⟩
  | succ tries ih =>
    cases hcons : between start length table base b with
    | nil =>
      have hgap := hleast base hbase le_rfl (free_of_between_eq_nil hpos hle hfree hcons)
      obtain rfl : base = b := le_antisymm hle hgap
      have hnone : table.find? (clash base) = none := by
        apply List.find?_eq_none.mpr
        intro a ha hclashes
        have hmeets := (hclash base le_rfl a ha).mp hclashes
        have hapart := hfree a ha
        omega
      refine .inl ⟨Nat.zero_le _, ?_⟩
      rw [search, hnone]
    | cons a rest =>
      obtain ⟨ha, hends, hstarts⟩ := mem_between.mp (by rw [hcons]; exact List.mem_cons_self)
      have hapart := hfree a ha
      have hbusy : ¬Free start length table size base := by
        intro hgap
        have := hleast base hbase le_rfl hgap
        omega
      have hfind := find_clash hsep (hclash base hle) hcons hbusy
      have hclashes : clash base a = true := by
        simpa using List.find?_some hfind
      have hsearch : search clash stop table (tries + 1) base =
          search clash stop table tries (start a + length a) := by
        rw [search, hfind]
        exact congrArg _ (hstop base hle a ha hclashes)
      rw [hsearch, List.length_cons, ← between_stop hsep hpos hcons]
      obtain ⟨hshort, hfound⟩ | ⟨hlong, hadm, hbehind, hbefore⟩ :=
        ih (hP a ha) (by omega) fun c hc hle' => hleast c hc (by omega)
      · exact .inl ⟨by omega, hfound⟩
      · exact .inr ⟨by omega, hadm, by omega, hbefore⟩

end FirstFit
