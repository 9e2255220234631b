import Mathlib.Data.List.Induction
import Mathlib.Data.List.Nodup

/-!
# Histories of a store

A cell that is only written to holds what the last write to it stored, or what it held at the start.
The writes carry the cell they go to in a function, so one history can be read at several levels
of detail.
-/

namespace WriteLog

variable {ω κ : Type*} [DecidableEq κ]

/-- The last write of a history that goes to the cell. -/
def last (cell : ω → κ) (k : κ) (ws : List ω) : Option ω := ws.reverse.find? fun w => cell w = k

variable {cell : ω → κ} {k : κ} {ws : List ω} {w : ω}

theorem last_concat : last cell k (ws ++ [w]) = if cell w = k then some w else last cell k ws := by
  by_cases h : cell w = k <;> simp [last, h]

theorem mem_of_last (h : last cell k ws = some w) : w ∈ ws ∧ cell w = k := by
  have hmem := List.mem_of_find?_eq_some h
  have hcell := List.find?_some h
  simp only [List.mem_reverse, decide_eq_true_eq] at hmem hcell
  exact ⟨hmem, hcell⟩

/-- A cell that was written to has a last write. -/
theorem exists_last (cell : ω → κ) (hw : w ∈ ws) (hcell : cell w = k) :
    ∃ w', last cell k ws = some w' := by
  rw [← Option.isSome_iff_exists, last, List.find?_isSome]
  exact ⟨w, List.mem_reverse.mpr hw, by simpa using hcell⟩

/-- With one write to each cell, the last one is the only one. -/
theorem last_eq_some_iff (hws : (ws.map cell).Nodup) :
    last cell k ws = some w ↔ w ∈ ws ∧ cell w = k := by
  constructor
  · exact mem_of_last
  · rintro ⟨hw, hcell⟩
    obtain ⟨w', hlast⟩ := exists_last cell hw hcell
    obtain ⟨hw', hcell'⟩ := mem_of_last hlast
    rw [hlast, List.inj_on_of_nodup_map hws hw' hw (hcell'.trans hcell.symm)]

/-- If each step of a run stores its value in the cell it goes to and leaves the observed cell alone
otherwise, then after the run the observed cell holds the value of the last write to it. -/
theorem look_foldl {σ ν : Type*} (cell : ω → κ) (k : κ) {step : σ → ω → σ} {value : ω → ν}
    (look : σ → Option ν) {I : σ → Prop} (hI : ∀ s w, I s → I (step s w))
    (hstep : ∀ s w, I s → look (step s w) = if cell w = k then some (value w) else look s)
    {s : σ} (hs : I s) (ws : List ω) :
    look (ws.foldl step s) = ((last cell k ws).map value).or (look s) := by
  induction ws using List.reverseRecOn with
  | nil => rfl
  | append_singleton ws w ih =>
    have hmid : I (ws.foldl step s) := List.foldlRecOn ws step hs fun s h w _ => hI s w h
    rw [List.foldl_append, List.foldl_cons, List.foldl_nil, hstep _ w hmid, last_concat, ih]
    split
    · rfl
    · rfl

end WriteLog
