import Vardoger.Android.Vfs
import Vardoger.Base.Runs

/-!
# The virtual file system as a file model

What reading and writing through a descriptor mean, in terms of positions and contents, and the
sequences of calls along which the virtual file system does just that. A position that another
handle left behind the end of the content is the one case in which it does not: a read throws there
instead of returning nothing.
-/

namespace Vardoger

open Bytes Stateful Runs

namespace Vfs

variable {s s' : Vfs} {fd : ℤ} {h : Handle} {n : ℕ} {x out : List UInt8}

/-- The content `new` is `old` with `x` at position `p`, behind zeros if `p` lies behind the end. -/
def Written (old : List UInt8) (p : ℕ) (x new : List UInt8) : Prop :=
  ∀ i, new[i]? =
    if p ≤ i ∧ i < p + x.length then x[i - p]?
    else if i < old.length then old[i]?
    else if i < p then some 0
    else none

/-- A read of `n` bytes through `fd`, which stands for the handle `h`, as a file model has it. -/
structure Reads (s : Vfs) (fd : ℤ) (h : Handle) (n : ℕ) (out : List UInt8) (s' : Vfs) : Prop where
  bytes : out = ((s.dataOf h).drop h.pos).take (min n ((s.dataOf h).length - h.pos))
  advances : s'.handles fd = some { h with pos := h.pos + out.length }
  others : ∀ fd', fd' ≠ fd → s'.handles fd' = s.handles fd'
  contents : s'.store = s.store

/-- A write of `x` through `fd`, which stands for the handle `h`, as a file model has it. -/
structure Writes (s : Vfs) (fd : ℤ) (h : Handle) (x : List UInt8) (s' : Vfs) : Prop where
  content : ∃ new, s'.store h.path = some new ∧ Written ((s.store h.path).getD []) h.pos x new
  advances : s'.handles fd = some { h with pos := h.pos + x.length, dirty := true }
  others : ∀ fd', fd' ≠ fd → s'.handles fd' = s.handles fd'
  contents : ∀ path, path ≠ h.path → s'.store path = s.store path

/-- The next call, if it is a read through an open descriptor or a write through a writable one,
returns and does what a file model has it do. -/
def FileLike (s : Vfs) : Call → Prop
  | .read fd n => ∀ h, s.handles fd = some h →
      ∃ out s', Vfs.read fd n s = .ok out s' ∧ Reads s fd h n out s'
  | .write fd x => ∀ h, s.handles fd = some h → h.writable = true →
      ∃ s', Vfs.write fd x s = .ok x.length s' ∧ Writes s fd h x s'
  | _ => True

/-- The next call does not read through a descriptor whose position lies behind the end. -/
def WithinContent (s : Vfs) : Call → Prop
  | .read fd _ => ∀ h, s.handles fd = some h → h.pos ≤ (s.dataOf h).length
  | _ => True

/-! ## Reading -/

theorem read_eq (hfd : s.handles fd = some h) (hpos : h.pos ≤ (s.dataOf h).length) :
    Vfs.read fd n s =
      .ok (((s.dataOf h).drop h.pos).take (min n ((s.dataOf h).length - h.pos)))
        (putHandle fd { h with pos := h.pos + min n ((s.dataOf h).length - h.pos) } s) := by
  have havail : (if (s.dataOf h).length > h.pos then (s.dataOf h).length - h.pos else 0) =
      (s.dataOf h).length - h.pos := by
    split <;> omega
  rw [Vfs.read, get_bind, hfd]
  dsimp only
  rw [havail, if_neg (by omega)]
  rfl

theorem read_throws (hfd : s.handles fd = some h) (hpos : (s.dataOf h).length < h.pos) :
    Vfs.read fd n s = .error (.runtime "basic_string::assign") s := by
  rw [Vfs.read, get_bind, hfd]
  dsimp only
  rw [if_pos hpos]
  rfl

theorem reads_of_within (hfd : s.handles fd = some h) (hpos : h.pos ≤ (s.dataOf h).length) :
    ∃ out s', Vfs.read fd n s = .ok out s' ∧ Reads s fd h n out s' := by
  refine ⟨_, _, read_eq hfd hpos, rfl, ?_, ?_, rfl⟩
  · have hlength : (((s.dataOf h).drop h.pos).take (min n ((s.dataOf h).length - h.pos))).length =
        min n ((s.dataOf h).length - h.pos) := by
      rw [List.length_take, List.length_drop]
      omega
    rw [hlength]
    exact Function.update_self ..
  · intro fd' hne
    exact Function.update_of_ne hne ..

theorem within_of_returns (hfd : s.handles fd = some h) (hread : Vfs.read fd n s = .ok out s') :
    h.pos ≤ (s.dataOf h).length := by
  by_contra hpos
  rw [read_throws hfd (by omega)] at hread
  cases hread

/-! ## Writing -/

/-- Growing is appending the zeros that are missing. -/
theorem grow_eq (old : List UInt8) (size : ℕ) :
    (if size > old.length then old ++ List.replicate (size - old.length) 0 else old) =
      old ++ List.replicate (size - old.length) 0 := by
  split
  · rfl
  · have hnone : size - old.length = 0 := by omega
    rw [hnone, List.replicate_zero, List.append_nil]

/-- The content that `write` stores: grown with zeros where needed, then overwritten. -/
theorem written_overwrite (old : List UInt8) (p : ℕ) (x : List UInt8) :
    Written old p x
      (overwrite (old ++ List.replicate (p + x.length - old.length) 0) p x) := by
  intro i
  have hlength :
      p + x.length ≤ (old ++ List.replicate (p + x.length - old.length) (0 : UInt8)).length := by
    rw [List.length_append, List.length_replicate]
    omega
  by_cases hin : p ≤ i ∧ i < p + x.length
  · obtain ⟨rest, hrest⟩ := standsAt_overwrite (x := x) (Nat.le_of_add_right_le hlength)
    obtain ⟨j, rfl⟩ := Nat.exists_eq_add_of_le hin.1
    rw [if_pos hin, ← List.getElem?_drop, ← hrest, Nat.add_sub_cancel_left]
    exact List.getElem?_append_left (by omega)
  · rw [if_neg hin, getElem?_overwrite hlength (by omega)]
    by_cases hold : i < old.length
    · rw [if_pos hold, List.getElem?_append_left hold]
    · rw [if_neg hold, List.getElem?_append_right (by omega), List.getElem?_replicate]
      -- Outside of the range that is written, the appended zeros end at the position.
      have hiff : i - old.length < p + x.length - old.length ↔ i < p := by omega
      simp only [hiff]

theorem write_eq (hfd : s.handles fd = some h) (hwritable : h.writable = true) :
    Vfs.write fd x s = .ok x.length
      (putHandle fd { h with pos := h.pos + x.length, dirty := true }
        { s with
          store := Function.update s.store h.path
            (some (overwrite ((s.store h.path).getD [] ++
              List.replicate (h.pos + x.length - ((s.store h.path).getD []).length) 0)
              h.pos x)) }) := by
  rw [Vfs.write, get_bind, hfd]
  dsimp only
  rw [if_pos hwritable, grow_eq]
  rfl

theorem writes_of_writable (hfd : s.handles fd = some h) (hwritable : h.writable = true) :
    ∃ s', Vfs.write fd x s = .ok x.length s' ∧ Writes s fd h x s' := by
  refine ⟨_, write_eq hfd hwritable, ⟨_, Function.update_self .., written_overwrite _ _ _⟩, ?_, ?_,
    ?_⟩
  · exact Function.update_self ..
  · intro fd' hne
    exact Function.update_of_ne hne ..
  · intro path hne
    exact Function.update_of_ne hne ..

/-! ## Sequences of calls -/

/-- One call is as a file model has it just when it does not read behind the end. -/
theorem fileLike_iff (s : Vfs) (c : Call) : s.FileLike c ↔ s.WithinContent c := by
  cases c with
  | read fd n =>
    constructor
    · intro hlike h hfd
      obtain ⟨out, s', hread, -⟩ := hlike h hfd
      exact within_of_returns hfd hread
    · intro hwithin h hfd
      exact reads_of_within hfd (hwithin h hfd)
  | write fd x =>
    constructor
    · intro _
      trivial
    · intro _ h hfd hwritable
      exact writes_of_writable hfd hwritable
  | _ => exact Iff.rfl

/-- In every sequence of calls, with or without a write observer, all reads through open
descriptors and all writes through writable ones are as a file model has them if and only if no
read starts behind the end of its content. -/
theorem calls_fileLike_iff (observed : Bool) (calls : List Call) :
    Steps (fun s c => some (step s c)) FileLike { observed } calls ↔
      Steps (fun s c => some (step s c)) WithinContent { observed } calls :=
  steps_congr fileLike_iff _ calls

/-- One descriptor reads a file to its end, a second one truncates the file, and the next read
through the first one throws. -/
theorem read_behind_truncated :
    ¬ Steps (fun s c => some (step s c)) FileLike {}
      [.addFile [47, 97] [1], .openPath [47, 97] 0 none, .read 3 1,
        .openPath [47, 97] (kTrunc + 1) none, .read 3 1] := by
  rw [steps_congr fileLike_iff]
  simp only [steps_cons_some]
  rintro ⟨-, -, -, -, hread, -⟩
  have hpos := hread _ rfl
  revert hpos
  decide

end Vfs

end Vardoger
