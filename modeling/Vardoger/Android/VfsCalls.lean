import Vardoger.Android.Vfs

/-!
# What the calls of the file system do

One equation for every way a call can go, over the table of handles and the store. Everything else
about the file system is derived from these.
-/

namespace Vardoger

open Bytes Stateful

namespace Vfs

variable {s : Vfs} {fd oldFd newFd : ℤ} {h : Handle} {path : Path} {flags : ℕ}
  {provided : Option (List UInt8)}

/-- The state in which a handle stands under the next free number. -/
def entered (h : Handle) (s : Vfs) : Vfs :=
  { putHandle s.nextFd h s with nextFd := int32 (s.nextFd + 1) }

/-- Entering a handle moves the counter. -/
theorem entered_nextFd_ne (h : Handle) (s : Vfs) : (entered h s).nextFd ≠ s.nextFd :=
  int32_succ_ne s.nextFd

/-- The content that a path has when it is opened for writing. -/
def contentFor (s : Vfs) (path : Path) (flags : ℕ) : List UInt8 :=
  match s.store path with
  | none => []
  | some old => if flags &&& kTrunc ≠ 0 then [] else old

/-- The state in which a path has a content. -/
def stored (path : Path) (content : List UInt8) (s : Vfs) : Vfs :=
  { s with store := Function.update s.store path (some content) }

/-- The handle on a path that is opened for writing. -/
def writer (s : Vfs) (path : Path) (flags : ℕ) : Handle :=
  { path, writable := true,
    pos := if flags &&& kAppend ≠ 0 then (s.contentFor path flags).length else 0 }

/-! ## Opening -/

theorem openPath_write (hwrite : wantsWrite flags = true) :
    openPath path flags provided s =
      .ok s.nextFd (entered (s.writer path flags) (s.stored path (s.contentFor path flags))) := by
  rw [openPath.eq_def, get_bind, if_pos hwrite]
  rfl

theorem openPath_stored (hread : wantsWrite flags = false)
    (hstored : (s.store path).isSome = true) :
    openPath path flags provided s = .ok s.nextFd (entered { path } s) := by
  rw [openPath.eq_def, get_bind, if_neg (by simp [hread]), if_pos hstored]
  rfl

theorem openPath_provided (hread : wantsWrite flags = false) (hstored : s.store path = none)
    (snapshot : List UInt8) : openPath path flags (some snapshot) s =
      .ok s.nextFd (entered { synthetic := true, snapshot } s) := by
  rw [openPath.eq_def, get_bind, if_neg (by simp [hread]), if_neg (by simp [hstored])]
  rfl

theorem openPath_missing (hread : wantsWrite flags = false) (hstored : s.store path = none) :
    openPath path flags none s = .ok 0 s := by
  rw [openPath.eq_def, get_bind, if_neg (by simp [hread]), if_neg (by simp [hstored])]
  rfl

/-- Either nothing is opened and nothing changes, or a clean handle is entered; a path that is
opened for writing is stored. -/
theorem openPath_cases (s : Vfs) (path : Path) (flags : ℕ) (provided : Option (List UInt8)) :
    (wantsWrite flags = false ∧ s.store path = none ∧ openPath path flags provided s = .ok 0 s) ∨
    (wantsWrite flags = true ∧ openPath path flags provided s =
      .ok s.nextFd (entered (s.writer path flags) (s.stored path (s.contentFor path flags)))) ∨
    (wantsWrite flags = false ∧ ∃ h : Handle, h.writable = false ∧ h.dirty = false ∧
      openPath path flags provided s = .ok s.nextFd (entered h s)) := by
  cases hwrite : wantsWrite flags with
  | true => exact .inr (.inl ⟨rfl, openPath_write hwrite⟩)
  | false =>
    cases hstored : s.store path with
    | some content =>
      exact .inr (.inr ⟨rfl, _, rfl, rfl, openPath_stored hwrite (by rw [hstored]; rfl)⟩)
    | none =>
      cases provided with
      | some snapshot =>
        exact .inr (.inr ⟨rfl, _, rfl, rfl, openPath_provided hwrite hstored snapshot⟩)
      | none => exact .inl ⟨rfl, rfl, openPath_missing hwrite hstored⟩

/-! ## Copying and closing -/

theorem dup_none (hfd : s.handles oldFd = none) : dup oldFd s = .ok 0 s := by
  rw [dup, get_bind, hfd]
  rfl

theorem dup_some (hfd : s.handles oldFd = some h) : dup oldFd s = .ok s.nextFd (entered h s) := by
  rw [dup, get_bind, hfd]
  rfl

/-- The state behind `close`. -/
def closed (fd : ℤ) (s : Vfs) : Vfs := final (close fd s)

theorem closed_none (hfd : s.handles fd = none) : s.closed fd = s := by
  simp only [closed, close, final_modify, hfd]

theorem closed_some (hfd : s.handles fd = some h) :
    s.closed fd =
      if h.writable && h.dirty && s.observed then
        { s with
          store := Function.update s.store h.path (some ((s.store h.path).getD []))
          reports := s.reports ++ [(h.path, (s.store h.path).getD [])]
          handles := Function.update s.handles fd none }
      else { s with handles := Function.update s.handles fd none } := by
  simp only [closed, close, final_modify, hfd]
  split
  · rfl
  · rfl

@[simp] theorem closed_nextFd (fd : ℤ) (s : Vfs) : (s.closed fd).nextFd = s.nextFd := by
  cases hfd : s.handles fd with
  | none => rw [closed_none hfd]
  | some h =>
    rw [closed_some hfd]
    split
    · rfl
    · rfl

@[simp] theorem closed_handles (fd : ℤ) (s : Vfs) :
    (s.closed fd).handles = Function.update s.handles fd none := by
  cases hfd : s.handles fd with
  | none =>
    rw [closed_none hfd, ← hfd, Function.update_eq_self]
  | some h =>
    rw [closed_some hfd]
    split
    · rfl
    · rfl

/-- The counter behind a `dup2` onto `newFd`. -/
def countPast (newFd nextFd : ℤ) : ℤ := if newFd ≥ nextFd then int32 (newFd + 1) else nextFd

theorem dup2_none (hfd : s.handles oldFd = none) : dup2 oldFd newFd s = .ok (-1) s := by
  rw [dup2, get_bind, hfd]
  rfl

theorem dup2_self (hfd : s.handles oldFd = some h) : dup2 oldFd oldFd s = .ok oldFd s := by
  rw [dup2, get_bind, hfd]
  simp only [if_true]
  rfl

theorem dup2_some (hfd : s.handles oldFd = some h) (hne : oldFd ≠ newFd) :
    dup2 oldFd newFd s = .ok newFd
      { putHandle newFd h (s.closed newFd) with nextFd := countPast newFd s.nextFd } := by
  have hclose : close newFd s = .ok () (s.closed newFd) := rfl
  rw [dup2, get_bind, hfd]
  simp only [if_neg hne]
  rw [bind_ok hclose, modify_bind]
  have hcount : (if newFd ≥ (putHandle newFd h (s.closed newFd)).nextFd then
        { putHandle newFd h (s.closed newFd) with nextFd := int32 (newFd + 1) }
      else putHandle newFd h (s.closed newFd)) =
      { putHandle newFd h (s.closed newFd) with nextFd := countPast newFd s.nextFd } := by
    have hnextFd : (putHandle newFd h (s.closed newFd)).nextFd = s.nextFd := closed_nextFd newFd s
    rw [hnextFd, countPast]
    split
    · rfl
    · rw [← hnextFd]
  exact congrArg (EStateM.Result.ok newFd) hcount

/-! ## Calls that move a position -/

/-- A call that neither opens, copies nor closes a descriptor. -/
def Call.isTransfer : Call → Bool
  | .addFile .. | .unlink .. | .read .. | .write .. | .seek .. | .gets .. => true
  | .openPath .. | .dup .. | .dup2 .. | .close .. => false

/-- Such a call leaves every descriptor with its path, its snapshot and its mode. -/
structure SameTable (s s' : Vfs) : Prop where
  nextFd : s'.nextFd = s.nextFd
  handles : ∀ fd, (∃ h h', s.handles fd = some h ∧ s'.handles fd = some h' ∧ h'.path = h.path ∧
    h'.writable = h.writable ∧ h'.synthetic = h.synthetic ∧ h'.snapshot = h.snapshot) ∨
    (s.handles fd = none ∧ s'.handles fd = none)

theorem SameTable.refl (s : Vfs) : s.SameTable s where
  nextFd := rfl
  handles := by
    intro fd
    cases hfd : s.handles fd with
    | none => exact .inr ⟨rfl, rfl⟩
    | some h => exact .inl ⟨h, h, rfl, rfl, rfl, rfl, rfl, rfl⟩

/-- A new position and a new dirty mark do not change what a descriptor stands for. -/
theorem SameTable.moved (hfd : s.handles fd = some h) (pos : ℕ) (dirty : Bool)
    (store : Path → Option (List UInt8)) :
    s.SameTable (putHandle fd { h with pos, dirty } { s with store }) where
  nextFd := rfl
  handles := by
    intro fd'
    by_cases heq : fd' = fd
    · subst heq
      exact .inl ⟨h, _, hfd, Function.update_self .., rfl, rfl, rfl, rfl⟩
    · have hsame : (putHandle fd { h with pos, dirty } { s with store }).handles fd' =
          s.handles fd' := Function.update_of_ne heq ..
      rw [hsame]
      exact (SameTable.refl s).handles fd'

theorem SameTable.isOpen {s s' : Vfs} (h : s.SameTable s') (fd : ℤ) :
    s'.isOpen fd = s.isOpen fd := by
  obtain ⟨_, _, hs, hs', -⟩ | ⟨hs, hs'⟩ := h.handles fd
  · rw [Vfs.isOpen, Vfs.isOpen, hs, hs']
    rfl
  · rw [Vfs.isOpen, Vfs.isOpen, hs, hs']

theorem step_sameTable {c : Call} (hc : c.isTransfer = true) : s.SameTable (s.step c) := by
  cases c with
  | addFile path content => exact ⟨rfl, (SameTable.refl s).handles⟩
  | unlink path => exact ⟨rfl, (SameTable.refl s).handles⟩
  | read fd n =>
    cases hfd : s.handles fd with
    | none =>
      rw [step, read, get_bind, hfd]
      exact SameTable.refl s
    | some h =>
      rw [step, read, get_bind, hfd]
      dsimp only
      split
      · exact SameTable.refl s
      · exact SameTable.moved hfd _ h.dirty s.store
  | write fd x =>
    cases hfd : s.handles fd with
    | none =>
      rw [step, write, get_bind, hfd]
      exact SameTable.refl s
    | some h =>
      rw [step, write, get_bind, hfd]
      dsimp only
      split
      · exact SameTable.moved hfd _ true _
      · exact SameTable.refl s
  | seek fd pos =>
    cases hfd : s.handles fd with
    | none =>
      rw [step, seek, final_modify, hfd]
      exact SameTable.refl s
    | some h =>
      rw [step, seek, final_modify, hfd]
      exact SameTable.moved hfd _ h.dirty s.store
  | gets fd max =>
    cases hfd : s.handles fd with
    | none =>
      rw [step, gets, get_bind, hfd]
      exact SameTable.refl s
    | some h =>
      rw [step, gets, get_bind, hfd]
      dsimp only
      split
      · exact SameTable.refl s
      · exact SameTable.moved hfd _ h.dirty s.store
  | _ => cases hc

end Vfs

end Vardoger
