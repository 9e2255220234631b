import Vardoger.Android.FileModel
import Vardoger.Android.VfsCalls

/-!
# Appending

A handle opened for appending starts at the end of its file, but it keeps no mark of how it was
opened: its writes go to its position. They append as long as that position is where the file
ends, and otherwise overwrite what is there or leave a gap.
-/

namespace Vardoger

open Bytes Runs

/-- The file system with, for each descriptor, the path it was opened for appending to. -/
structure AppendRecord where
  vfs : Vfs
  appends : ℤ → Option Path := fun _ => none

namespace AppendRecord

variable {r : AppendRecord} {fd : ℤ} {path : Path} {h : Vfs.Handle} {x : List UInt8}

/-- The bytes that a path has; a path that is not stored has none. -/
def content (r : AppendRecord) (path : Path) : List UInt8 := (r.vfs.store path).getD []

/-- What is known after a call: a copy of a handle was opened as that handle was. -/
def record (r : AppendRecord) : Vfs.Call → ℤ → Option Path
  | .openPath path flags provided =>
      if (r.vfs.step (.openPath path flags provided)).nextFd ≠ r.vfs.nextFd then
        Function.update r.appends r.vfs.nextFd
          (if flags &&& Vfs.kAppend ≠ 0 then some path else none)
      else r.appends
  | .dup oldFd =>
      if r.vfs.isOpen oldFd then Function.update r.appends r.vfs.nextFd (r.appends oldFd)
      else r.appends
  | .dup2 oldFd newFd =>
      if r.vfs.isOpen oldFd then Function.update r.appends newFd (r.appends oldFd) else r.appends
  | .close fd => Function.update r.appends fd none
  | .addFile .. | .read .. | .write .. | .seek .. | .gets .. | .unlink .. => r.appends

def step (r : AppendRecord) (c : Vfs.Call) : AppendRecord where
  vfs := r.vfs.step c
  appends := r.record c

/-- The next call, if it writes through a descriptor that was opened for appending, puts its data
behind the content of the path. -/
def Appends (r : AppendRecord) : Vfs.Call → Prop
  | .write fd x => ∀ path, r.appends fd = some path →
      (r.step (.write fd x)).content path = r.content path ++ x
  | _ => True

/-- The next call, if it writes through a descriptor that was opened for appending, finds it open
for writing and at the end of the path, or has nothing to write and finds it not behind the end. -/
def AtEnd (r : AppendRecord) : Vfs.Call → Prop
  | .write fd x => ∀ path h, r.appends fd = some path → r.vfs.handles fd = some h →
      (h.writable = true ∧ h.pos = (r.content path).length) ∨
      (x = [] ∧ (h.writable = true → h.pos ≤ (r.content path).length))
  | _ => True

/-- Every descriptor of the record is open, and writes to the path of the record if it writes. -/
def Right (r : AppendRecord) : Prop :=
  ∀ fd path, r.appends fd = some path →
    ∃ h, r.vfs.handles fd = some h ∧ (h.writable = true → h.path = path)

/-! ## One write -/

/-- What `write` makes of a content is the content and the data behind it just when the data goes
to its end, or there is none and the position is not behind the end. -/
theorem overwrite_grown_eq_append (c : List UInt8) (p : ℕ) (x : List UInt8) :
    overwrite (c ++ List.replicate (p + x.length - c.length) 0) p x = c ++ x ↔
      p = c.length ∨ (x = [] ∧ p ≤ c.length) := by
  have hroom : p + x.length ≤
      (c ++ List.replicate (p + x.length - c.length) (0 : UInt8)).length := by
    rw [List.length_append, List.length_replicate]
    omega
  constructor
  · intro heq
    have hlength := congrArg List.length heq
    rw [length_overwrite hroom, List.length_append, List.length_replicate, List.length_append]
      at hlength
    by_cases hx : x = []
    · subst hx
      rw [List.length_nil] at hlength
      exact .inr ⟨rfl, by omega⟩
    · have hpos := List.length_pos_of_ne_nil hx
      exact .inl (by omega)
  · rintro (rfl | ⟨rfl, hp⟩)
    · have hgrown : c.length + x.length - c.length = x.length := by omega
      rw [hgrown, overwrite, List.take_left, List.drop_of_length_le, List.append_nil]
      rw [List.length_append, List.length_replicate]
    · have hgrown : p + ([] : List UInt8).length - c.length = 0 := by
        rw [List.length_nil]
        omega
      rw [hgrown, overwrite, List.replicate_zero, List.append_nil, List.append_nil,
        List.length_nil, Nat.add_zero, List.take_append_drop]

theorem content_write (hfd : r.vfs.handles fd = some h) (hwritable : h.writable = true) :
    (r.step (.write fd x)).content h.path =
      overwrite (r.content h.path ++
        List.replicate (h.pos + x.length - (r.content h.path).length) 0) h.pos x := by
  rw [content, step, Vfs.step, Vfs.write_eq hfd hwritable]
  simp only [Stateful.final, Vfs.putHandle, Function.update_self]
  rfl

theorem content_write_refused (hfd : r.vfs.handles fd = some h) (hwritable : ¬h.writable = true)
    (path : Path) : (r.step (.write fd x)).content path = r.content path := by
  have hsame : r.vfs.step (.write fd x) = r.vfs := by
    rw [Vfs.step, Vfs.write, Stateful.get_bind, hfd]
    simp only [if_neg hwritable]
    rfl
  rw [content, step, hsame]
  rfl

/-- A write through a descriptor of the record appends just when it finds the end. -/
theorem Right.appends_iff (hr : r.Right) (c : Vfs.Call) : r.Appends c ↔ r.AtEnd c := by
  cases c with
  | write fd x =>
    constructor
    · intro happends path h hpath hfd
      have heq := happends path hpath
      obtain ⟨h', hfd', hwrites⟩ := hr fd path hpath
      obtain rfl := Option.some.inj (hfd.symm.trans hfd')
      by_cases hwritable : h.writable = true
      · obtain rfl := hwrites hwritable
        rw [content_write hfd hwritable, overwrite_grown_eq_append] at heq
        obtain hend | ⟨hnone, hpos⟩ := heq
        · exact .inl ⟨hwritable, hend⟩
        · exact .inr ⟨hnone, fun _ => hpos⟩
      · rw [content_write_refused hfd hwritable] at heq
        exact .inr ⟨List.append_right_eq_self.mp heq.symm, fun h => absurd h hwritable⟩
    · intro hend path hpath
      obtain ⟨h, hfd, hwrites⟩ := hr fd path hpath
      have hat := hend path h hpath hfd
      by_cases hwritable : h.writable = true
      · obtain rfl := hwrites hwritable
        rw [content_write hfd hwritable, overwrite_grown_eq_append]
        obtain ⟨-, hpos⟩ | ⟨hnone, hpos⟩ := hat
        · exact .inl hpos
        · exact .inr ⟨hnone, hpos hwritable⟩
      · obtain ⟨hwrite, -⟩ | ⟨rfl, -⟩ := hat
        · exact absurd hwrite hwritable
        · rw [content_write_refused hfd hwritable, List.append_nil]
  | _ => exact Iff.rfl

/-! ## The record -/

/-- A handle is entered, with what is known of it. -/
theorem Right.update (hr : r.Right) {handles : ℤ → Option Vfs.Handle} {h : Vfs.Handle}
    {known : Option Path} (hfd : handles fd = some h)
    (hknown : ∀ path, known = some path → h.writable = true → h.path = path)
    (hothers : ∀ fd', fd' ≠ fd → handles fd' = r.vfs.handles fd') (fd' : ℤ) (path : Path)
    (hpath : Function.update r.appends fd known fd' = some path) :
    ∃ h, handles fd' = some h ∧ (h.writable = true → h.path = path) := by
  by_cases heq : fd' = fd
  · subst heq
    rw [Function.update_self] at hpath
    exact ⟨h, hfd, hknown path hpath⟩
  · rw [Function.update_of_ne heq] at hpath
    rw [hothers fd' heq]
    exact hr fd' path hpath

theorem Right.transfer (hr : r.Right) {c : Vfs.Call} (hc : c.isTransfer = true) :
    (r.step c).Right := by
  have hrecord : r.record c = r.appends := by
    cases c with
    | openPath | dup | dup2 | close => cases hc
    | _ => rfl
  intro fd path hpath
  simp only [step, hrecord] at hpath ⊢
  obtain ⟨h, hfd, hwrites⟩ := hr fd path hpath
  obtain ⟨h₁, h₂, h₁fd, h₂fd, hpath', hmode, -⟩ | ⟨hnone, -⟩ := (Vfs.step_sameTable hc).handles fd
  · obtain rfl := Option.some.inj (hfd.symm.trans h₁fd)
    refine ⟨h₂, h₂fd, fun hwritable => ?_⟩
    rw [hpath']
    exact hwrites (hmode ▸ hwritable)
  · rw [hfd] at hnone
    cases hnone

theorem Right.openPath (hr : r.Right) (path : Path) (flags : ℕ)
    (provided : Option (List UInt8)) : (r.step (.openPath path flags provided)).Right := by
  obtain ⟨-, -, hopen⟩ | ⟨-, hopen⟩ | ⟨-, h, hreads, -, hopen⟩ :=
    Vfs.openPath_cases r.vfs path flags provided
  · have hstep : r.vfs.step (.openPath path flags provided) = r.vfs := by
      rw [Vfs.step, hopen]
      rfl
    intro fd path' hpath
    simp only [step, record, hstep, ne_eq, not_true_eq_false, if_false] at hpath ⊢
    exact hr fd path' hpath
  · have hstep : r.vfs.step (.openPath path flags provided) =
        Vfs.entered (r.vfs.writer path flags)
          (r.vfs.stored path (r.vfs.contentFor path flags)) := by
      rw [Vfs.step, hopen]
      rfl
    have hcount : (Vfs.entered (r.vfs.writer path flags)
        (r.vfs.stored path (r.vfs.contentFor path flags))).nextFd ≠ r.vfs.nextFd :=
      Vfs.entered_nextFd_ne _ _
    intro fd path' hpath
    simp only [step, record, hstep, if_pos hcount] at hpath ⊢
    refine hr.update (Function.update_self ..) (fun q hq _ => ?_)
      (fun fd' hne => Function.update_of_ne hne ..) fd path' hpath
    split at hq
    · exact Option.some.inj hq
    · cases hq
  · have hstep : r.vfs.step (.openPath path flags provided) = Vfs.entered h r.vfs := by
      rw [Vfs.step, hopen]
      rfl
    intro fd path' hpath
    simp only [step, record, hstep, if_pos (Vfs.entered_nextFd_ne h r.vfs)] at hpath ⊢
    refine hr.update (Function.update_self ..) (fun q _ hwritable => ?_)
      (fun fd' hne => Function.update_of_ne hne ..) fd path' hpath
    rw [hreads] at hwritable
    cases hwritable

/-- The record of a copy is that of the handle it is a copy of. -/
theorem Right.known_of_open (hr : r.Right) (hfd : r.vfs.handles fd = some h) (path : Path)
    (hpath : r.appends fd = some path) (hwritable : h.writable = true) : h.path = path := by
  obtain ⟨h', hfd', hwrites⟩ := hr fd path hpath
  obtain rfl := Option.some.inj (hfd.symm.trans hfd')
  exact hwrites hwritable

theorem Right.dup (hr : r.Right) (oldFd : ℤ) : (r.step (.dup oldFd)).Right := by
  intro fd path hpath
  cases hfd : r.vfs.handles oldFd with
  | none =>
    simp only [step, record, Vfs.isOpen, hfd, Option.isSome_none, Bool.false_eq_true, if_false,
      Vfs.step, Vfs.dup_none hfd] at hpath ⊢
    exact hr fd path hpath
  | some h =>
    simp only [step, record, Vfs.isOpen, hfd, Option.isSome_some, if_true, Vfs.step,
      Vfs.dup_some hfd] at hpath ⊢
    exact hr.update (Function.update_self ..) (hr.known_of_open hfd)
      (fun fd' hne => Function.update_of_ne hne ..) fd path hpath

theorem Right.dup2 (hr : r.Right) (oldFd newFd : ℤ) : (r.step (.dup2 oldFd newFd)).Right := by
  intro fd path hpath
  cases hfd : r.vfs.handles oldFd with
  | none =>
    simp only [step, record, Vfs.isOpen, hfd, Option.isSome_none, Bool.false_eq_true, if_false,
      Vfs.step, Vfs.dup2_none hfd] at hpath ⊢
    exact hr fd path hpath
  | some h =>
    by_cases hsame : oldFd = newFd
    · subst hsame
      simp only [step, record, Vfs.isOpen, hfd, Option.isSome_some, if_true,
        Function.update_eq_self, Vfs.step, Vfs.dup2_self hfd] at hpath ⊢
      exact hr fd path hpath
    · simp only [step, record, Vfs.isOpen, hfd, Option.isSome_some, if_true, Vfs.step,
        Vfs.dup2_some hfd hsame] at hpath ⊢
      refine hr.update (Function.update_self ..) (hr.known_of_open hfd) (fun fd' hne => ?_) fd path
        hpath
      rw [Function.update_of_ne hne, Vfs.closed_handles, Function.update_of_ne hne]

theorem Right.close (hr : r.Right) (fd : ℤ) : (r.step (.close fd)).Right := by
  intro fd' path hpath
  have hhandles : (r.step (.close fd)).vfs.handles = Function.update r.vfs.handles fd none :=
    Vfs.closed_handles fd r.vfs
  rw [hhandles]
  simp only [step, record] at hpath
  by_cases heq : fd' = fd
  · subst heq
    rw [Function.update_self] at hpath
    cases hpath
  · rw [Function.update_of_ne heq] at hpath ⊢
    exact hr fd' path hpath

/-- Every call keeps the record right. -/
theorem Right.step (hr : r.Right) (c : Vfs.Call) : (r.step c).Right := by
  cases c with
  | openPath path flags provided => exact hr.openPath path flags provided
  | dup oldFd => exact hr.dup oldFd
  | dup2 oldFd newFd => exact hr.dup2 oldFd newFd
  | close fd => exact hr.close fd
  | _ => exact hr.transfer rfl

/-! ## Sequences of calls -/

/-- In every sequence of calls, from any contents, all writes through handles that were opened for
appending append if and only if each of them finds its handle open for writing and at the end of
the path, or writes nothing and finds it not behind the end. -/
theorem calls_append_iff (store : Path → Option (List UInt8)) (observed : Bool)
    (calls : List Vfs.Call) :
    Steps (fun r c => some (step r c)) Appends { vfs := { store, observed } } calls ↔
      Steps (fun r c => some (step r c)) AtEnd { vfs := { store, observed } } calls := by
  have hinit : Right { vfs := { store, observed } } := by
    intro fd path hpath
    cases hpath
  refine steps_iff_of_invariant (fun r c r' hr hstep => ?_) (fun r c _ hr _ => hr.appends_iff c)
    hinit
  obtain rfl := Option.some.inj hstep
  exact hr.step c

/-- Two handles append to one file: the second write overwrites what the first one wrote. -/
theorem second_append_overwrites :
    ¬ Steps (fun r c => some (step r c)) Appends { vfs := {} }
      [.openPath [47, 97] 0x441 none, .openPath [47, 97] 0x441 none,
        .write 3 [1], .write 4 [2]] := by
  simp only [steps_cons_some]
  rintro ⟨-, -, -, hwrite, -⟩
  have happended := hwrite [47, 97] rfl
  revert happended
  decide

end AppendRecord

end Vardoger
