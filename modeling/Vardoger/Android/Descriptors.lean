import Vardoger.Android.VfsCalls
import Vardoger.Base.Runs

/-!
# Fresh descriptors

Descriptors are numbered by a counter that `dup2` pushes past the number it is given. Every open
descriptor therefore lies below the counter, as long as the counter, a C `int`, does not pass its
last value.
-/

namespace Vardoger

open Stateful Runs

namespace Vfs

variable {s : Vfs} {fd oldFd newFd : ℤ} {h : Handle}

/-- The last value of the counter. -/
def lastFd : ℤ := 0x7fffffff

/-- A descriptor that a call returned was not open before, unless it is 0, for failure. -/
def IsFresh (s : Vfs) (fd : ℤ) : Prop := fd ≠ 0 → 3 ≤ fd ∧ s.isOpen fd = false

/-- A copy of the open handle `h` is made at `newFd`: the state behind it differs from the one
behind a `close` of what was there, if that is another descriptor, in this handle only. -/
structure Copies (s : Vfs) (oldFd newFd : ℤ) (h : Handle) (s' : Vfs) : Prop where
  old : s'.handles oldFd = some h
  copy : s'.handles newFd = some h
  others : ∀ fd, fd ≠ newFd → s'.handles fd = s.handles fd
  contents : s'.store = if oldFd = newFd then s.store else (final (close newFd s)).store
  reports : s'.reports = if oldFd = newFd then s.reports else (final (close newFd s)).reports

/-- The next call returns, and hands out a fresh descriptor or copies an open one as it should. -/
def Fresh (s : Vfs) : Call → Prop
  | .openPath path flags provided =>
      ∃ fd s', Vfs.openPath path flags provided s = .ok fd s' ∧ s.IsFresh fd
  | .dup oldFd =>
      (∃ fd s', Vfs.dup oldFd s = .ok fd s' ∧ s.IsFresh fd) ∧
      (s.isOpen oldFd = false → s.step (.dup oldFd) = s)
  | .dup2 oldFd newFd =>
      (∀ h, s.handles oldFd = some h →
        ∃ s', Vfs.dup2 oldFd newFd s = .ok newFd s' ∧ s.Copies oldFd newFd h s') ∧
      (s.isOpen oldFd = false → s.step (.dup2 oldFd newFd) = s)
  | _ => True

/-- The next call does not move the counter past its last value: no descriptor is handed out when
it has reached that value, and none is placed there. -/
def CountsOn (s : Vfs) : Call → Prop
  | .openPath .. => s.nextFd < lastFd
  | .dup _ => s.nextFd < lastFd
  | .dup2 _ newFd => newFd < lastFd
  | _ => True

instance (s : Vfs) : (c : Call) → Decidable (s.CountsOn c)
  | .openPath .. => inferInstanceAs (Decidable (s.nextFd < lastFd))
  | .dup _ => inferInstanceAs (Decidable (s.nextFd < lastFd))
  | .dup2 _ newFd => inferInstanceAs (Decidable (newFd < lastFd))
  | .addFile .. | .read .. | .write .. | .seek .. | .gets .. | .close .. | .unlink .. =>
      isTrue trivial

/-- Every open descriptor lies below the counter. -/
structure Counted (s : Vfs) : Prop where
  first : 3 ≤ s.nextFd
  last : s.nextFd ≤ lastFd
  below : ∀ fd, s.isOpen fd = true → fd < s.nextFd

theorem isOpen_eq_false : s.isOpen fd = false ↔ s.handles fd = none := by
  simp [isOpen]

theorem isOpen_putHandle {fd' : ℤ} (hopen : (putHandle fd h s).isOpen fd' = true) :
    fd' = fd ∨ s.isOpen fd' = true := by
  by_cases heq : fd' = fd
  · exact .inl heq
  · have hsame : (putHandle fd h s).handles fd' = s.handles fd' := Function.update_of_ne heq ..
    rw [isOpen, hsame] at hopen
    exact .inr hopen

/-- The counter is itself not in use. -/
theorem Counted.isFresh (hs : s.Counted) : s.IsFresh s.nextFd := by
  intro _
  constructor
  · exact hs.first
  · by_contra hopen
    have hbelow := hs.below s.nextFd (by simpa using hopen)
    exact lt_irrefl _ hbelow

/-! ## One call -/

theorem Counted.entered (hs : s.Counted) (hnext : s.nextFd < lastFd) (h : Handle) :
    (entered h s).Counted := by
  have hfirst := hs.first
  have hcount : int32 (s.nextFd + 1) = s.nextFd + 1 := by
    apply int32_eq
    · omega
    · rw [lastFd] at hnext
      omega
  have hnextFd : (Vfs.entered h s).nextFd = s.nextFd + 1 := hcount
  constructor
  · omega
  · omega
  · intro fd hopen
    rw [hnextFd]
    obtain rfl | hbefore := isOpen_putHandle (s := s) hopen
    · exact lt_add_one _
    · exact (hs.below fd hbefore).trans (lt_add_one _)

theorem Counted.stored (hs : s.Counted) (path : Path) (content : List UInt8) :
    (s.stored path content).Counted := ⟨hs.first, hs.last, hs.below⟩

theorem Counted.closed (hs : s.Counted) (fd : ℤ) : (s.closed fd).Counted := by
  constructor
  · rw [closed_nextFd]
    exact hs.first
  · rw [closed_nextFd]
    exact hs.last
  · intro fd' hopen
    rw [closed_nextFd]
    apply hs.below
    rw [isOpen, closed_handles] at hopen
    by_cases heq : fd' = fd
    · subst heq
      rw [Function.update_self] at hopen
      cases hopen
    · rwa [Function.update_of_ne heq] at hopen

theorem Counted.of_sameTable {s' : Vfs} (hs : s.Counted) (hsame : s.SameTable s') :
    s'.Counted := by
  constructor
  · rw [hsame.nextFd]
    exact hs.first
  · rw [hsame.nextFd]
    exact hs.last
  · intro fd hopen
    rw [hsame.isOpen] at hopen
    rw [hsame.nextFd]
    exact hs.below fd hopen

/-- The counter goes past the number that a handle is placed at. -/
theorem countPast_eq (hlast : newFd < lastFd) (hfirst : 3 ≤ s.nextFd) :
    countPast newFd s.nextFd = max (newFd + 1) s.nextFd := by
  rw [lastFd] at hlast
  unfold countPast
  split
  · rw [int32_eq (by omega) (by omega)]
    omega
  · omega

theorem Counted.placed (hs : s.Counted) (hlast : newFd < lastFd) (h : Handle) :
    Counted { putHandle newFd h s with nextFd := countPast newFd s.nextFd } := by
  have hcount := countPast_eq hlast hs.first
  have hfirst := hs.first
  have hin := hs.last
  constructor
  · dsimp only
    omega
  · dsimp only
    omega
  · intro fd hopen
    dsimp only
    obtain rfl | hbefore := isOpen_putHandle (s := s) hopen
    · omega
    · have hbelow := hs.below fd hbefore
      omega

/-- A copy is as it should be. -/
theorem copies_of_open (hfd : s.handles oldFd = some h) :
    ∃ s', Vfs.dup2 oldFd newFd s = .ok newFd s' ∧ s.Copies oldFd newFd h s' := by
  by_cases hsame : oldFd = newFd
  · subst hsame
    refine ⟨s, dup2_self hfd, ?_⟩
    constructor
    · exact hfd
    · exact hfd
    · intro _ _
      rfl
    · rw [if_pos rfl]
    · rw [if_pos rfl]
  · refine ⟨_, dup2_some hfd hsame, ?_⟩
    constructor
    · have hold : Function.update (s.closed newFd).handles newFd (some h) oldFd = some h := by
        rw [Function.update_of_ne hsame, closed_handles, Function.update_of_ne hsame, hfd]
      exact hold
    · exact Function.update_self ..
    · intro fd hne
      have hother : Function.update (s.closed newFd).handles newFd (some h) fd = s.handles fd := by
        rw [Function.update_of_ne hne, closed_handles, Function.update_of_ne hne]
      exact hother
    · rw [if_neg hsame]
      rfl
    · rw [if_neg hsame]
      rfl

/-- From a state whose open descriptors lie below the counter, a call that does not move the counter
past its last value leads to such a state and hands out what is fresh. -/
theorem Counted.step (hs : s.Counted) {c : Call} (hc : s.CountsOn c) :
    (s.step c).Counted ∧ s.Fresh c := by
  cases c with
  | openPath path flags provided =>
    obtain ⟨-, -, hmissing⟩ | ⟨-, hwrite⟩ | ⟨-, h, -, -, hread⟩ :=
      openPath_cases s path flags provided
    · constructor
      · rw [Vfs.step, hmissing]
        exact hs
      · exact ⟨0, s, hmissing, fun hne => absurd rfl hne⟩
    · constructor
      · rw [Vfs.step, hwrite]
        exact (hs.stored path _).entered hc _
      · exact ⟨_, _, hwrite, hs.isFresh⟩
    · constructor
      · rw [Vfs.step, hread]
        exact hs.entered hc h
      · exact ⟨_, _, hread, hs.isFresh⟩
  | dup oldFd =>
    cases hfd : s.handles oldFd with
    | none =>
      have hsame : s.step (.dup oldFd) = s := by
        rw [Vfs.step, dup_none hfd]
        rfl
      rw [hsame]
      exact ⟨hs, ⟨0, s, dup_none hfd, fun hne => absurd rfl hne⟩, fun _ => hsame⟩
    | some h =>
      constructor
      · rw [Vfs.step, dup_some hfd]
        exact hs.entered hc h
      · refine ⟨⟨_, _, dup_some hfd, hs.isFresh⟩, fun hopen => ?_⟩
        rw [isOpen_eq_false, hfd] at hopen
        cases hopen
  | dup2 oldFd newFd =>
    cases hfd : s.handles oldFd with
    | none =>
      have hsame : s.step (.dup2 oldFd newFd) = s := by
        rw [Vfs.step, dup2_none hfd]
        rfl
      rw [hsame]
      refine ⟨hs, fun h hopen => ?_, fun _ => hsame⟩
      rw [hfd] at hopen
      cases hopen
    | some h =>
      constructor
      · by_cases hsame : oldFd = newFd
        · subst hsame
          rw [Vfs.step, dup2_self hfd]
          exact hs
        · rw [Vfs.step, dup2_some hfd hsame, ← closed_nextFd newFd s]
          exact (hs.closed newFd).placed hc h
      · refine ⟨fun h' hfd' => copies_of_open hfd', fun hopen => ?_⟩
        rw [isOpen_eq_false, hfd] at hopen
        cases hopen
  | close fd => exact ⟨hs.closed fd, trivial⟩
  | _ => exact ⟨hs.of_sameTable (step_sameTable rfl), trivial⟩

/-! ## Sequences of calls -/

/-- No descriptor is open at the start. -/
theorem counted_init (store : Path → Option (List UInt8)) (observed : Bool) :
    Counted { store, observed } where
  first := le_refl 3
  last := by simp [lastFd]
  below := by
    intro fd hopen
    cases hopen

/-- In every sequence of calls that never move the counter past its last value, from any
contents, every descriptor that is handed out is fresh, and every copy is as it should be. -/
theorem calls_fresh (store : Path → Option (List UInt8)) (observed : Bool) (calls : List Call)
    (hcalls : Steps (fun s c => some (step s c)) CountsOn { store, observed } calls) :
    Steps (fun s c => some (step s c)) Fresh { store, observed } calls := by
  refine Steps.imp (fun s c s' hs hc hstep => ?_) (counted_init store observed) hcalls
  obtain rfl := Option.some.inj hstep
  exact hs.step hc

/-- A file is opened, copied twice by `dup` and `dup2`, closed and opened again. -/
theorem calls_fresh_reopened :
    Steps (fun s c => some (step s c)) Fresh { store := fun _ => none, observed := false }
      [.openPath [47, 97] 0x41 none, .dup 3, .dup2 4 9, .close 3, .openPath [47, 97] 0 none] :=
  calls_fresh (fun _ => none) false _ (by decide)

/-- A copy placed at the last descriptor makes the counter wrap: the next file that is opened gets
a negative descriptor. -/
theorem not_fresh_after_last :
    ¬ Steps (fun s c => some (step s c)) Fresh {}
      [.openPath [47, 97] 0x41 none, .dup2 3 0x7fffffff, .openPath [47, 98] 0x41 none] := by
  simp only [steps_cons_some]
  rintro ⟨-, -, ⟨fd, s', hopened, hfresh⟩, -⟩
  rw [openPath_write (by decide)] at hopened
  injection hopened with hfd
  have hnegative : fd = -0x80000000 := by
    rw [← hfd]
    decide
  have hfirst := (hfresh (by omega)).1
  omega

end Vfs

end Vardoger
