import Vardoger.Android.FileModel
import Vardoger.Android.VfsCalls

/-!
# Files that come into being

A path that is not in the store may be served by the host, with content that is made up when it is
opened. Such a path stays with the host as long as nothing stores it. Opening a file for writing
does store it, whether or not the flags ask for its creation, and so does a write through a
handle whose file was unlinked.
-/

namespace Vardoger

open Bytes Stateful Runs

namespace Vfs

variable {s : Vfs} {path : Path} {flags : ℕ} {c : Call}

/-- The flags that `fopen` makes of its mode. -/
def fopenFlags (mode : List UInt8) : ℕ :=
  let flags :=
    if 119 ∈ mode then kWrOnly ||| kCreat ||| kTrunc
    else if 97 ∈ mode then kWrOnly ||| kCreat ||| kAppend
    else 0
  if 43 ∈ mode then flags ||| kRdWr else flags

/-- An open without `O_CREAT`, a write or a close. -/
def Call.isPlain : Call → Bool
  | .openPath _ flags _ => flags &&& kCreat = 0
  | .write .. | .close .. => true
  | .addFile .. | .dup .. | .dup2 .. | .read .. | .seek .. | .gets .. | .unlink .. => false

/-- An open of the path fails and leaves the store alone. -/
def OpensNothing (s : Vfs) (path : Path) (flags : ℕ) : Prop :=
  ∃ s', openPath path flags none s = .ok 0 s' ∧ s'.store = s.store

/-- Whatever the host makes up for the path, an open of it gives a handle at its start. -/
def ServesProvided (s : Vfs) (path : Path) (flags : ℕ) : Prop :=
  ∀ content, ∃ fd s' h, openPath path flags (some content) s = .ok fd s' ∧
    s'.handles fd = some h ∧ s'.dataOf h = content ∧ h.pos = 0

/-- The next call does not open the path for writing, does not write through a writable handle on
it, and does not close a written one whose observer would look the path up. -/
def LeavesAlone (path : Path) (s : Vfs) : Call → Prop
  | .openPath p flags _ => p = path → wantsWrite flags = false
  | .write fd _ => ∀ h, s.handles fd = some h → h.path = path → h.writable = false
  | .close fd => ∀ h, s.handles fd = some h → h.path = path →
      (h.writable && h.dirty && s.observed) = false
  | _ => True

/-! ## One call -/

/-- Without `O_CREAT`, a file is opened for writing just when an access mode asks for it. -/
theorem wantsWrite_plain (hflags : flags &&& kCreat = 0) :
    wantsWrite flags = false ↔ flags &&& 3 = 0 := by
  have hcreat : flags &&& 0x40 = 0 := hflags
  simp [wantsWrite, hcreat]

/-- A path comes to be stored just when a call stores it. -/
theorem store_step_eq_none (hc : c.isPlain = true) :
    (s.step c).store path = none ↔ s.store path = none ∧ s.LeavesAlone path c := by
  cases c with
  | openPath p flags provided =>
    obtain ⟨hread, hstored, hopen⟩ | ⟨hwrite, hopen⟩ | ⟨hread, h, -, -, hopen⟩ :=
      openPath_cases s p flags provided
    · rw [step, hopen]
      exact ⟨fun hnone => ⟨hnone, fun _ => hread⟩, fun hnone => hnone.1⟩
    · have hstore : (s.step (.openPath p flags provided)).store =
          Function.update s.store p (some (s.contentFor p flags)) := by
        rw [step, hopen]
        rfl
      rw [hstore]
      by_cases heq : path = p
      · subst heq
        rw [Function.update_self]
        constructor
        · intro hsome
          cases hsome
        · rintro ⟨-, hleft⟩
          rw [hleft rfl] at hwrite
          cases hwrite
      · rw [Function.update_of_ne heq]
        exact ⟨fun hnone => ⟨hnone, fun hp => absurd hp.symm heq⟩, fun hnone => hnone.1⟩
    · rw [step, hopen]
      exact ⟨fun hnone => ⟨hnone, fun _ => hread⟩, fun hnone => hnone.1⟩
  | write fd x =>
    cases hfd : s.handles fd with
    | none =>
      have hsame : s.step (.write fd x) = s := by
        rw [step, write, get_bind, hfd]
        rfl
      simp [hsame, LeavesAlone, hfd]
    | some h =>
      by_cases hwritable : h.writable = true
      · rw [step, write_eq hfd hwritable]
        by_cases heq : path = h.path
        · subst heq
          simp [LeavesAlone, hfd, hwritable, final, putHandle]
        · simp [LeavesAlone, hfd, hwritable, final, putHandle, Function.update_of_ne heq,
            Ne.symm heq]
      · have hsame : s.step (.write fd x) = s := by
          rw [step, write, get_bind, hfd]
          simp only [if_neg hwritable]
          rfl
        simp [hsame, LeavesAlone, hfd, hwritable]
  | close fd =>
    have hstep : s.step (.close fd) = s.closed fd := rfl
    rw [hstep]
    cases hfd : s.handles fd with
    | none =>
      simp [closed_none hfd, LeavesAlone, hfd]
    | some h =>
      rw [closed_some hfd]
      by_cases htold : (h.writable && h.dirty && s.observed) = true
      · rw [if_pos htold]
        by_cases heq : path = h.path
        · subst heq
          constructor
          · intro hsome
            simp only [Function.update_self, reduceCtorEq] at hsome
          · rintro ⟨-, hleft⟩
            rw [hleft h hfd rfl] at htold
            cases htold
        · simp [LeavesAlone, hfd, Function.update_of_ne heq, Ne.symm heq]
      · rw [if_neg htold]
        refine ⟨fun hnone => ⟨hnone, fun h' hfd' _ => ?_⟩, fun hnone => hnone.1⟩
        obtain rfl := Option.some.inj (hfd.symm.trans hfd')
        exact Bool.not_eq_true _ ▸ htold
  | _ => cases hc

/-! ## Sequences of calls -/

/-- A path is still not stored behind a sequence of calls just when none of them stores it. -/
theorem store_calls_eq_none {calls : List Call} (hcalls : ∀ c ∈ calls, c.isPlain = true) :
    (calls.foldl step s).store path = none ↔
      s.store path = none ∧ Steps (fun s c => some (step s c)) (LeavesAlone path) s calls := by
  induction calls generalizing s with
  | nil => exact ⟨fun hnone => ⟨hnone, trivial⟩, fun hnone => hnone.1⟩
  | cons c calls ih =>
    have hrest := ih (s := s.step c) fun c' hc' => hcalls c' (List.mem_cons_of_mem c hc')
    rw [List.foldl_cons, hrest, store_step_eq_none (hcalls c List.mem_cons_self), steps_cons_some,
      and_assoc]

/-- A path that nobody serves is not opened just when no access mode asks for writing. -/
theorem opensNothing_iff (hstored : s.store path = none) (hflags : flags &&& kCreat = 0) :
    s.OpensNothing path flags ↔ flags &&& 3 = 0 := by
  rw [← wantsWrite_plain hflags]
  constructor
  · rintro ⟨s', hopen, hsame⟩
    cases hwrite : wantsWrite flags with
    | false => rfl
    | true =>
      rw [openPath_write hwrite] at hopen
      injection hopen with _ hstate
      have hpath : s'.store path = some (s.contentFor path flags) := by
        rw [← hstate]
        exact Function.update_self ..
      rw [hsame, hstored] at hpath
      cases hpath
  · intro hread
    exact ⟨s, openPath_missing hread hstored, rfl⟩

/-- A read-only open serves what the host makes up just when the path is not stored. -/
theorem servesProvided_iff (hread : wantsWrite flags = false) :
    s.ServesProvided path flags ↔ s.store path = none := by
  constructor
  · intro hserves
    by_contra hstored
    obtain ⟨content, hcontent⟩ := Option.ne_none_iff_exists'.mp hstored
    obtain ⟨fd, s', h, hopen, hfd, hdata, -⟩ := hserves (0 :: content)
    rw [openPath_stored hread (by rw [hcontent]; rfl)] at hopen
    injection hopen with hnext hstate
    have hhandle : s'.handles fd = some { path } := by
      rw [← hstate, ← hnext]
      exact Function.update_self ..
    obtain rfl := Option.some.inj (hfd.symm.trans hhandle)
    have hstore : s'.store path = some content := by
      rw [← hstate]
      exact hcontent
    have hsame : content = 0 :: content := by
      rw [← hdata]
      simp [dataOf, hstore]
    exact absurd (congrArg List.length hsame) (by simp)
  · intro hstored content
    exact ⟨_, _, _, openPath_provided hread hstored content, Function.update_self .., rfl, rfl⟩

/-- For every state, a path that is not stored and flags without `O_CREAT`: the path is not opened
where the host does not serve it, and behind a sequence of opens without `O_CREAT`, writes and
closes a read-only open still serves what the host makes up, if and only if the flags do not ask
for writing and no call of the sequence stores the path. -/
theorem open_creates_nothing_iff (s : Vfs) (path : Path) (flags later : ℕ) (calls : List Call)
    (hstored : s.store path = none) (hflags : flags &&& kCreat = 0)
    (hcalls : ∀ c ∈ calls, c.isPlain = true) (hlater : wantsWrite later = false) :
    (s.OpensNothing path flags ∧ (calls.foldl step s).ServesProvided path later) ↔
      flags &&& 3 = 0 ∧ Steps (fun s c => some (step s c)) (LeavesAlone path) s calls := by
  rw [opensNothing_iff hstored hflags, servesProvided_iff hlater, store_calls_eq_none hcalls]
  exact and_congr_right fun _ => and_iff_right hstored

/-- A file is opened for reading while another one is opened and written. -/
theorem open_creates_nothing_beside :
    OpensNothing {} [47, 112] 0 ∧
      ServesProvided (List.foldl step {}
        [.openPath [47, 112] 0 (some [1]), .openPath [47, 97] kWrOnly none, .write 4 [2], .close 4])
        [47, 112] 0 :=
  (open_creates_nothing_iff {} [47, 112] 0 0
    [.openPath [47, 112] 0 (some [1]), .openPath [47, 97] kWrOnly none, .write 4 [2], .close 4]
    rfl rfl (by decide) rfl).mpr ⟨rfl, by
      simp only [steps_cons_some]
      refine ⟨fun _ => rfl, fun hpath => ?_, fun h hfd hpath => ?_, fun h hfd hpath => ?_, trivial⟩
      · exact absurd hpath (by decide)
      · obtain rfl := Option.some.inj hfd
        exact absurd hpath (by decide)
      · obtain rfl := Option.some.inj hfd
        exact absurd hpath (by decide)⟩

/-- `fopen` with mode `r+` creates the file, though its flags lack `O_CREAT`. -/
theorem fopen_update_creates :
    fopenFlags [114, 43] &&& kCreat = 0 ∧ ¬OpensNothing {} [47, 97] (fopenFlags [114, 43]) := by
  have hflags : fopenFlags [114, 43] &&& kCreat = 0 := by decide
  refine ⟨hflags, fun hnothing => ?_⟩
  have hmode := (opensNothing_iff rfl hflags).mp hnothing
  revert hmode
  decide

end Vfs

end Vardoger
