import Vardoger.Base.Bytes
import Vardoger.Base.Stateful
import Vardoger.Engine.Engine

/-!
# The virtual file system

A store of path contents and a table of open handles. Handles on a stored path share its content,
which other handles may truncate, replace or unlink, so a position can lie behind the end. A
handle on a file that the host makes up on the fly keeps the content it was opened with.
-/

namespace Vardoger

open Bytes Stateful

/-- A path, a byte string. -/
abbrev Path := List UInt8

structure Vfs.Handle where
  /-- The key of the content in the store. -/
  path : Path := []
  /-- The content of a synthetic file. -/
  snapshot : List UInt8 := []
  pos : ℕ := 0
  writable : Bool := false
  synthetic : Bool := false
  dirty : Bool := false

structure Vfs where
  store : Path → Option (List UInt8) := fun _ => none
  handles : ℤ → Option Vfs.Handle := fun _ => none
  nextFd : ℤ := 3
  /-- Whether a write observer is set. -/
  observed : Bool := false
  /-- What the write observer was told. -/
  reports : List (Path × List UInt8) := []

abbrev VfsM := EStateM Failure Vfs

namespace Vfs

def kWrOnly : ℕ := 1

def kRdWr : ℕ := 2

def kCreat : ℕ := 0x40

def kTrunc : ℕ := 0x200

def kAppend : ℕ := 0x400

/-- `O_WRONLY`, `O_RDWR` or `O_CREAT` is set. -/
def wantsWrite (flags : ℕ) : Bool := flags &&& 3 ≠ 0 || flags &&& 0x40 ≠ 0

def addFile (path : Path) (content : List UInt8) : VfsM Unit :=
  modify fun s => { s with store := Function.update s.store path (some content) }

def unlink (path : Path) : VfsM Bool := do
  let s ← get
  set { s with store := Function.update s.store path none }
  return (s.store path).isSome

/-- The content behind a handle; an unlinked path reads as empty. -/
def dataOf (s : Vfs) (h : Handle) : List UInt8 :=
  if h.synthetic then h.snapshot else (s.store h.path).getD []

def putHandle (fd : ℤ) (h : Handle) (s : Vfs) : Vfs :=
  { s with handles := Function.update s.handles fd (some h) }

/-- The value of a C `int` behind arithmetic that wraps. -/
def int32 (x : ℤ) : ℤ := x.bmod 0x100000000

/-- Enter a handle under the next free number. -/
def enter (h : Handle) : VfsM ℤ := do
  let s ← get
  set { putHandle s.nextFd h s with nextFd := int32 (s.nextFd + 1) }
  return s.nextFd

/-- Open a path; `provided` is what the host makes up for a path that is not stored. -/
def openPath (path : Path) (flags : ℕ) (provided : Option (List UInt8)) : VfsM ℤ := do
  let s ← get
  if wantsWrite flags then
    let content :=
      match s.store path with
      | none => []
      | some old => if flags &&& kTrunc ≠ 0 then [] else old
    addFile path content
    enter { path, writable := true, pos := if flags &&& kAppend ≠ 0 then content.length else 0 }
  else if (s.store path).isSome then
    enter { path }
  else
    match provided with
    | some snapshot => enter { synthetic := true, snapshot }
    | none => return 0

def dup (oldFd : ℤ) : VfsM ℤ := do
  match (← get).handles oldFd with
  | none => return 0
  | some h => enter h

/-- Close a descriptor; the observer learns the content of a file that was written. -/
def close (fd : ℤ) : VfsM Unit :=
  modify fun s =>
    match s.handles fd with
    | none => s
    | some h =>
        let told :=
          if h.writable && h.dirty && s.observed then
            let content := (s.store h.path).getD []
            { s with
              store := Function.update s.store h.path (some content)
              reports := s.reports ++ [(h.path, content)] }
          else s
        { told with handles := Function.update told.handles fd none }

def dup2 (oldFd newFd : ℤ) : VfsM ℤ := do
  match (← get).handles oldFd with
  | none => return -1
  | some h =>
      if oldFd = newFd then
        return newFd
      close newFd
      modify fun s =>
        let s := putHandle newFd h s
        if newFd ≥ s.nextFd then { s with nextFd := int32 (newFd + 1) } else s
      return newFd

/-- Read at most `n` bytes. `std::string::assign` rejects a position behind the end of it. -/
def read (fd : ℤ) (n : ℕ) : VfsM (List UInt8) := do
  let s ← get
  match s.handles fd with
  | none => return []
  | some h =>
      let src := s.dataOf h
      let avail := if src.length > h.pos then src.length - h.pos else 0
      let take := min n avail
      if h.pos > src.length then
        throw (.runtime "basic_string::assign")
      set (putHandle fd { h with pos := h.pos + take } s)
      return (src.drop h.pos).take take

/-- Write bytes at the position of a handle, behind zeros if it lies behind the end. -/
def write (fd : ℤ) (x : List UInt8) : VfsM ℕ := do
  let s ← get
  match s.handles fd with
  | none => return 0
  | some h =>
      if h.writable then
        let dst := (s.store h.path).getD []
        let dst :=
          if h.pos + x.length > dst.length then
            dst ++ List.replicate (h.pos + x.length - dst.length) 0
          else dst
        let dst := overwrite dst h.pos x
        set (putHandle fd { h with pos := h.pos + x.length, dirty := true }
          { s with store := Function.update s.store h.path (some dst) })
        return x.length
      else
        return 0

/-- The loop of `gets`: at most `room` bytes, up to and with a newline. -/
def line : ℕ → List UInt8 → List UInt8
  | 0, _ => []
  | _ + 1, [] => []
  | room + 1, c :: rest => if c = 10 then [c] else c :: line room rest

/-- Read a line of less than `max` bytes. -/
def gets (fd : ℤ) (max : ℕ) : VfsM (Option (List UInt8)) := do
  let s ← get
  match s.handles fd with
  | none => return none
  | some h =>
      let src := s.dataOf h
      if max = 0 ∨ h.pos ≥ src.length then
        return none
      let out := line (max - 1) (src.drop h.pos)
      set (putHandle fd { h with pos := h.pos + out.length } s)
      return some out

def seek (fd : ℤ) (pos : ℕ) : VfsM Unit :=
  modify fun s =>
    match s.handles fd with
    | none => s
    | some h => putHandle fd { h with pos := min pos (s.dataOf h).length } s

/-- Whether a descriptor is open. -/
def isOpen (s : Vfs) (fd : ℤ) : Bool := (s.handles fd).isSome

def size (s : Vfs) (fd : ℤ) : ℕ :=
  match s.handles fd with
  | none => 0
  | some h => (s.dataOf h).length

def tell (s : Vfs) (fd : ℤ) : ℕ :=
  match s.handles fd with
  | none => 0
  | some h => h.pos

/-- An `int` in its range is not changed. -/
theorem int32_eq {x : ℤ} (hlow : -0x80000000 ≤ x) (hhigh : x < 0x80000000) : int32 x = x := by
  simp only [int32, Int.bmod]
  omega

/-- Counting on changes an `int`, also where it wraps. -/
theorem int32_succ_ne (x : ℤ) : int32 (x + 1) ≠ x := by
  simp only [int32, Int.bmod]
  omega

/-! ## Sequences of calls -/

/-- One call; `provided` is the answer of the provider during an `open`. -/
inductive Call
  | addFile (path : Path) (content : List UInt8)
  | openPath (path : Path) (flags : ℕ) (provided : Option (List UInt8))
  | dup (oldFd : ℤ)
  | dup2 (oldFd newFd : ℤ)
  | read (fd : ℤ) (n : ℕ)
  | write (fd : ℤ) (x : List UInt8)
  | seek (fd : ℤ) (pos : ℕ)
  | gets (fd : ℤ) (max : ℕ)
  | close (fd : ℤ)
  | unlink (path : Path)
  deriving DecidableEq, Repr

/-- The state after a call, which may have thrown. -/
def step (s : Vfs) : Call → Vfs
  | .addFile path content => final (Vfs.addFile path content s)
  | .openPath path flags provided => final (Vfs.openPath path flags provided s)
  | .dup oldFd => final (Vfs.dup oldFd s)
  | .dup2 oldFd newFd => final (Vfs.dup2 oldFd newFd s)
  | .read fd n => final (Vfs.read fd n s)
  | .write fd x => final (Vfs.write fd x s)
  | .seek fd pos => final (Vfs.seek fd pos s)
  | .gets fd max => final (Vfs.gets fd max s)
  | .close fd => final (Vfs.close fd s)
  | .unlink path => final (Vfs.unlink path s)

end Vfs

end Vardoger
