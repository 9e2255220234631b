import Vardoger.Android.Reading
import Vardoger.Android.StringStubs

/-!
# The guest behind the file functions

What the functions on files read and change: the memory manager, the virtual file system, and the
members of the stubs that live as long as the guest.
-/

namespace Vardoger

open Stateful

structure AppGuest where
  mem : Memory
  vfs : Vfs
  /-- The counter of `mkstemp`. -/
  mkstempSeq : ℤ := 0
  /-- The buffers of `AAsset_getBuffer`, by descriptor. -/
  aassetBufs : ℤ → Option ℕ := fun _ => none

abbrev AppM := EStateM Failure AppGuest

namespace AppGuest

variable {α : Type}

def onMem (x : MemM α) : AppM α := focus AppGuest.mem (fun mem w => { w with mem }) x

def onVfs (x : VfsM α) : AppM α := focus AppGuest.vfs (fun vfs w => { w with vfs }) x

def readReg (r : Reg) : AppM ℕ := onMem (Memory.readReg r)

def writeReg (r : Reg) (v : ℕ) : AppM Unit := onMem (Memory.writeReg r v)

def write (addr : ℕ) (x : List UInt8) : AppM Unit := onMem (Memory.write addr x)

def readCstr (addr : ℕ) : AppM (List UInt8) := onMem (Memory.readCstr addr)

def sysArg (i : Fin 6) : AppM ℕ := do return (← get).mem.engine.sysArg i

def ret (v : ℕ) : AppM Unit := writeReg .ret0 v

theorem sysArg_bind (i : Fin 6) (f : ℕ → AppM α) (w : AppGuest) :
    (sysArg i >>= f) w = f (w.mem.engine.sysArg i) w := rfl

variable {w : AppGuest}

theorem onMem_ok {x : MemM α} {a : α} {m : Memory} (h : x w.mem = .ok a m) :
    onMem x w = .ok a { w with mem := m } := focus_ok h

theorem onMem_error {x : MemM α} {err : Failure} {m : Memory} (h : x w.mem = .error err m) :
    onMem x w = .error err { w with mem := m } := focus_error h

theorem onVfs_ok {x : VfsM α} {a : α} {v : Vfs} (h : x w.vfs = .ok a v) :
    onVfs x w = .ok a { w with vfs := v } := focus_ok h

theorem writeReg_ret0 (v : ℕ) (w : AppGuest) :
    writeReg .ret0 v w = .ok () { w with mem := w.mem.setRet v } :=
  onMem_ok (Memory.writeReg_ret0 v w.mem)

end AppGuest

end Vardoger
