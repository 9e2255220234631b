import Vardoger.Android.AppGuest
import Vardoger.Base.SharedCell
import Vardoger.Base.TwoRuns
import Vardoger.Engine.Heap

/-!
# Two VMs in one process

What a system call or a memory operation of a guest uses are members of its VM, with one exception:
the program break is a static variable of `brk`. Two guests of which both ask for it see each other.
If one of them never does, each runs as it would alone.
-/

namespace Vardoger

open Stateful SharedCell AppGuest

/-- The break is allocated at the first call of any VM, and only grows. The result is also what the
static variable holds from then on. -/
def sysBrk (brk : ℕ) : AppM ℕ := do
  let want ← sysArg 0
  let brk ← if brk = 0 then onMem (Memory.heapAlloc 0x1000 16) else pure brk
  let brk := if want > brk then want else brk
  ret brk
  return brk

/-- What a guest asks for: `brk`, or any operation on the members of its own VM. -/
inductive Request
  | brk
  | member (op : AppM ℕ)

/-- The outcome of a request, the static variable behind it, and the VM. -/
def Request.run : Request → ℕ → AppGuest → Except Failure ℕ × ℕ × AppGuest
  | .brk, cell, w =>
      match sysBrk cell w with
      | .ok v w' => (.ok v, v, w')
      | .error err w' => (.error err, cell, w')
  | .member op, cell, w => (outcome (op w), cell, final (op w))

/-- Requests of two guests in a fresh process have the outcomes, and leave the VMs, that each
guest's own requests have and leave in a fresh process. -/
def Isolated (vms : Bool → AppGuest) (requests : List (Bool × Request)) : Prop :=
  ∀ i, own i (run Request.run requests ⟨0, vms⟩).1 = (run Request.run (own i requests) ⟨0, vms⟩).1 ∧
    (run Request.run requests ⟨0, vms⟩).2.part i =
      (run Request.run (own i requests) ⟨0, vms⟩).2.part i

theorem silent_of_ne_brk {r : Request} (h : r ≠ .brk) : Silent Request.run r := by
  cases r with
  | brk => exact absurd rfl h
  | member op => exact fun _ _ _ => ⟨rfl, rfl, rfl⟩

section Both

variable {w : AppGuest}

theorem sysBrk_of_ne_zero {brk : ℕ} (h : brk ≠ 0) : ∃ v,
    sysBrk brk w = .ok v { w with mem := w.mem.setRet v } := by
  rw [sysBrk, sysArg_bind, if_neg h]
  exact ⟨_, bind_ok (writeReg_ret0 _ w)⟩

theorem sysBrk_zero {p : ℕ} {m : Memory} (h : Memory.heapAlloc 0x1000 16 w.mem = .ok p m) : ∃ v,
    p ≤ v ∧ sysBrk 0 w = .ok v { w with mem := m.setRet v } := by
  rw [sysBrk, sysArg_bind, if_pos rfl, bind_ok (onMem_ok h)]
  refine ⟨_, ?_, bind_ok (writeReg_ret0 _ _)⟩
  split <;> omega

end Both

def freshVm : AppGuest := { mem := Memory.init .arm64 false false, vfs := {} }

/-- The first block of a fresh VM is at the start of its heap. -/
theorem heapAlloc_freshVm : ∃ p m, Memory.heapAlloc 0x1000 16 freshVm.mem = .ok p m ∧
    p ≠ 0 ∧ m.heapNext ≠ 0 := by
  have hcarve := Memory.heapAlloc_init .arm64 false false 0x1000 16
  rw [Memory.heapCarve, get_bind, if_neg (by decide)] at hcarve
  exact ⟨_, _, hcarve, by decide, by decide⟩

/-- The VM that asks second allocates nothing. -/
theorem part_brk_brk (w : AppGuest) {p : ℕ} {m : Memory}
    (h : Memory.heapAlloc 0x1000 16 w.mem = .ok p m) (hp : p ≠ 0) :
    ((run Request.run [(true, .brk), (false, .brk)] ⟨0, fun _ => w⟩).2.part false).mem.heapNext =
      w.mem.heapNext := by
  obtain ⟨v, hv, hfirst⟩ := sysBrk_zero h
  obtain ⟨v', hsecond⟩ := sysBrk_of_ne_zero (w := w) (show v ≠ 0 by omega)
  simp [run, step, Request.run, hfirst, hsecond, Memory.setRet]

theorem part_brk (w : AppGuest) {p : ℕ} {m : Memory}
    (h : Memory.heapAlloc 0x1000 16 w.mem = .ok p m) :
    ((run Request.run [(false, .brk)] ⟨0, fun _ => w⟩).2.part false).mem.heapNext =
      m.heapNext := by
  obtain ⟨v, hv, hfirst⟩ := sysBrk_zero h
  simp [run, step, Request.run, hfirst, Memory.setRet]

end Vardoger
