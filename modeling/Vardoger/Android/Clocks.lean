import Vardoger.Android.StringStubs
import Vardoger.Android.Vfs

/-!
# The clocks

The runtime has a counter of nanoseconds that every query moves on by a millisecond, and a fixed
number of seconds since 1970. The monotonic clock is the counter. The wall clock takes its seconds
from the fixed number and the rest from the counter, so it falls back whenever the counter passes a
full second. `time` and the `gettimeofday` of the C library store eight-byte words whatever the size
of a word of the guest, and the system call does not know the wide record of `clock_gettime64`.
-/

namespace Vardoger

open LittleEndian Patches Stateful Words

/-- Guest memory and the two numbers behind the clocks. -/
structure ClockGuest where
  mem : Memory
  clockNs : ℕ
  unixEpoch : ℕ

abbrev ClockM := EStateM Failure ClockGuest

namespace ClockGuest

def onMem {α : Type} (x : MemM α) : ClockM α := fun g =>
  match x g.mem with
  | .ok a m => .ok a { g with mem := m }
  | .error err m => .error err { g with mem := m }

/-- The counter moves on by a millisecond. -/
def nowNs : ClockM ℕ := modifyGet fun g =>
  (add64 g.clockNs 1000000, { g with clockNs := add64 g.clockNs 1000000 })

/-- The size of a word of the guest. -/
def psz (g : ClockGuest) : ℕ := g.mem.engine.abi.bits / 8

/-- Store a word of the size that the guest's words have. -/
def wword (addr v : ℕ) : ClockM Unit := do
  onMem (Memory.writeT (← get).psz addr v)

/-- The system call `clock_gettime`. -/
def clockGettime : ClockM Unit := do
  let g ← get
  let clk := Vfs.int32 (g.mem.engine.sysArg 0)
  let tp := g.mem.engine.sysArg 1
  let ns ← nowNs
  -- `CLOCK_REALTIME` and its coarse form
  let sec := if clk = 0 ∨ clk = 5 then g.unixEpoch else ns / 1000000000
  wword tp sec
  wword (add64 tp g.psz) (ns % 1000000000)
  onMem (Memory.writeReg .ret0 0)

/-- The system call `gettimeofday`. -/
def gettimeofday : ClockM Unit := do
  let g ← get
  let tv := g.mem.engine.sysArg 0
  let ns ← nowNs
  wword tv g.unixEpoch
  wword (add64 tv g.psz) (ns % 1000000000 / 1000)
  onMem (Memory.writeReg .ret0 0)

/-- `gettimeofday` of the C library. -/
def libcGettimeofday : ClockM Unit := do
  let tv ← onMem (Memory.readReg .a0)
  let g ← get
  if tv ≠ 0 ∧ isMapped g.mem.regions tv then do
    onMem (Memory.writeT 8 tv g.unixEpoch)
    let ns ← nowNs
    onMem (Memory.writeT 8 (add64 tv 8) (ns / 1000 % 1000000))
    onMem (Memory.writeReg .ret0 0)
  else onMem (Memory.writeReg .ret0 0)

/-- `time` of the C library. -/
def time : ClockM Unit := do
  let g ← get
  let out ← onMem (Memory.readReg .a0)
  if out ≠ 0 ∧ isMapped g.mem.regions out then onMem (Memory.writeT 8 out g.unixEpoch)
  onMem (Memory.writeReg .ret0 g.unixEpoch)

end ClockGuest

/-- The ways to ask for the time. -/
inductive ClockQuery
  | clockGettime | clockGettime64 | gettimeofday | libcGettimeofday | time
  deriving DecidableEq, Repr

/-- `clock_gettime64` has the same handler as `clock_gettime`. -/
def ClockQuery.run : ClockQuery → ClockM Unit
  | clockGettime | clockGettime64 => ClockGuest.clockGettime
  | gettimeofday => ClockGuest.gettimeofday
  | libcGettimeofday => ClockGuest.libcGettimeofday
  | time => ClockGuest.time

/-- A query with the state before and behind it. -/
structure ClockEntry where
  query : ClockQuery
  before : ClockGuest
  after : ClockGuest

namespace ClockEntry

/-- The word of the given size that the guest finds at an address. -/
def word (e : ClockEntry) (n addr : ℕ) : ℕ := ofBytes (slice e.after.mem.engine.byte addr n)

/-- A record of seconds and smaller units, in these units. -/
def record (e : ClockEntry) (n addr units : ℕ) : ℕ :=
  e.word n addr * units + e.word n (add64 addr n)

/-- The clock that is asked for. -/
def clock (e : ClockEntry) : ℤ := Vfs.int32 (e.before.mem.engine.sysArg 0)

/-- What is reported for `CLOCK_MONOTONIC`, in nanoseconds. -/
def monotonic (e : ClockEntry) : Option ℕ :=
  match e.query with
  | .clockGettime =>
    if e.clock = 1 then
      some (e.record e.before.psz (e.before.mem.engine.sysArg 1) 1000000000)
    else none
  | .clockGettime64 =>
    if e.clock = 1 then some (e.record 8 (e.before.mem.engine.sysArg 1) 1000000000) else none
  | _ => none

/-- What is reported for the wall clock, and the unit of the report in nanoseconds. -/
def wall (e : ClockEntry) : Option (ℕ × ℕ) :=
  match e.query with
  | .clockGettime =>
    if e.clock = 0 then
      some (e.record e.before.psz (e.before.mem.engine.sysArg 1) 1000000000, 1)
    else none
  | .clockGettime64 =>
    if e.clock = 0 then some (e.record 8 (e.before.mem.engine.sysArg 1) 1000000000, 1) else none
  | .gettimeofday => some (e.record e.before.psz (e.before.mem.engine.sysArg 0) 1000000, 1000)
  | .libcGettimeofday =>
    if e.before.mem.engine.arg 0 ≠ 0 ∧
        isMapped e.before.mem.regions (e.before.mem.engine.arg 0) then
      some (e.record e.before.psz (e.before.mem.engine.arg 0) 1000000, 1000)
    else none
  | .time => some (e.after.mem.engine.ret, 1000000000)

end ClockEntry

/-- Queries one after the other. The guest may do anything between them, but the two numbers are the
host's own. -/
inductive ClockRun : ℕ → ℕ → List ClockEntry → Prop
  | nil (c u : ℕ) : ClockRun c u []
  | cons {c u : ℕ} {q : ClockQuery} {m : Memory} {g : ClockGuest} {entries : List ClockEntry}
      (hok : q.run ⟨m, c, u⟩ = .ok () g) (hrest : ClockRun g.clockNs g.unixEpoch entries) :
      ClockRun c u (⟨q, ⟨m, c, u⟩, g⟩ :: entries)

/-- Of two reports, the first is not later than the second in the coarser of their units. -/
def NotLater (a b : ℕ × ℕ) : Prop := a.1 * a.2 / max a.2 b.2 ≤ b.1 * b.2 / max a.2 b.2

/-- The clocks of these queries do not run backwards. -/
def RunsForward (entries : List ClockEntry) : Prop :=
  (entries.filterMap ClockEntry.monotonic).Pairwise (· < ·) ∧
    (entries.filterMap ClockEntry.wall).Pairwise NotLater

/-! ## One query -/

namespace ClockGuest

variable {g g' : ClockGuest}

theorem of_onMem_ok {α : Type} {x : MemM α} {a : α} (h : onMem x g = .ok a g') :
    ∃ m, x g.mem = .ok a m ∧ g' = { g with mem := m } := by
  rw [onMem] at h
  cases hx : x g.mem with
  | ok b m =>
    rw [hx] at h
    obtain ⟨rfl, rfl⟩ := EStateM.Result.ok.inj h
    exact ⟨m, rfl, rfl⟩
  | error err m =>
    rw [hx] at h
    cases h

theorem onMem_eq {α : Type} {x : MemM α} {a : α} {m : Memory} (h : x g.mem = .ok a m) :
    onMem x g = .ok a { g with mem := m } := by
  rw [onMem, h]

/-- A word that was stored. -/
theorem of_writeT_ok {n addr v : ℕ} (h : onMem (Memory.writeT n addr v) g = .ok () g') :
    g.mem.engine.Accessible addr n ∧
      g' = { g with mem := g.mem.setBytes addr (toBytes n v) } := by
  obtain ⟨m, hm, rfl⟩ := of_onMem_ok h
  by_cases haccess : g.mem.engine.Accessible addr n
  · rw [Memory.writeT_eq v haccess] at hm
    obtain ⟨-, rfl⟩ := EStateM.Result.ok.inj hm
    exact ⟨haccess, rfl⟩
  · have hnone : ¬g.mem.engine.Accessible addr (toBytes n v).length := by rwa [length_toBytes]
    rw [Memory.writeT, Memory.write, Memory.onEngine, Engine.write, if_neg hnone] at hm
    cases hm

theorem of_writeReg_ok {v : ℕ} (h : onMem (Memory.writeReg .ret0 v) g = .ok () g') :
    g' = { g with mem := g.mem.setRet v } := by
  obtain ⟨m, hm, rfl⟩ := of_onMem_ok h
  rw [Memory.writeReg_ret0] at hm
  obtain ⟨-, rfl⟩ := EStateM.Result.ok.inj hm
  rfl

theorem nowNs_eq (h : g.clockNs + 1000000 < 2 ^ 64) :
    nowNs g = .ok (g.clockNs + 1000000) { g with clockNs := g.clockNs + 1000000 } := by
  have hadd : add64 g.clockNs 1000000 = g.clockNs + 1000000 := add64_of_lt h
  rw [← hadd]
  rfl

theorem psz_le (g : ClockGuest) : g.psz ≤ 8 := by
  rw [psz]
  cases g.mem.engine.abi <;> decide

theorem lt_word (g : ClockGuest) {v : ℕ} (hv : v < 1000000000) : v < 256 ^ g.psz := by
  have hword : 256 ^ 4 ≤ 256 ^ g.psz := by
    rw [psz]
    cases g.mem.engine.abi <;> decide
  omega

/-- Two words stand in memory one behind the other. -/
structure Stored (m : Memory) (n addr v w : ℕ) : Prop where
  first : slice m.engine.byte addr n = toBytes n v
  second : slice m.engine.byte (add64 addr n) n = toBytes n w

/-- Two words that are stored stand there. -/
theorem stored_setBytes (m : Memory) {n : ℕ} (hn : n ≤ 8) (addr v w : ℕ) :
    Stored ((m.setBytes addr (toBytes n v)).setBytes (add64 addr n) (toBytes n w)) n addr v w := by
  -- the second word is behind the first one, or at the bottom of the address space
  have hapart : Separate n addr (add64 addr n) := by
    have hadd : add64 addr n = (addr + n) % 2 ^ 64 := rfl
    rw [Separate]
    omega
  constructor
  · have hfirst := Engine.slice_setBytes_toBytes m.engine addr n v
    have hsecond := slice_put_of_separate hapart.symm (length_toBytes n w)
      (m.engine.setBytes addr (toBytes n v)).byte
    rw [hfirst, ← Engine.byte_setBytes] at hsecond
    exact hsecond
  · exact Engine.slice_setBytes_toBytes (m.setBytes addr (toBytes n v)).engine (add64 addr n) n w

/-- A record in the words of the guest. -/
theorem stored_of_wwords {addr v w : ℕ}
    (h : (do wword addr v; wword (add64 addr g.psz) w; onMem (Memory.writeReg .ret0 0)) g =
      .ok () g') :
    Stored g'.mem g.psz addr v w ∧ g'.clockNs = g.clockNs ∧ g'.unixEpoch = g.unixEpoch := by
  obtain ⟨_, g₁, hfirst, h⟩ := of_bind_ok h
  obtain ⟨_, g₂, hsecond, hret⟩ := of_bind_ok h
  have hfirst : onMem (Memory.writeT g.psz addr v) g = .ok () g₁ := hfirst
  have hsecond : onMem (Memory.writeT g₁.psz (add64 addr g.psz) w) g₁ = .ok () g₂ := hsecond
  obtain ⟨-, rfl⟩ := of_writeT_ok hfirst
  obtain ⟨-, rfl⟩ := of_writeT_ok hsecond
  obtain rfl := of_writeReg_ok hret
  have hstored := stored_setBytes g.mem g.psz_le addr v w
  exact ⟨⟨hstored.first, hstored.second⟩, rfl, rfl⟩

/-- A record that the guest has room for is stored. -/
theorem wwords_return {p q : ℕ} (v w : ℕ) (hp : g.mem.engine.Accessible p g.psz)
    (hq : g.mem.engine.Accessible q g.psz) :
    ∃ g', (do wword p v; wword q w; onMem (Memory.writeReg .ret0 0)) g = .ok () g' := by
  obtain ⟨m, hm⟩ : ∃ m, m = g.mem.setBytes p (toBytes g.psz v) := ⟨_, rfl⟩
  have hfirst : wword p v g = .ok () { g with mem := m } := by
    rw [hm]
    exact onMem_eq (Memory.writeT_eq v hp)
  have hq : m.engine.Accessible q g.psz := by rwa [hm]
  have hsecond : wword q w { g with mem := m } =
      .ok () { g with mem := m.setBytes q (toBytes g.psz w) } := by
    have hpsz : psz { g with mem := m } = g.psz := by rw [hm]; rfl
    rw [wword, get_bind, hpsz]
    exact onMem_eq (Memory.writeT_eq w hq)
  rw [bind_ok hfirst, bind_ok hsecond]
  exact ⟨_, onMem_eq (Memory.writeReg_ret0 0 _)⟩

end ClockGuest

namespace ClockEntry

open ClockGuest

variable {e : ClockEntry}

/-- The counter does not overflow, the seconds fit a word of the guest, and no record has words of
another size than the guest's. -/
structure Fine (e : ClockEntry) : Prop where
  counter : e.before.clockNs + 1000000 < 2 ^ 64
  seconds : (e.before.clockNs + 1000000) / 1000000000 < 256 ^ e.before.psz
  epoch : e.before.unixEpoch < 256 ^ e.before.psz
  words : e.query = .clockGettime64 ∨ e.query = .libcGettimeofday → e.before.psz = 8

/-- What the wall clock stands for, in nanoseconds. -/
def wallNs (e : ClockEntry) : ℕ := e.before.unixEpoch * 1000000000 + e.after.clockNs % 1000000000

/-- What a query does to the numbers of the host, and what it reports. -/
structure Reports (e : ClockEntry) : Prop where
  epoch : e.after.unixEpoch = e.before.unixEpoch
  counter : e.before.clockNs ≤ e.after.clockNs
  monotonic : ∀ v ∈ e.monotonic, e.before.clockNs < e.after.clockNs ∧ v = e.after.clockNs
  wall : ∀ p ∈ e.wall, (p.2 = 1 ∨ p.2 = 1000 ∨ p.2 = 1000000000) ∧ p.1 = e.wallNs / p.2

theorem record_of_stored {n addr v w units : ℕ} (h : Stored e.after.mem n addr v w)
    (hv : v < 256 ^ n) (hw : w < 256 ^ n) : e.record n addr units = v * units + w := by
  rw [record, word, word, h.first, h.second, ofBytes_toBytes, ofBytes_toBytes,
    Nat.mod_eq_of_lt hv, Nat.mod_eq_of_lt hw]

/-- What `clock_gettime` does. -/
theorem clockGettime_stored (hfine : e.Fine) (h : clockGettime e.before = .ok () e.after) :
    Stored e.after.mem e.before.psz (e.before.mem.engine.sysArg 1)
      (if e.clock = 0 ∨ e.clock = 5 then e.before.unixEpoch else e.after.clockNs / 1000000000)
      (e.after.clockNs % 1000000000) ∧
    e.after.clockNs = e.before.clockNs + 1000000 ∧ e.after.unixEpoch = e.before.unixEpoch := by
  rw [clockGettime, get_bind, bind_ok (nowNs_eq hfine.counter)] at h
  obtain ⟨hstored, hclock, hepoch⟩ := stored_of_wwords h
  have hclock : e.after.clockNs = e.before.clockNs + 1000000 := hclock
  rw [hclock]
  exact ⟨hstored, rfl, hepoch⟩

/-- What the system call `gettimeofday` does. -/
theorem gettimeofday_stored (hfine : e.Fine) (h : gettimeofday e.before = .ok () e.after) :
    Stored e.after.mem e.before.psz (e.before.mem.engine.sysArg 0) e.before.unixEpoch
      (e.after.clockNs % 1000000000 / 1000) ∧
    e.after.clockNs = e.before.clockNs + 1000000 ∧ e.after.unixEpoch = e.before.unixEpoch := by
  rw [gettimeofday, get_bind, bind_ok (nowNs_eq hfine.counter)] at h
  obtain ⟨hstored, hclock, hepoch⟩ := stored_of_wwords h
  have hclock : e.after.clockNs = e.before.clockNs + 1000000 := hclock
  rw [hclock]
  exact ⟨hstored, rfl, hepoch⟩

/-- The argument of a function of the C library that has read it. -/
theorem of_readReg_ok {g g' : ClockGuest} {v : ℕ} (h : onMem (Memory.readReg .a0) g = .ok v g') :
    v = g.mem.engine.arg 0 ∧ g' = g := by
  obtain ⟨m, hm, rfl⟩ := of_onMem_ok h
  by_cases habi : g.mem.engine.abi = .x86
  · obtain ⟨err, herr⟩ := Memory.readReg_x86 (m := g.mem) (.inl rfl) habi
    rw [herr] at hm
    cases hm
  · rw [Memory.readReg_a0 habi] at hm
    obtain ⟨rfl, rfl⟩ := EStateM.Result.ok.inj hm
    exact ⟨rfl, rfl⟩

/-- What `gettimeofday` of the C library does, if it does anything. -/
theorem libcGettimeofday_stored (hfine : e.Fine) (h : libcGettimeofday e.before = .ok () e.after) :
    e.after.unixEpoch = e.before.unixEpoch ∧ e.before.clockNs ≤ e.after.clockNs ∧
      (e.before.mem.engine.arg 0 ≠ 0 ∧
        isMapped e.before.mem.regions (e.before.mem.engine.arg 0) →
        Stored e.after.mem 8 (e.before.mem.engine.arg 0) e.before.unixEpoch
          (e.after.clockNs / 1000 % 1000000)) := by
  rw [libcGettimeofday] at h
  obtain ⟨tv, g₁, htv, h⟩ := of_bind_ok h
  obtain ⟨rfl, rfl⟩ := of_readReg_ok htv
  rw [get_bind] at h
  by_cases hout : e.before.mem.engine.arg 0 ≠ 0 ∧
      isMapped e.before.mem.regions (e.before.mem.engine.arg 0)
  · rw [if_pos hout] at h
    obtain ⟨_, g₂, hfirst, h⟩ := of_bind_ok h
    obtain ⟨-, rfl⟩ := of_writeT_ok hfirst
    obtain ⟨ns, hns⟩ : ∃ ns, ns = e.before.clockNs + 1000000 := ⟨_, rfl⟩
    have htick := nowNs_eq (g := { e.before with
      mem := e.before.mem.setBytes (e.before.mem.engine.arg 0) (toBytes 8 e.before.unixEpoch) })
      hfine.counter
    dsimp only at htick
    rw [← hns] at htick
    rw [bind_ok htick] at h
    obtain ⟨_, g₃, hsecond, hret⟩ := of_bind_ok h
    obtain ⟨-, rfl⟩ := of_writeT_ok hsecond
    have hafter := of_writeReg_ok hret
    have hclock : e.before.clockNs ≤ ns := by omega
    have hstored := stored_setBytes e.before.mem (le_refl 8) (e.before.mem.engine.arg 0)
      e.before.unixEpoch (ns / 1000 % 1000000)
    rw [hafter]
    exact ⟨rfl, hclock, fun _ => ⟨hstored.first, hstored.second⟩⟩
  · rw [if_neg hout] at h
    rw [of_writeReg_ok h]
    exact ⟨rfl, Nat.le_refl _, fun hin => absurd hin hout⟩

/-- `time` asks for the fixed seconds only. -/
theorem time_ret (hfine : e.Fine) (h : time e.before = .ok () e.after) :
    e.after.unixEpoch = e.before.unixEpoch ∧ e.after.clockNs = e.before.clockNs ∧
      e.after.mem.engine.ret = e.before.unixEpoch := by
  have hret : ∀ m : Memory, m.engine.abi = e.before.mem.engine.abi →
      onMem (Memory.writeReg .ret0 e.before.unixEpoch) { e.before with mem := m } =
        .ok () e.after → e.after.unixEpoch = e.before.unixEpoch ∧
          e.after.clockNs = e.before.clockNs ∧ e.after.mem.engine.ret = e.before.unixEpoch := by
    intro m habi hwrite
    have hbits : 256 ^ e.before.psz = 2 ^ e.before.mem.engine.abi.bits := by
      rw [psz]
      cases e.before.mem.engine.abi <;> rfl
    rw [of_writeReg_ok hwrite]
    refine ⟨rfl, rfl, (Engine.ret_setRet _ _).trans ?_⟩
    rw [habi, ← hbits, Nat.mod_eq_of_lt hfine.epoch]
  rw [ClockGuest.time, get_bind] at h
  obtain ⟨out, g₁, hout, h⟩ := of_bind_ok h
  obtain ⟨rfl, rfl⟩ := of_readReg_ok hout
  by_cases hin : e.before.mem.engine.arg 0 ≠ 0 ∧
      isMapped e.before.mem.regions (e.before.mem.engine.arg 0)
  · rw [if_pos hin] at h
    obtain ⟨_, g₂, hwrite, h⟩ := of_bind_ok h
    obtain ⟨-, rfl⟩ := of_writeT_ok hwrite
    exact hret (e.before.mem.setBytes _ _) rfl h
  · rw [if_neg hin] at h
    exact hret e.before.mem rfl h

/-- A report of the wall clock in nanoseconds is what it stands for. -/
theorem wallNs_div (e : ClockEntry) : e.wallNs / 1000 =
    e.before.unixEpoch * 1000000 + e.after.clockNs % 1000000000 / 1000 := by
  rw [wallNs]
  omega

/-- What the guest reads behind `clock_gettime`. -/
theorem record_clockGettime (hfine : e.Fine) (h : clockGettime e.before = .ok () e.after) :
    (e.clock = 1 → e.record e.before.psz (e.before.mem.engine.sysArg 1) 1000000000 =
      e.after.clockNs) ∧
    (e.clock = 0 → e.record e.before.psz (e.before.mem.engine.sysArg 1) 1000000000 =
      e.wallNs) := by
  obtain ⟨hstored, hclock, -⟩ := clockGettime_stored hfine h
  have hsub : e.after.clockNs % 1000000000 < 256 ^ e.before.psz :=
    lt_word _ (Nat.mod_lt _ (by decide))
  constructor
  · intro hone
    rw [hone, if_neg (by decide)] at hstored
    have hsec : e.after.clockNs / 1000000000 < 256 ^ e.before.psz := by
      rw [hclock]
      exact hfine.seconds
    rw [record_of_stored hstored hsec hsub]
    omega
  · intro hzero
    rw [hzero, if_pos (by decide)] at hstored
    rw [record_of_stored hstored hfine.epoch hsub, wallNs]

theorem reports_clockGettime (hfine : e.Fine) (h : clockGettime e.before = .ok () e.after)
    (hmono : ∀ v ∈ e.monotonic, e.clock = 1 ∧
      v = e.record e.before.psz (e.before.mem.engine.sysArg 1) 1000000000)
    (hwall : ∀ p ∈ e.wall, e.clock = 0 ∧
      p = (e.record e.before.psz (e.before.mem.engine.sysArg 1) 1000000000, 1)) : e.Reports := by
  obtain ⟨-, hclock, hunix⟩ := clockGettime_stored hfine h
  obtain ⟨hone, hzero⟩ := record_clockGettime hfine h
  refine ⟨hunix, by omega, fun v hv => ?_, fun p hp => ?_⟩
  · obtain ⟨hclk, rfl⟩ := hmono v hv
    exact ⟨by omega, hone hclk⟩
  · obtain ⟨hclk, rfl⟩ := hwall p hp
    refine ⟨.inl rfl, ?_⟩
    dsimp only
    rw [hzero hclk, Nat.div_one]

/-- Every query reports the counter or the wall clock. -/
theorem reports (hfine : e.Fine) (h : e.query.run e.before = .ok () e.after) : e.Reports := by
  cases hq : e.query with
  | clockGettime =>
    rw [hq] at h
    refine reports_clockGettime hfine h (fun v hv => ?_) fun p hp => ?_
    · rw [monotonic, hq, Option.mem_def, Option.ite_none_right_eq_some] at hv
      exact ⟨hv.1, (Option.some.inj hv.2).symm⟩
    · rw [wall, hq, Option.mem_def, Option.ite_none_right_eq_some] at hp
      exact ⟨hp.1, (Option.some.inj hp.2).symm⟩
  | clockGettime64 =>
    have hpsz := hfine.words (.inl hq)
    rw [hq] at h
    refine reports_clockGettime hfine h (fun v hv => ?_) fun p hp => ?_
    · rw [monotonic, hq, Option.mem_def, Option.ite_none_right_eq_some] at hv
      rw [hpsz]
      exact ⟨hv.1, (Option.some.inj hv.2).symm⟩
    · rw [wall, hq, Option.mem_def, Option.ite_none_right_eq_some] at hp
      rw [hpsz]
      exact ⟨hp.1, (Option.some.inj hp.2).symm⟩
  | gettimeofday =>
    rw [hq] at h
    obtain ⟨hstored, hclock, hunix⟩ := gettimeofday_stored hfine h
    refine ⟨hunix, by omega, by simp [monotonic, hq], fun p hp => ?_⟩
    rw [wall, hq] at hp
    obtain rfl := Option.some.inj hp
    have hsub : e.after.clockNs % 1000000000 / 1000 < 256 ^ e.before.psz :=
      lt_word _ (by omega)
    refine ⟨.inr (.inl rfl), ?_⟩
    dsimp only
    rw [record_of_stored hstored hfine.epoch hsub, wallNs_div]
  | libcGettimeofday =>
    have hpsz := hfine.words (.inr hq)
    have hepoch := hfine.epoch
    rw [hpsz] at hepoch
    rw [hq] at h
    obtain ⟨hunix, hclock, hstored⟩ := libcGettimeofday_stored hfine h
    refine ⟨hunix, hclock, by simp [monotonic, hq], fun p hp => ?_⟩
    rw [wall, hq, Option.mem_def, Option.ite_none_right_eq_some] at hp
    obtain ⟨hin, hp⟩ := hp
    obtain rfl := Option.some.inj hp
    have hsub : e.after.clockNs / 1000 % 1000000 < 256 ^ 8 := by omega
    refine ⟨.inr (.inl rfl), ?_⟩
    dsimp only
    rw [hpsz, record_of_stored (hstored hin) hepoch hsub, wallNs_div]
    omega
  | time =>
    rw [hq] at h
    obtain ⟨hunix, hclock, hret⟩ := time_ret hfine h
    refine ⟨hunix, hclock.ge, by simp [monotonic, hq], fun p hp => ?_⟩
    rw [wall, hq] at hp
    obtain rfl := Option.some.inj hp
    refine ⟨.inr (.inr rfl), ?_⟩
    dsimp only
    rw [hret, wallNs]
    omega

end ClockEntry

/-! ## Sequences of queries -/

/-- The wall clock of the two queries, if both report parts of a second, takes its seconds and its
parts of a second from the same second of the counter. -/
def SameSecond (e e' : ClockEntry) : Prop :=
  (∃ p ∈ e.wall, p.2 < 1000000000) → (∃ p ∈ e'.wall, p.2 < 1000000000) →
    e.after.clockNs / 1000000000 = e'.after.clockNs / 1000000000

/-- Along a run the counter does not fall, and the fixed seconds stay. -/
theorem ClockRun.ordered {c u : ℕ} {entries : List ClockEntry} (h : ClockRun c u entries)
    (hfine : ∀ e ∈ entries, e.Fine) :
    (∀ e ∈ entries, e.Reports ∧ c ≤ e.before.clockNs ∧ e.before.unixEpoch = u) ∧
      entries.Pairwise fun e e' => e.after.clockNs ≤ e'.before.clockNs := by
  induction h with
  | nil => simp
  | @cons c u q m g entries hok _ ih =>
    have hreports : ClockEntry.Reports ⟨q, ⟨m, c, u⟩, g⟩ :=
      ClockEntry.reports (hfine _ List.mem_cons_self) hok
    obtain ⟨hall, hpairs⟩ := ih fun e he => hfine e (List.mem_cons_of_mem _ he)
    have hcounter : c ≤ g.clockNs := hreports.counter
    have hunix : g.unixEpoch = u := hreports.epoch
    constructor
    · intro e he
      rcases List.mem_cons.mp he with rfl | he
      · exact ⟨hreports, le_refl _, rfl⟩
      · obtain ⟨hrep, hle, hepoch⟩ := hall e he
        exact ⟨hrep, hcounter.trans hle, hepoch.trans hunix⟩
    · rw [List.pairwise_cons]
      exact ⟨fun e he => (hall e he).2.1, hpairs⟩

/-- Reports of one clock in different units are compared by what the clock stands for. -/
theorem notLater_of_le {W W' r r' : ℕ} (hr : r = 1 ∨ r = 1000 ∨ r = 1000000000)
    (hr' : r' = 1 ∨ r' = 1000 ∨ r' = 1000000000)
    (hseconds : W / 1000000000 ≤ W' / 1000000000)
    (hparts : r < 1000000000 → r' < 1000000000 → W ≤ W') : NotLater (W / r, r) (W' / r', r') := by
  rw [NotLater]
  rcases hr with rfl | rfl | rfl <;> rcases hr' with rfl | rfl | rfl <;>
    simp only [Nat.max_def, Nat.reduceLeDiff, if_true, if_false] <;> omega

/-- The clocks run forward as long as the counter does not overflow, the records have the guest's
words and all reports of parts of a second fall into one second of the counter. -/
theorem clocks_run_forward {c u : ℕ} {entries : List ClockEntry} (hrun : ClockRun c u entries)
    (hfine : ∀ e ∈ entries, e.Fine) (hsecond : entries.Pairwise SameSecond) :
    RunsForward entries := by
  obtain ⟨hall, hpairs⟩ := hrun.ordered hfine
  constructor
  · rw [List.pairwise_filterMap]
    refine hpairs.imp_of_mem fun {e e'} he he' hle v hv v' hv' => ?_
    obtain ⟨-, rfl⟩ := (hall e he).1.monotonic v hv
    obtain ⟨hlt, rfl⟩ := (hall e' he').1.monotonic v' hv'
    omega
  · rw [List.pairwise_filterMap]
    refine (hpairs.and hsecond).imp_of_mem fun {e e'} he he' h p hp p' hp' => ?_
    obtain ⟨hle, hsame⟩ := h
    obtain ⟨hreports, -, hunix⟩ := hall e he
    obtain ⟨hreports', -, hunix'⟩ := hall e' he'
    obtain ⟨hunit, hvalue⟩ := hreports.wall p hp
    obtain ⟨hunit', hvalue'⟩ := hreports'.wall p' hp'
    have hcounter := hreports'.counter
    have hnotLater : NotLater (e.wallNs / p.2, p.2) (e'.wallNs / p'.2, p'.2) := by
      refine notLater_of_le hunit hunit' ?_ fun hlt hlt' => ?_
      · rw [ClockEntry.wallNs, ClockEntry.wallNs, hunix, hunix']
        omega
      · have hsecond := hsame ⟨p, hp, hlt⟩ ⟨p', hp', hlt'⟩
        rw [ClockEntry.wallNs, ClockEntry.wallNs, hunix, hunix']
        omega
    rwa [← hvalue, ← hvalue'] at hnotLater

/-! ## A wall clock that falls back -/

/-- A guest that asks for `CLOCK_REALTIME` and has a page for the record. -/
def askingMemory : Memory :=
  let m := (Memory.init .arm64 false false).addRegion ⟨0x1000, 0x1000, ucProtRw, .other, "page"⟩
  { m with
    engine := { m.engine with reg := fun r => if r = .arm64X 1 then 0x1000 else 0 } }

theorem psz_asking (c u : ℕ) : ClockGuest.psz ⟨askingMemory, c, u⟩ = 8 := by
  have habi : askingMemory.engine.abi = .arm64 := rfl
  rw [ClockGuest.psz, habi]
  rfl

theorem accessible_asking {p : ℕ} (hp : p = 0x1000 ∨ p = 0x1008) :
    askingMemory.engine.Accessible p 8 := by
  rcases hp with rfl | rfl <;> decide

/-- The record fits into the page. -/
theorem asking_returns (c u : ℕ) :
    ∃ g, ClockQuery.clockGettime.run ⟨askingMemory, c, u⟩ = .ok () g := by
  have htp : askingMemory.engine.sysArg 1 = 0x1000 := by decide
  have hbehind : add64 0x1000 8 = 0x1008 := by decide
  rw [ClockQuery.run, ClockGuest.clockGettime, get_bind, psz_asking, htp, hbehind]
  have htick : ClockGuest.nowNs ⟨askingMemory, c, u⟩ =
    .ok (add64 c 1000000) ⟨askingMemory, add64 c 1000000, u⟩ := rfl
  rw [bind_ok htick]
  have hpsz := psz_asking (add64 c 1000000) u
  apply ClockGuest.wwords_return
  · rw [hpsz]
    exact accessible_asking (.inl rfl)
  · rw [hpsz]
    exact accessible_asking (.inr rfl)

theorem fine_asking {c u : ℕ} (hc : c + 1000000 < 2 ^ 64) (hu : u < 2 ^ 64) (g : ClockGuest) :
    ClockEntry.Fine ⟨.clockGettime, ⟨askingMemory, c, u⟩, g⟩ where
  counter := hc
  seconds := by
    rw [psz_asking]
    dsimp only
    omega
  epoch := by
    rw [psz_asking]
    exact hu
  words h := by
    rcases h with h | h <;> cases h

/-- What such a guest is told. -/
theorem wall_asking {c u : ℕ} (hc : c + 1000000 < 2 ^ 64) (hu : u < 2 ^ 64) {g : ClockGuest}
    (h : ClockQuery.clockGettime.run ⟨askingMemory, c, u⟩ = .ok () g) :
    g.clockNs = c + 1000000 ∧ g.unixEpoch = u ∧
      ClockEntry.wall ⟨.clockGettime, ⟨askingMemory, c, u⟩, g⟩ =
        some (u * 1000000000 + (c + 1000000) % 1000000000, 1) := by
  have hfine := fine_asking hc hu g
  obtain ⟨-, hclock, hunix⟩ := ClockEntry.clockGettime_stored hfine h
  have hclk : Vfs.int32 (askingMemory.engine.sysArg 0) = 0 := by decide
  have hrecord := (ClockEntry.record_clockGettime hfine h).2 hclk
  have hclock : g.clockNs = c + 1000000 := hclock
  rw [ClockEntry.wallNs, hclock] at hrecord
  refine ⟨hclock, hunix, ?_⟩
  have hclk : ClockEntry.clock ⟨.clockGettime, ⟨askingMemory, c, u⟩, g⟩ = 0 := hclk
  rw [ClockEntry.wall, if_pos hclk]
  exact congrArg (fun v => some (v, 1)) hrecord

/-- Such a guest may ask as often as it likes. -/
theorem exists_asking (n : ℕ) {c u : ℕ} (hc : c + n * 1000000 < 2 ^ 64) (hu : u < 2 ^ 64) :
    ∃ entries, ClockRun c u entries ∧ entries.length = n ∧ ∀ i (hi : i < entries.length),
      entries[i].Fine ∧ entries[i].after.clockNs = c + (i + 1) * 1000000 ∧
        entries[i].wall = some (u * 1000000000 + (c + (i + 1) * 1000000) % 1000000000, 1) := by
  induction n generalizing c with
  | zero => exact ⟨[], .nil c u, rfl, fun i hi => absurd hi (Nat.not_lt_zero i)⟩
  | succ n ih =>
    obtain ⟨g, hg⟩ := asking_returns c u
    have hc' : c + 1000000 < 2 ^ 64 := by omega
    obtain ⟨hclock, hunix, hwall⟩ := wall_asking hc' hu hg
    obtain ⟨entries, hrun, hlength, hall⟩ := ih (c := c + 1000000) (by omega)
    rw [← hclock, ← hunix] at hrun
    refine ⟨_ :: entries, .cons hg hrun, congrArg (· + 1) hlength, fun i hi => ?_⟩
    cases i with
    | zero =>
      have hsum : c + (0 + 1) * 1000000 = c + 1000000 := by omega
      rw [hsum]
      exact ⟨fine_asking hc' hu g, hclock, hwall⟩
    | succ i =>
      obtain ⟨hfine, hafter, htold⟩ := hall i (Nat.lt_of_succ_lt_succ hi)
      have hsum : c + 1000000 + (i + 1) * 1000000 = c + (i + 1 + 1) * 1000000 := by omega
      rw [hsum] at hafter htold
      exact ⟨hfine, hafter, htold⟩

/-- The numbers that the runtime starts with. -/
def kClockStart : ℕ := 1500000000

def kUnixEpoch : ℕ := 1748736000

/-- The clocks of a guest that asks twice. -/
theorem clocks_run_forward_twice :
    ∃ entries, ClockRun kClockStart kUnixEpoch entries ∧ entries.length = 2 ∧
      RunsForward entries := by
  obtain ⟨entries, hrun, hlength, hall⟩ := exists_asking 2 (c := kClockStart) (u := kUnixEpoch)
    (by decide) (by decide)
  refine ⟨entries, hrun, hlength, clocks_run_forward hrun (fun e he => ?_) ?_⟩
  · obtain ⟨i, hi, rfl⟩ := List.mem_iff_getElem.mp he
    exact (hall i hi).1
  · rw [List.pairwise_iff_getElem]
    intro i j hi hj _ _ _
    rw [(hall i hi).2.1, (hall j hj).2.1, kClockStart]
    omega

/-- After five hundred queries the counter is at two seconds, and the wall clock tells less than at
the first query. -/
theorem wall_clock_falls_back :
    ∃ entries, ClockRun kClockStart kUnixEpoch entries ∧ ¬RunsForward entries := by
  obtain ⟨entries, hrun, hlength, hall⟩ := exists_asking 500 (c := kClockStart) (u := kUnixEpoch)
    (by decide) (by decide)
  refine ⟨entries, hrun, fun hforward => ?_⟩
  have hpairs := List.pairwise_filterMap.mp hforward.2
  have hends := List.pairwise_iff_getElem.mp hpairs 0 499 (by omega) (by omega) (by omega)
    _ (hall 0 (by omega)).2.2 _ (hall 499 (by omega)).2.2
  revert hends
  rw [NotLater]
  decide

end Vardoger
