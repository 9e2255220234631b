import Vardoger.Android.StringStubs

/-!
# The trampoline page

Guest code calls the host through stubs on one page. The stub at index `i` traps, and the trap runs
the handler at index `i`. Stubs and handlers are added one at a time, also while a handler runs, and
none is taken away.
-/

namespace Vardoger

open Stateful Memory

/-- The trampoline, the guest it serves, and the handlers with their names. -/
structure Trampoline (η : Type) where
  mem : Memory
  next : ℕ := kTrampolineBase
  handlers : List (String × η) := []

abbrev TrampM (η : Type) := EStateM Failure (Trampoline η)

namespace Trampoline

variable {η : Type}

def kStubSize : ℕ := 8

def onMem {α : Type} (x : MemM α) : TrampM η α := focus mem (fun m t => { t with mem := m }) x

/-- The constructor maps the page. -/
def mapPage : MemM Unit := do
  let _ ← mapFixed kTrampolineBase kTrampolineSize (ucProtRead ||| ucProtExec) .trampoline
    "trampoline"

/-- A trap and a return. -/
def writeStub (addr : ℕ) : MemM Unit := do
  match (← get).engine.abi with
  | .arm64 => do
    writeT 4 addr 0xD4000001
    writeT 4 (addr + 4) 0xD65F03C0
  | .arm32 => do
    writeT 4 addr 0xEF000000
    writeT 4 (addr + 4) 0xE12FFF1E
  | _ => write addr [0xCD, 0x80, 0xC3]

def alloc (name : String) (h : η) : TrampM η ℕ := do
  let addr := (← get).next
  if addr + kStubSize > kTrampolineBase + kTrampolineSize then
    throw (.runtime "trampoline page exhausted")
  else do
    modify fun t => { t with next := addr + kStubSize }
    onMem (writeStub addr)
    modify fun t => { t with handlers := t.handlers ++ [(name, h)] }
    return addr

def contains (addr : ℕ) : Prop := kTrampolineBase ≤ addr ∧ addr < kTrampolineBase + kTrampolineSize

instance (addr : ℕ) : Decidable (contains addr) := inferInstanceAs (Decidable (_ ∧ _))

/-- The interrupt hook. A handler is run for what it does to the guest and the trampoline. -/
def dispatch (handler : η → TrampM η Unit) : TrampM η Bool := do
  let pc ← onMem (readReg .pc)
  if contains pc then do
    match (← get).handlers[(pc - kTrampolineBase) / kStubSize]? with
    | none => throw (.runtime "trampoline dispatch: PC not on a known stub")
    | some (_, h) => do
      handler h
      return true
  else return false

def nameAt (t : Trampoline η) (addr : ℕ) : String :=
  if contains addr then
    match t.handlers[(addr - kTrampolineBase) / kStubSize]? with
    | some (name, _) => name
    | none => ""
  else ""

/-! ## Runs -/

/-- A stub that was handed out. -/
structure Stub (η : Type) where
  name : String
  handler : η
  addr : ℕ

/-- Allocations in any order with what the guest and the handlers do, and the stubs handed out so
far. Nothing unmaps the page. -/
inductive Run : Trampoline η → List (Stub η) → Prop
  | start {m m' : Memory} (hmap : mapPage m = .ok () m') : Run { mem := m' } []
  | alloc {t t' : Trampoline η} {stubs : List (Stub η)} {name : String} {h : η} {addr : ℕ}
      (hrun : Run t stubs) (halloc : Trampoline.alloc name h t = .ok addr t') :
      Run t' (stubs ++ [⟨name, h, addr⟩])
  | failed {t t' : Trampoline η} {stubs : List (Stub η)} {name : String} {h : η} {err : Failure}
      (hrun : Run t stubs) (halloc : Trampoline.alloc name h t = .error err t') : Run t' stubs
  | guest {t : Trampoline η} {stubs : List (Stub η)} {m : Memory} (hrun : Run t stubs)
      (hpage : m.engine.Accessible kTrampolineBase kTrampolineSize) : Run { t with mem := m } stubs

/-- Stubs and handlers are in step: the `i`-th stub is the `i`-th slot of the page, a trap inside of
it runs the `i`-th handler, an allocation fails only when the page is full, and traps elsewhere are
left alone. -/
structure InStep (t : Trampoline η) (stubs : List (Stub η)) : Prop where
  slot : ∀ (i : ℕ) x, stubs[i]? = some x → x.addr = kTrampolineBase + kStubSize * i ∧
    x.addr + kStubSize ≤ kTrampolineBase + kTrampolineSize
  runs : ∀ (i : ℕ) x, stubs[i]? = some x → ∀ pc, x.addr ≤ pc → pc < x.addr + kStubSize →
    t.nameAt pc = x.name ∧ ∀ handler m, m.engine.readReg .pc = .ok pc →
      dispatch handler { t with mem := m } =
        (handler x.handler >>= fun _ => pure true) { t with mem := m }
  full : ∀ name h, (∃ err t', alloc name h t = .error err t') ↔
    kTrampolineSize < kStubSize * (stubs.length + 1)
  unchanged : ∀ name h err t', alloc name h t = .error err t' → t' = t
  outside : ∀ pc, ¬contains pc → ∀ handler m, m.engine.readReg .pc = .ok pc →
    dispatch handler { t with mem := m } = .ok false { t with mem := m }

/-! ## What an allocation does -/

/-- What holds between two steps of a run. -/
structure Kept (t : Trampoline η) (stubs : List (Stub η)) : Prop where
  page : t.mem.engine.Accessible kTrampolineBase kTrampolineSize
  next : t.next = kTrampolineBase + kStubSize * stubs.length
  room : kStubSize * stubs.length ≤ kTrampolineSize
  handlers : t.handlers = stubs.map fun x => (x.name, x.handler)
  slot : ∀ (i : ℕ) x, stubs[i]? = some x → x.addr = kTrampolineBase + kStubSize * i

variable {t t' : Trampoline η} {stubs : List (Stub η)} {m : Memory}

/-- A stub is written into a slot of the page. -/
theorem writeStub_ok {addr : ℕ} (h : m.engine.Accessible addr kStubSize) :
    ∃ m', writeStub addr m = .ok () m' ∧ m'.engine.prot = m.engine.prot := by
  have hwords : ∀ v w, (do writeT 4 addr v; writeT 4 (addr + 4) w : MemM Unit) m =
      .ok () ((m.setBytes addr (LittleEndian.toBytes 4 v)).setBytes (addr + 4)
        (LittleEndian.toBytes 4 w)) := by
    intro v w
    have hfirst : m.engine.Accessible addr 4 := h.mono (by decide)
    have hsecond : (m.setBytes addr (LittleEndian.toBytes 4 v)).engine.Accessible (addr + 4) 4 := by
      have hfits := h.1
      refine ⟨by rw [kStubSize] at hfits; omega, fun i hi => ?_⟩
      rw [Nat.add_assoc]
      exact h.2 (4 + i) (by rw [kStubSize]; omega)
    rw [bind_ok (writeT_eq v hfirst), writeT_eq w hsecond]
  rw [writeStub, get_bind]
  cases m.engine.abi with
  | arm64 => exact ⟨_, hwords _ _, rfl⟩
  | arm32 => exact ⟨_, hwords _ _, rfl⟩
  | _ => exact ⟨_, write_eq (h.mono (by decide)), rfl⟩

/-- An allocation fails on a full page and changes nothing, or it takes the next slot. -/
theorem alloc_cases (hkept : Kept t stubs) (name : String) (h : η) :
    (kTrampolineSize < kStubSize * (stubs.length + 1) ∧
      alloc name h t = .error (.runtime "trampoline page exhausted") t) ∨
    (kStubSize * (stubs.length + 1) ≤ kTrampolineSize ∧ ∃ t', alloc name h t = .ok t.next t' ∧
      Kept t' (stubs ++ [⟨name, h, t.next⟩])) := by
  have hnext := hkept.next
  have hsucc := Nat.mul_add_one kStubSize stubs.length
  by_cases hfull : t.next + kStubSize > kTrampolineBase + kTrampolineSize
  · refine .inl ⟨by omega, ?_⟩
    rw [alloc, get_bind, if_pos hfull]
    rfl
  · have hroom : kStubSize * (stubs.length + 1) ≤ kTrampolineSize := by omega
    have hslot : t.mem.engine.Accessible t.next kStubSize := by
      have hfits := hkept.page.1
      refine ⟨by omega, fun i hi => ?_⟩
      rw [hnext, Nat.add_assoc]
      exact hkept.page.2 _ (by omega)
    obtain ⟨m', hwrite, hprot⟩ := writeStub_ok hslot
    have hstub : onMem (writeStub t.next) { t with next := t.next + kStubSize } =
        .ok () ⟨m', t.next + kStubSize, t.handlers⟩ := focus_ok hwrite
    refine .inr ⟨hroom, ⟨m', t.next + kStubSize, t.handlers ++ [(name, h)]⟩, ?_, ?_⟩
    · rw [alloc, get_bind, if_neg hfull, modify_bind, bind_ok hstub]
      rfl
    · refine ⟨?_, ?_, ?_, ?_, fun i x hx => ?_⟩
      · simpa only [Engine.Accessible, Engine.Mapped, hprot] using hkept.page
      · rw [List.length_append, List.length_singleton, hsucc, hnext, Nat.add_assoc]
      · rwa [List.length_append, List.length_singleton]
      · rw [List.map_append, ← hkept.handlers]
        rfl
      · rw [List.getElem?_append] at hx
        split at hx
        · exact hkept.slot i x hx
        next hi =>
          rw [List.getElem?_singleton] at hx
          split at hx
          next hlast =>
            obtain rfl := Option.some.inj hx
            rw [hnext, show i = stubs.length by omega]
          · cases hx

/-- What holds of every state of a run. -/
theorem Run.kept (hrun : Run t stubs) : Kept t stubs := by
  induction hrun with
  | start hmap =>
    refine ⟨?_, rfl, Nat.zero_le _, rfl, fun i x hx => ?_⟩
    · obtain ⟨b, m₁, hfixed, hm⟩ := of_bind_ok hmap
      obtain ⟨-, rfl⟩ := EStateM.Result.ok.inj hm
      have hbase : pageAlignDown kTrampolineBase = kTrampolineBase := by decide
      have hstop : pageAlignUp (Words.add64 kTrampolineBase kTrampolineSize) =
          kTrampolineBase + kTrampolineSize := by decide
      have hsize : Words.sub64 (kTrampolineBase + kTrampolineSize) kTrampolineBase =
          kTrampolineSize := by decide
      rw [mapFixed, get_bind] at hfixed
      simp only [hbase, hstop, hsize] at hfixed
      generalize hfind : List.find? _ _ = clash at hfixed
      cases clash with
      | some r => cases hfixed
      | none =>
        obtain ⟨_, m₂, hregion, hm⟩ := of_bind_ok hfixed
        obtain ⟨-, rfl⟩ := EStateM.Result.ok.inj hm
        rw [mapRegion_apply] at hregion
        split at hregion
        next hmappable =>
          obtain ⟨-, rfl⟩ := EStateM.Result.ok.inj hregion
          exact hmappable.accessible (Nat.le_refl _) _
        · cases hregion
    · cases hx
  | alloc _ halloc ih =>
    rcases alloc_cases ih _ _ with ⟨-, herror⟩ | ⟨-, t₁, hok, hkept⟩
    · rw [herror] at halloc
      cases halloc
    · obtain ⟨rfl, rfl⟩ := EStateM.Result.ok.inj (hok.symm.trans halloc)
      exact hkept
  | failed _ halloc ih =>
    rcases alloc_cases ih _ _ with ⟨-, herror⟩ | ⟨-, t₁, hok, -⟩
    · obtain ⟨-, rfl⟩ := EStateM.Result.error.inj (herror.symm.trans halloc)
      exact ih
    · rw [hok] at halloc
      cases halloc
  | guest _ hpage ih => exact ⟨hpage, ih.next, ih.room, ih.handlers, ih.slot⟩

/-- The handler of the slot that an address lies in. -/
theorem handler_at (hkept : Kept t stubs) {i pc : ℕ} {x : Stub η} (hx : stubs[i]? = some x)
    (hlow : x.addr ≤ pc) (hhigh : pc < x.addr + kStubSize) :
    contains pc ∧ t.handlers[(pc - kTrampolineBase) / kStubSize]? = some (x.name, x.handler) := by
  have haddr := hkept.slot i x hx
  have hi := (List.getElem?_eq_some_iff.mp hx).1
  have hroom := hkept.room
  have hindex : (pc - kTrampolineBase) / kStubSize = i := by
    rw [kStubSize] at *
    omega
  refine ⟨?_, by rw [hindex, hkept.handlers, List.getElem?_map, hx]; rfl⟩
  rw [contains]
  rw [kStubSize] at *
  omega

end Trampoline

end Vardoger
