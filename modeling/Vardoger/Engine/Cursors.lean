import Vardoger.Engine.RegionMap

/-!
# The cursors of the mapping areas

The cursors for mappings and for large allocations only move up, and so stay in or above their
areas until one of them passes the top of the address space, which maps the last address.
-/

namespace Vardoger.Memory

open Intervals Stateful Words

variable {m m' : Memory}

/-- The mmap cursor is a page address, and both cursors lie at or above the starts of their areas
unless the last address is mapped. -/
structure CursorsOk (m : Memory) : Prop where
  aligned : m.mmapNext % kPageSize = 0
  small : m.mmapNext < 2 ^ 64
  bands : m.engine.Mapped topAddress ∨ (kMmapBase ≤ m.mmapNext ∧ kBigMallocBase ≤ m.bigNext)

/-- The invariant survives a step that leaves the cursors and unmaps nothing. -/
theorem CursorsOk.of_eq (hm : CursorsOk m) (hmmap : m'.mmapNext = m.mmapNext)
    (hbig : m'.bigNext = m.bigNext) (hmapped : ∀ a, m.engine.Mapped a → m'.engine.Mapped a) :
    CursorsOk m' := by
  constructor
  · rw [hmmap]
    exact hm.aligned
  · rw [hmmap]
    exact hm.small
  · rw [hmmap, hbig]
    exact hm.bands.imp_left (hmapped topAddress)

theorem mapRegion_cursorsOk (r : Region) : Moves (Preserves CursorsOk) (mapRegion r) := by
  intro m hm
  rw [mapRegion_apply]
  split
  · next hok => exact hm.of_eq rfl rfl fun a ha => (mapped_addRegion hok a).mpr (.inr ha)
  · exact hm

theorem onEngine_cursorsOk {f : Engine → Except Failure Engine}
    (hf : ∀ e e', f e = .ok e' → ∀ a, e.Mapped a → e'.Mapped a) :
    Moves (Preserves CursorsOk) (onEngine f) := by
  intro m hm
  unfold onEngine
  cases h : f m.engine with
  | error err => exact hm
  | ok e => exact hm.of_eq rfl rfl (hf _ _ h)

theorem modify_cursorsOk {f : Memory → Memory}
    (h : ∀ m, (f m).mmapNext = m.mmapNext ∧ (f m).bigNext = m.bigNext ∧ (f m).engine = m.engine) :
    Moves (Preserves CursorsOk) (modify f : MemM PUnit) :=
  moves_modify fun m hm =>
    hm.of_eq (h m).1 (h m).2.1 fun a ha => by
      rw [(h m).2.2]
      exact ha

/-- The search goes up. -/
theorem le_skipClashes (regions : List Region) (size tries base : ℕ) :
    base ≤ skipClashes regions size tries base := by
  induction tries generalizing base with
  | zero => exact le_rfl
  | succ tries ih =>
    rw [skipClashes]
    split
    · next r hfind =>
      have hclash := List.find?_some hfind
      rw [Region.clashes, Bool.and_eq_true, decide_eq_true_eq] at hclash
      exact hclash.1.le.trans (ih r.limit)
    · exact le_rfl

/-- A range that is mapped up to the top has the last address. -/
theorem add64_cases {base size : ℕ} (hok : m.engine.Mappable base size) :
    (add64 base size = base + size) ∨ (add64 base size = 0 ∧ base ≤ topAddress ∧
      topAddress < base + size) := by
  obtain ⟨hpos, -, -, hfits, -⟩ := hok
  rw [add64, topAddress]
  omega

theorem mmapAlloc_cursorsOk (len prot : ℕ) (label : String) :
    Moves (Preserves CursorsOk) (mmapAlloc len prot label) := by
  intro m hm
  obtain ⟨base, size, -, hbase, ⟨-, err, hthrows⟩ | ⟨-, hok, hmaps⟩⟩ :=
    mmapAlloc_cases len prot label m
  · rw [hthrows]
    exact hm
  · rw [hmaps]
    have hup : m.mmapNext ≤ base := by
      rw [hbase]
      exact le_skipClashes _ _ _ _
    have hmapped := mapped_addRegion (r := ⟨base, size, prot, .mmap, label⟩) hok
    constructor
    · obtain ⟨-, hbase, hsize, -, -⟩ := hok
      change (base + size) % 2 ^ 64 % kPageSize = 0
      rw [kPageSize] at *
      omega
    · exact add64_lt _ _
    · obtain hsum | ⟨-, hlow, hhigh⟩ := add64_cases hok
      · refine hm.bands.imp (fun htop => (hmapped topAddress).mpr (.inr htop)) fun hbands => ?_
        change kMmapBase ≤ add64 base size ∧ kBigMallocBase ≤ m.bigNext
        exact ⟨by omega, hbands.2⟩
      · exact .inl ((hmapped topAddress).mpr (.inl ⟨hlow, hhigh⟩))

theorem bigAlloc_cursorsOk (len prot : ℕ) (label : String) :
    Moves (Preserves CursorsOk) (bigAlloc len prot label) := by
  intro m hm
  rw [bigAlloc_apply len prot label m rfl]
  generalize pageAlignUp (if len = 0 then 1 else len) = size
  by_cases hfull : add64 m.bigNext size > kMmapBase
  · rw [if_pos hfull]
    exact mmapAlloc_cursorsOk len prot label m hm
  · rw [if_neg hfull]
    by_cases hok : m.engine.Mappable m.bigNext size
    · have hmapped := mapped_addRegion (r := ⟨m.bigNext, size, prot, .mmap, label⟩) hok
      rw [if_pos hok]
      refine ⟨hm.aligned, hm.small, ?_⟩
      obtain hsum | ⟨-, hlow, hhigh⟩ := add64_cases hok
      · refine hm.bands.imp (fun htop => (hmapped topAddress).mpr (.inr htop)) fun hbands => ?_
        change kMmapBase ≤ m.mmapNext ∧ kBigMallocBase ≤ add64 m.bigNext size
        exact ⟨hbands.1, by omega⟩
      · exact .inl ((hmapped topAddress).mpr (.inl ⟨hlow, hhigh⟩))
    · rw [if_neg hok]
      exact hm

theorem mapFixed_cursorsOk (addr len prot : ℕ) (kind : Kind) (label : String) :
    Moves (Preserves CursorsOk) (mapFixed addr len prot kind label) := by
  refine moves_bind moves_get fun m => ?_
  split
  · exact moves_throw _
  · exact moves_bind (mapRegion_cursorsOk _) fun _ => moves_pure _

theorem heapAlloc_cursorsOk (len align : ℕ) :
    Moves (Preserves CursorsOk) (heapAlloc len align) := by
  have htake (p : ℕ) : Moves (Preserves CursorsOk) (heapTake p len) :=
    moves_bind (modify_cursorsOk fun _ => ⟨rfl, rfl, rfl⟩) fun _ => moves_pure _
  refine moves_bind ?_ fun _ => moves_bind moves_get fun m => moves_ite ?_ (htake _)
  · refine moves_bind moves_get fun m => moves_ite ?_ (moves_pure _)
    exact moves_bind (mapRegion_cursorsOk _) fun _ => modify_cursorsOk fun _ => ⟨rfl, rfl, rfl⟩
  · refine moves_bind ?_ fun ext => moves_ite (moves_pure _) ?_
    · exact moves_tryCatch (mmapAlloc_cursorsOk _ _ _) fun _ => moves_pure _
    · refine moves_bind (modify_cursorsOk fun _ => ⟨rfl, rfl, rfl⟩) fun _ => ?_
      exact moves_ite (moves_pure _) (htake _)

theorem protect_cursorsOk (addr len prot : ℕ) :
    Moves (Preserves CursorsOk) (protect addr len prot) := by
  have hengine (base size : ℕ) :
      Moves (Preserves CursorsOk) (onEngine (·.protect base size prot)) :=
    onEngine_cursorsOk fun e e' h a => (Engine.mapped_protect h).mpr
  have hpage (p : ℕ) : Moves (Preserves CursorsOk) (protectPage prot p) := by
    refine moves_bind moves_get fun m => moves_ite (hengine _ _) ?_
    exact moves_bind (mapFixed_cursorsOk _ _ _ _ _) fun _ => moves_pure _
  refine moves_bind moves_get fun m => moves_ite ?_ ?_
  · exact moves_bind (hengine _ _) fun _ => modify_cursorsOk fun _ => ⟨rfl, rfl, rfl⟩
  · refine moves_bind (moves_forM fun p _ => hpage p) fun _ => ?_
    exact modify_cursorsOk fun _ => ⟨rfl, rfl, rfl⟩

theorem Call.run_cursorsOk (c : Call) : Moves (Preserves CursorsOk) c.run := by
  have haccess {f : Engine → Except Failure Engine} (hf : ∀ e e', f e = .ok e' → e'.prot = e.prot) :
      Moves (Preserves CursorsOk) (onEngine f) :=
    onEngine_cursorsOk fun e e' h a ha => by
      rw [Engine.Mapped, hf e e' h]
      exact ha
  cases c with
  | mapFixed addr len prot kind label => exact mapFixed_cursorsOk addr len prot kind label
  | mmapAlloc len prot label => exact mmapAlloc_cursorsOk len prot label
  | bigAlloc len prot label => exact bigAlloc_cursorsOk len prot label
  | mapLib total prot label =>
    refine moves_bind moves_get fun m => moves_bind (mapRegion_cursorsOk _) fun _ => ?_
    exact moves_bind (modify_cursorsOk fun _ => ⟨rfl, rfl, rfl⟩) fun _ => moves_pure _
  | setupStack len =>
    refine moves_bind (mapRegion_cursorsOk _) fun _ => ?_
    exact moves_bind (haccess fun e e' h => Engine.prot_writeReg h) fun _ => moves_pure _
  | setupTls =>
    have hwrite (addr : ℕ) (bytes : List UInt8) :
        Moves (Preserves CursorsOk) (onEngine (·.write addr bytes)) :=
      haccess fun e e' h => Engine.prot_write h
    refine moves_bind (mapRegion_cursorsOk _) fun _ => moves_bind (hwrite _ _) fun _ => ?_
    refine moves_bind (hwrite _ _) fun _ => moves_bind (haccess ?_) fun _ => moves_pure _
    intro e e' h
    rw [← Except.ok.inj h]
    rfl
  | heapAlloc len align => exact heapAlloc_cursorsOk len align
  | javaAlloc len align =>
    refine moves_bind ?_ fun _ => moves_bind moves_get fun m => moves_check fun _ => ?_
    · refine moves_bind moves_get fun m => moves_ite ?_ (moves_pure _)
      exact moves_bind (mapRegion_cursorsOk _) fun _ => modify_cursorsOk fun _ => ⟨rfl, rfl, rfl⟩
    · exact moves_bind (modify_cursorsOk fun _ => ⟨rfl, rfl, rfl⟩) fun _ => moves_pure _
  | protect addr len prot =>
    exact moves_bind (protect_cursorsOk addr len prot) fun _ => moves_pure _

theorem Reachable.cursorsOk (hm : Reachable m) : CursorsOk m := by
  induction hm with
  | init abi lowLibBase tight =>
    have hmmap : (Memory.init abi lowLibBase tight).mmapNext = kMmapBase := rfl
    have hbig : (Memory.init abi lowLibBase tight).bigNext = kBigMallocBase := rfl
    constructor
    · rw [hmmap]
      decide
    · rw [hmmap]
      decide
    · rw [hmmap, hbig]
      exact .inr ⟨le_rfl, le_rfl⟩
  | call c _ ih => exact c.run_cursorsOk _ ih
  | guest e _ he ih => exact ih.of_eq rfl rfl fun a ha => (he a).mpr ha

end Vardoger.Memory
