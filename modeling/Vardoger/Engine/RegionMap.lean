import Vardoger.Base.Intervals
import Vardoger.Engine.Allocation

/-!
# The region table mirrors the engine's mappings

Every allocator maps a range through the engine and then records that same range. The engine accepts
only fresh, page-aligned, nonempty ranges, so the table stays sorted and disjoint and its union
stays the mapped set, also across calls that throw. The lookup `regionOf` is a different matter: it
computes the end of a region in 64 bits, and a region that reaches the top of the address space has
end `0` there. The last section proves that this is the only failure.
-/

namespace Vardoger.Memory

open Intervals Stateful Words

/-- A region, as the set of its addresses. -/
abbrev Holds (r : Region) (a : ℕ) : Prop := Contains Region.base Region.size r a

/-- The invariant: a separated table of page ranges whose union is the mapped set. -/
structure Tracked (m : Memory) : Prop where
  separated : Separated Region.base Region.size m.regions
  pages : ∀ r ∈ m.regions,
    0 < r.size ∧ r.base % kPageSize = 0 ∧ r.size % kPageSize = 0 ∧ r.base + r.size ≤ 2 ^ 64
  union : ∀ a, m.engine.Mapped a ↔ ∃ r ∈ m.regions, Holds r a

/-- Nothing is mapped at first, and nothing is recorded. -/
theorem tracked_init (abi : Abi) (lowLibBase tight : Bool) :
    Tracked (init abi lowLibBase tight) where
  separated := List.Pairwise.nil
  pages := by simp [init]
  union := by simp [init, Engine.Mapped, Engine.fresh]

/-- Only the table's intervals and the set of mapped pages matter to the invariant. -/
theorem Tracked.congr {m m' : Memory} (h : Tracked m)
    (hregions : m'.regions.map (fun r => (r.base, r.size)) =
      m.regions.map fun r => (r.base, r.size))
    (hmapped : ∀ a, m'.engine.Mapped a ↔ m.engine.Mapped a) : Tracked m' := by
  have hmem : ∀ r' ∈ m'.regions, ∃ r ∈ m.regions, r.base = r'.base ∧ r.size = r'.size := by
    intro r' hr'
    have hpair := List.mem_map_of_mem (f := fun r => (r.base, r.size)) hr'
    rw [hregions] at hpair
    obtain ⟨r, hr, heq⟩ := List.mem_map.mp hpair
    exact ⟨r, hr, (Prod.mk.inj heq).1, (Prod.mk.inj heq).2⟩
  have hmem' : ∀ r ∈ m.regions, ∃ r' ∈ m'.regions, r'.base = r.base ∧ r'.size = r.size := by
    intro r hr
    have hpair := List.mem_map_of_mem (f := fun r => (r.base, r.size)) hr
    rw [← hregions] at hpair
    obtain ⟨r', hr', heq⟩ := List.mem_map.mp hpair
    exact ⟨r', hr', (Prod.mk.inj heq).1, (Prod.mk.inj heq).2⟩
  refine ⟨?_, ?_, ?_⟩
  · have hpairs : (m.regions.map fun r => (r.base, r.size)).Pairwise
        fun a b => a.1 + a.2 ≤ b.1 := List.pairwise_map.mpr h.separated
    rw [← hregions] at hpairs
    exact List.pairwise_map.mp hpairs
  · intro r' hr'
    obtain ⟨r, hr, hbase, hsize⟩ := hmem r' hr'
    rw [← hbase, ← hsize]
    exact h.pages r hr
  · intro a
    rw [hmapped, h.union]
    constructor
    · rintro ⟨r, hr, ha⟩
      obtain ⟨r', hr', hbase, hsize⟩ := hmem' r hr
      exact ⟨r', hr', by simpa only [Holds, Contains, hbase, hsize] using ha⟩
    · rintro ⟨r', hr', ha⟩
      obtain ⟨r, hr, hbase, hsize⟩ := hmem r' hr'
      exact ⟨r, hr, by simpa only [Holds, Contains, hbase, hsize] using ha⟩

/-- A recorded range that the engine accepted keeps the invariant. -/
theorem Tracked.addRegion {m : Memory} {r : Region} (hm : Tracked m)
    (hok : m.engine.Mappable r.base r.size) : Tracked (m.addRegion r) := by
  obtain ⟨hpos, hbase, hsize, hfits, -⟩ := id hok
  have hapart : ∀ b ∈ m.regions, r.base + r.size ≤ b.base ∨ b.base + b.size ≤ r.base := by
    intro b hb
    refine apart_of_disjoint hpos (hm.pages b hb).1 ?_
    intro x hx hbx
    exact hok.not_mapped hx ((hm.union x).mpr ⟨b, hb, hbx⟩)
  refine ⟨separated_orderedInsert hm.separated hpos hapart, ?_, ?_⟩
  · intro b hb
    rcases (List.mem_orderedInsert _).mp hb with rfl | hb
    · exact ⟨hpos, hbase, hsize, hfits⟩
    · exact hm.pages b hb
  · intro a
    simp only [Memory.addRegion]
    rw [exists_contains_orderedInsert, ← hm.union]
    exact Engine.mapped_mapPages hbase hsize

/-- Mapping and recording one range keeps the invariant, whether the engine accepts it or not. -/
theorem mapRegion_keeps (r : Region) : Moves (Preserves Tracked) (mapRegion r) := by
  intro m hm
  rw [mapRegion_apply]
  split
  · exact hm.addRegion ‹_›
  · exact hm

/-- An engine operation that keeps the mapped set keeps the invariant. -/
theorem onEngine_keeps {f : Engine → Except Failure Engine}
    (hf : ∀ e e', f e = .ok e' → ∀ a, e'.Mapped a ↔ e.Mapped a) :
    Moves (Preserves Tracked) (onEngine f) := by
  intro m hm
  unfold onEngine
  cases h : f m.engine with
  | error err => exact hm
  | ok e => exact hm.congr rfl (hf _ _ h)

/-- Moving a cursor keeps the invariant. -/
theorem modify_keeps {f : Memory → Memory} (hregions : ∀ m, (f m).regions = m.regions)
    (hengine : ∀ m, (f m).engine = m.engine) :
    Moves (Preserves Tracked) (modify f : MemM PUnit) :=
  moves_modify fun m hm => hm.congr (by rw [hregions]) fun _ => by rw [hengine]

/-! ## The nine operations -/

/-- The primitive updates of an allocation keep the invariant. -/
theorem primitive_tracked : Primitive (Preserves Tracked) where
  mapRegion := mapRegion_keeps
  onEngine f hf := onEngine_keeps fun e e' h a => by
    rw [Engine.Mapped, Engine.Mapped, hf e e' h]
  moveCursor f hf := modify_keeps (fun m => (hf m).2.1) fun m => (hf m).1

theorem heapInit_keeps : Moves (Preserves Tracked) heapInit := by
  refine moves_bind moves_get fun m => moves_ite ?_ (moves_pure _)
  exact moves_bind (mapRegion_keeps _) fun _ => modify_keeps (fun _ => rfl) fun _ => rfl

theorem heapTake_keeps (p len : ℕ) : Moves (Preserves Tracked) (heapTake p len) :=
  moves_bind (modify_keeps (fun _ => rfl) fun _ => rfl) fun _ => moves_pure _

theorem heapExtend_keeps (len align : ℕ) : Moves (Preserves Tracked) (heapExtend len align) := by
  refine moves_bind ?_ fun ext => moves_ite (moves_pure _) ?_
  · exact moves_tryCatch (mmapAlloc_moves primitive_tracked.toMapping _ _ _) fun _ => moves_pure _
  · refine moves_bind (modify_keeps (fun _ => rfl) fun _ => rfl) fun _ => ?_
    exact moves_ite (moves_pure _) (heapTake_keeps _ _)

theorem heapCarve_keeps (len align : ℕ) : Moves (Preserves Tracked) (heapCarve len align) :=
  moves_bind moves_get fun _ => moves_ite (heapExtend_keeps _ _) (heapTake_keeps _ _)

theorem protectPage_keeps (prot p : ℕ) : Moves (Preserves Tracked) (protectPage prot p) := by
  refine moves_bind moves_get fun m => moves_ite (onEngine_keeps ?_) ?_
  · exact fun e e' h a => Engine.mapped_protect h
  · exact moves_bind (mapFixed_moves primitive_tracked.toMapping _ _ _ _ _) fun _ => moves_pure _

theorem markProt_intervals (base size prot : ℕ) (regions : List Region) :
    (markProt base size prot regions).map (fun r => (r.base, r.size)) =
      regions.map fun r => (r.base, r.size) := by
  fun_induction markProt <;> simp_all

theorem protect_keeps (addr len prot : ℕ) : Moves (Preserves Tracked) (protect addr len prot) := by
  have hmark (base size : ℕ) : Moves (Preserves Tracked) (modify fun m : Memory =>
      { m with regions := markProt base size prot m.regions } : MemM Unit) :=
    moves_modify fun m hm => hm.congr (markProt_intervals _ _ _ _) fun _ => Iff.rfl
  refine moves_bind moves_get fun m => moves_ite ?_ ?_
  · exact moves_bind (onEngine_keeps fun e e' h a => Engine.mapped_protect h) fun _ => hmark _ _
  · exact moves_bind (moves_forM fun p _ => protectPage_keeps prot p) fun _ => hmark _ _

/-- Every operation keeps the invariant, whether it returns or throws. -/
theorem Call.run_keeps (call : Call) : Moves (Preserves Tracked) call.run := by
  by_cases hplain : call.plain
  · exact call.run_moves primitive_tracked hplain
  · cases call with
    | heapAlloc len align => exact moves_bind heapInit_keeps fun _ => heapCarve_keeps len align
    | protect addr len prot => exact moves_bind (protect_keeps addr len prot) fun _ => moves_pure _
    | _ => exact (hplain rfl).elim

/-- Hence it holds after every sequence of calls. -/
theorem tracked_runCalls (abi : Abi) (lowLibBase tight : Bool) (calls : List Call) :
    Tracked (runCalls (init abi lowLibBase tight) calls) :=
  foldl_keeps (fun m call => call.run_keeps m) (tracked_init abi lowLibBase tight) calls

/-- The states that a run can reach: calls of the memory manager, thrown or not, and whatever the
guest and the host do to the engine without mapping or unmapping. -/
inductive Reachable : Memory → Prop
  | init (abi : Abi) (lowLibBase tight : Bool) : Reachable (Memory.init abi lowLibBase tight)
  | call {m : Memory} (c : Call) : Reachable m → Reachable (final (c.run m))
  | guest {m : Memory} (e : Engine) : Reachable m → (∀ a, e.Mapped a ↔ m.engine.Mapped a) →
      Reachable { m with engine := e }

theorem reachable_runCalls {m : Memory} (hm : Reachable m) (calls : List Call) :
    Reachable (runCalls m calls) :=
  foldl_keeps (fun _ c hm => .call c hm) hm calls

theorem Reachable.tracked {m : Memory} (hm : Reachable m) : Tracked m := by
  induction hm with
  | init abi lowLibBase tight => exact tracked_init abi lowLibBase tight
  | call c _ ih => exact c.run_keeps _ ih
  | guest e _ he ih => exact ih.congr rfl he

/-! ## Looking an address up -/

/-- The address a region table cannot answer for once it is mapped. -/
def topAddress : ℕ := 2 ^ 64 - 1

/-- What the region table promises: sorted, page-aligned, nonempty, disjoint entries whose union is
the set of mapped addresses, and a lookup that finds exactly the mapped addresses. -/
structure MirrorsEngine (m : Memory) : Prop where
  sorted : m.regions.Pairwise fun a b => a.base < b.base
  pages : ∀ r ∈ m.regions, 0 < r.size ∧ r.base % kPageSize = 0 ∧ r.size % kPageSize = 0
  disjoint : m.regions.Pairwise fun a b => ∀ x, ¬ (Holds a x ∧ Holds b x)
  union : ∀ x, m.engine.Mapped x ↔ ∃ r ∈ m.regions, Holds r x
  lookup : ∀ x, x < 2 ^ 64 → ((regionOf m.regions x).isSome ↔ m.engine.Mapped x)

/-- The lookup succeeds on the addresses of the regions that end below the top. -/
theorem isSome_regionOf {m : Memory} (hm : Tracked m) {x : ℕ} :
    (regionOf m.regions x).isSome ↔ ∃ r ∈ m.regions, Holds r x ∧ r.base + r.size < 2 ^ 64 := by
  rw [regionOf, List.find?_isSome]
  refine exists_congr fun r => and_congr_right fun hr => ?_
  obtain ⟨-, -, -, hfits⟩ := hm.pages r hr
  have hlimit : r.limit = (r.base + r.size) % 2 ^ 64 := rfl
  simp only [Bool.and_eq_true, decide_eq_true_eq, Holds, Contains]
  omega

/-- A region reaches the top exactly if the last address is mapped. -/
theorem mapped_topAddress {m : Memory} (hm : Tracked m) :
    m.engine.Mapped topAddress ↔ ∃ r ∈ m.regions, r.base + r.size = 2 ^ 64 := by
  rw [hm.union]
  refine exists_congr fun r => and_congr_right fun hr => ?_
  obtain ⟨hpos, -, -, hfits⟩ := hm.pages r hr
  unfold Holds Contains topAddress
  omega

/-- In a tracked state the lookup is right for every address unless the last one is mapped. -/
theorem lookup_iff {m : Memory} (hm : Tracked m) :
    (∀ x, x < 2 ^ 64 → ((regionOf m.regions x).isSome ↔ m.engine.Mapped x)) ↔
      ¬ m.engine.Mapped topAddress := by
  constructor
  · intro hlookup hmapped
    have hfound := (hlookup topAddress (by decide)).mpr hmapped
    obtain ⟨r, -, hholds, hbelow⟩ := (isSome_regionOf hm).mp hfound
    unfold Holds Contains topAddress at hholds
    omega
  · intro htop x _
    rw [isSome_regionOf hm, hm.union]
    refine exists_congr fun r => and_congr_right fun hr => ?_
    have hne : r.base + r.size ≠ 2 ^ 64 := fun h => htop ((mapped_topAddress hm).mpr ⟨r, hr, h⟩)
    exact and_iff_left (lt_of_le_of_ne (hm.pages r hr).2.2.2 hne)

/-- After every sequence of calls, thrown or not, the region table mirrors the engine exactly if
the last address of the address space is not mapped. -/
theorem runCalls_mirrorsEngine_iff (abi : Abi) (lowLibBase tight : Bool) (calls : List Call) :
    MirrorsEngine (runCalls (init abi lowLibBase tight) calls) ↔
      ¬ (runCalls (init abi lowLibBase tight) calls).engine.Mapped topAddress := by
  have hm := tracked_runCalls abi lowLibBase tight calls
  refine ⟨fun h => (lookup_iff hm).mp h.lookup, fun htop => ?_⟩
  refine ⟨?_, fun r hr => ?_, ?_, hm.union, (lookup_iff hm).mpr htop⟩
  · refine hm.separated.imp_of_mem fun {a b} ha _ hab => ?_
    have := (hm.pages a ha).1
    omega
  · exact ⟨(hm.pages r hr).1, (hm.pages r hr).2.1, (hm.pages r hr).2.2.1⟩
  · refine hm.separated.imp fun {a b} hab x hx => ?_
    unfold Holds Contains at hx
    omega

/-- One page mapped at the top of the address space is recorded but not found. -/
theorem topPage_not_found :
    ¬ MirrorsEngine (runCalls (init .arm64 false false)
      [.mapFixed 0xfffffffffffff000 0x1000 ucProtRw .other "top"]) := by
  intro h
  have hfound := (h.lookup topAddress (by decide)).mpr (by decide)
  revert hfound
  decide

end Vardoger.Memory
