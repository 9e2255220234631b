import Vardoger.Base.FirstFit
import Vardoger.Engine.Cursors
import Mathlib.Order.Bounds.Basic

/-!
# Where `mmap_alloc` places a mapping

`mmap_alloc` looks for a gap from its cursor on, skipping one region at a time. It finds the lowest
gap as long as at most 4096 regions lie before that. With more of them it gives up on a
range that is still in use, which the engine then refuses.
-/

namespace Vardoger.Memory

open Intervals Stateful Words FirstFit

variable {m m' : Memory} {len prot size b : ℕ} {label : String}

/-- The size of a mapping: whole pages, and at least one. -/
def fitSize (len : ℕ) : ℕ := roundUp (max len 1) kPageSize

/-- A page-aligned range at or above the cursor that is free. -/
structure IsGap (m : Memory) (size b : ℕ) : Prop where
  aligned : b % kPageSize = 0
  above : m.mmapNext ≤ b
  fits : b + size ≤ 2 ^ 64
  free : ∀ a, b ≤ a → a < b + size → ¬m.engine.Mapped a

/-- The state behind a mapping of `size` bytes at `b`: that range is mapped, it has a region and
the other ones are as before, and the cursor is at its end. -/
structure PlacedAt (m : Memory) (b size prot : ℕ) (label : String) (m' : Memory) : Prop where
  mapped : ∀ a, m'.engine.Mapped a ↔ (b ≤ a ∧ a < b + size) ∨ m.engine.Mapped a
  regions : ∀ r, r ∈ m'.regions ↔ r = ⟨b, size, prot, .mmap, label⟩ ∨ r ∈ m.regions
  cursor : m'.mmapNext = b + size

/-- The mapping is made at `b`. -/
def FitsAt (m : Memory) (len prot : ℕ) (label : String) (b : ℕ) : Prop :=
  ∃ m', mmapAlloc len prot label m = .ok b m' ∧ PlacedAt m b (fitSize len) prot label m'

/-- The regions that end behind the cursor and start before `b`. -/
def regionsBefore (m : Memory) (b : ℕ) : List Region :=
  between Region.base Region.size m.regions m.mmapNext b

/-! ## The search -/

theorem fitSize_pos (len : ℕ) : 0 < fitSize len := by
  simp only [fitSize, roundUp, kPageSize]
  omega

theorem fitSize_mod (len : ℕ) : fitSize len % kPageSize = 0 := by
  simp only [fitSize, roundUp, kPageSize]
  omega

theorem pageAlignUp_len (hlen : len ≤ 2 ^ 32) :
    pageAlignUp (if len = 0 then 1 else len) = fitSize len := by
  rw [pageAlignUp_eq (by split <;> omega)]
  simp only [fitSize, roundUp, kPageSize]
  split <;> omega

/-- The retry loop is the general search. -/
theorem skipClashes_eq_search (regions : List Region) (size tries base : ℕ) :
    skipClashes regions size tries base =
      search (fun base => Region.clashes base (add64 base size)) Region.limit regions tries
        base := by
  induction tries generalizing base with
  | zero => rfl
  | succ tries ih =>
    rw [skipClashes, search]
    cases hfind : regions.find? (Region.clashes base (add64 base size)) with
    | none => rfl
    | some r => exact ih r.limit

/-- A range is free of mapped addresses just when no region meets it. -/
theorem free_iff (hm : Tracked m) (hsize : 0 < size) :
    (∀ a, b ≤ a → a < b + size → ¬m.engine.Mapped a) ↔
      Free Region.base Region.size m.regions size b := by
  constructor
  · intro hfree r hr
    have hpos := (hm.pages r hr).1
    by_contra hmeets
    have hmeet : ¬m.engine.Mapped (max b r.base) := hfree _ (by omega) (by omega)
    exact hmeet ((hm.union _).mpr ⟨r, hr, by simp only [Holds, Contains]; omega⟩)
  · intro hfree a hlow hhigh hmapped
    obtain ⟨r, hr, hholds⟩ := (hm.union a).mp hmapped
    have hapart := hfree r hr
    simp only [Holds, Contains] at hholds
    omega

/-- Up to a gap that ends below the top, the overlap test of the code is that of the intervals. -/
theorem clashes_iff (hm : Tracked m) (hfree : Free Region.base Region.size m.regions size b)
    (hfits : b + size < 2 ^ 64) {c : ℕ} (hc : c ≤ b) {r : Region} (hr : r ∈ m.regions) :
    Region.clashes c (add64 c size) r = true ↔ c < r.base + r.size ∧ r.base < c + size := by
  have hend := (hm.pages r hr).2.2.2
  have hapart := hfree r hr
  have hstop : add64 c size = c + size := add64_of_lt (by omega)
  have hlimit : r.limit = (r.base + r.size) % 2 ^ 64 := rfl
  rw [Region.clashes, Bool.and_eq_true, decide_eq_true_eq, decide_eq_true_eq, hstop]
  omega

theorem limit_of_clashes (hm : Tracked m) {c stop : ℕ} {r : Region} (hr : r ∈ m.regions)
    (hclash : Region.clashes c stop r = true) : r.limit = r.base + r.size := by
  have hend := (hm.pages r hr).2.2.2
  have hlimit : r.limit = (r.base + r.size) % 2 ^ 64 := rfl
  rw [Region.clashes, Bool.and_eq_true, decide_eq_true_eq, decide_eq_true_eq] at hclash
  omega

/-- A free page below the last one is mapped and recorded. -/
theorem mapFixed_free {p : ℕ} {kind : Kind} (hm : Tracked m) (haligned : p % kPageSize = 0)
    (hfits : p + 0x1000 < 2 ^ 64) (hfree : ¬m.engine.Mapped p) :
    mapFixed p 0x1000 prot kind label m = .ok p (m.addRegion ⟨p, 0x1000, prot, kind, label⟩) := by
  have haligned' : p % 4096 = 0 := haligned
  have hpage : ∀ a, p ≤ a → a < p + 0x1000 → ¬m.engine.Mapped a := by
    intro a hlow hhigh
    have hsame : a / kPageSize = p / kPageSize := by
      rw [kPageSize]
      omega
    rw [Engine.Mapped, hsame]
    exact hfree
  have hbase : pageAlignDown p = p := by
    rw [pageAlignDown_eq (by omega)]
    omega
  have hstop : pageAlignUp (add64 p 0x1000) = p + 0x1000 := by
    rw [add64_of_lt hfits, pageAlignUp_eq (by omega)]
    omega
  have hsize : sub64 (p + 0x1000) p = 0x1000 := by
    rw [sub64_of_le (by omega) (by omega)]
    omega
  have hclear : m.regions.find? (Region.clashes p (p + 0x1000)) = none := by
    apply List.find?_eq_none.mpr
    intro r hr hclash
    have hlimit := limit_of_clashes hm hr hclash
    have hpos := (hm.pages r hr).1
    rw [Region.clashes, Bool.and_eq_true, decide_eq_true_eq, decide_eq_true_eq, hlimit] at hclash
    refine hpage (max p r.base) (by omega) (by omega) ((hm.union _).mpr ⟨r, hr, ?_⟩)
    simp only [Holds, Contains]
    omega
  have hok : m.engine.Mappable p 0x1000 :=
    Engine.mappable_of_not_mapped (by decide) haligned rfl (by omega) hpage
  have hmap := mapRegion_apply ⟨p, 0x1000, prot, kind, label⟩ m
  rw [if_pos (by exact hok)] at hmap
  rw [mapFixed, get_bind]
  simp only [hbase, hstop, hsize, hclear]
  exact bind_ok hmap

/-- The search ends at the least gap if at most 4096 regions lie before it, and before the gap
otherwise. -/
theorem skipClashes_spec (hm : Reachable m) (hsize : 0 < size)
    (hb : IsLeast {b | m.IsGap size b} b) (hfits : b + size < 2 ^ 64) :
    ((m.regionsBefore b).length ≤ 4096 ∧ skipClashes m.regions size 4096 m.mmapNext = b) ∨
    (4096 < (m.regionsBefore b).length ∧
      skipClashes m.regions size 4096 m.mmapNext % kPageSize = 0 ∧
      m.mmapNext ≤ skipClashes m.regions size 4096 m.mmapNext ∧
      skipClashes m.regions size 4096 m.mmapNext < b) := by
  have htracked := hm.tracked
  have hgap : m.IsGap size b := hb.1
  have hfree := (free_iff htracked hsize).mp hgap.free
  rw [skipClashes_eq_search]
  apply search_spec (P := fun c => c % kPageSize = 0) htracked.separated
    (fun r hr => (htracked.pages r hr).1) (fun c hc r hr => clashes_iff htracked hfree hfits hc hr)
    (fun c _ r hr => limit_of_clashes htracked hr)
  · intro r hr
    obtain ⟨-, hbase, hsize, -⟩ := htracked.pages r hr
    simp only [kPageSize] at *
    omega
  · exact hfree
  · exact hsize
  · exact hm.cursorsOk.aligned
  · exact hgap.above
  · intro c haligned habove hfree'
    by_contra hlt
    exact hlt (hb.2 ⟨haligned, habove, by omega, (free_iff htracked hsize).mpr hfree'⟩)

/-- A mapping that is made in the least gap ends below the top and has at most 4096 regions before
it. -/
theorem few_of_fitsAt (hm : Reachable m) (hlen : len ≤ 2 ^ 32)
    (hb : IsLeast {b | m.IsGap (fitSize len) b} b) (hfit : m.FitsAt len prot label b) :
    (m.regionsBefore b).length ≤ 4096 ∧ b + fitSize len < 2 ^ 64 := by
  obtain ⟨m', hrun, hplaced⟩ := hfit
  obtain ⟨base, size, hsize, hbase, ⟨-, err, hthrows⟩ | ⟨-, -, hmaps⟩⟩ :=
    mmapAlloc_cases len prot label m
  · rw [hthrows] at hrun
    cases hrun
  · rw [pageAlignUp_len hlen] at hsize
    subst hsize
    rw [hmaps] at hrun
    injection hrun with hret hstate
    have hcursor : b + fitSize len < 2 ^ 64 := by
      rw [← hplaced.cursor, ← hstate]
      exact add64_lt _ _
    refine ⟨?_, hcursor⟩
    obtain ⟨hfew, -⟩ | ⟨-, -, -, hbefore⟩ := skipClashes_spec hm (fitSize_pos len) hb hcursor
    · exact hfew
    · omega

theorem fitsAt_of_few (hm : Reachable m) (hlen : len ≤ 2 ^ 32)
    (hb : IsLeast {b | m.IsGap (fitSize len) b} b) (hfew : (m.regionsBefore b).length ≤ 4096)
    (hfits : b + fitSize len < 2 ^ 64) : m.FitsAt len prot label b := by
  have hsize := fitSize_pos len
  have hgap : m.IsGap (fitSize len) b := hb.1
  obtain ⟨-, hfound⟩ | ⟨hmany, -⟩ := skipClashes_spec hm hsize hb hfits
  · have hok : m.engine.Mappable b (fitSize len) :=
      Engine.mappable_of_not_mapped hsize hgap.aligned (fitSize_mod len) hgap.fits hgap.free
    obtain ⟨base, size, hsz, hbase, hcases⟩ := mmapAlloc_cases len prot label m
    rw [pageAlignUp_len hlen] at hsz
    subst hsz
    obtain rfl : base = b := hbase.trans hfound
    obtain ⟨hnot, -⟩ | ⟨-, -, hmaps⟩ := hcases
    · exact absurd ⟨hlen, hok⟩ hnot
    · refine ⟨_, hmaps, ?_, ?_, ?_⟩
      · intro a
        exact Engine.mapped_mapPages hgap.aligned (fitSize_mod len)
      · intro r
        exact List.mem_orderedInsert _
      · exact add64_of_lt hfits
  · omega

/-- For every reachable state and every length up to 4 GiB for which a gap exists: the mapping is
made in the least gap if and only if at most 4096 regions lie between the cursor and the gap, and
the gap ends below the top of the address space. -/
theorem mmapAlloc_firstFit_iff (m : Memory) (len prot : ℕ) (label : String) (b : ℕ)
    (hm : Reachable m) (hlen : len ≤ 2 ^ 32) (hb : IsLeast {b | m.IsGap (fitSize len) b} b) :
    m.FitsAt len prot label b ↔
      (m.regionsBefore b).length ≤ 4096 ∧ b + fitSize len < 2 ^ 64 :=
  ⟨few_of_fitsAt hm hlen hb, fun h => fitsAt_of_few hm hlen hb h.1 h.2⟩

/-- In the fresh state the mapping is made at the cursor. -/
theorem mmapAlloc_firstFit_fresh :
    FitsAt (init .arm64 false false) 1 ucProtRw "anon" kMmapBase :=
  (mmapAlloc_firstFit_iff (init .arm64 false false) 1 ucProtRw "anon" kMmapBase
    (.init .arm64 false false) (by decide)
    ⟨⟨rfl, le_rfl, by decide, fun a _ _ hmapped => by cases hmapped⟩, fun c hc => hc.above⟩).mpr
    (by decide)

/-! ## Too many regions -/

/-- A page mapped at a fixed address of the mmap area. -/
def fixedPage (i : ℕ) : Region := ⟨kMmapBase + i * 0x1000, 0x1000, ucProtRw, .mmap, "fixed"⟩

/-- Adjacent pages mapped one by one. -/
def fixedPages (n : ℕ) : List Call :=
  (List.range n).map fun i => .mapFixed (kMmapBase + i * 0x1000) 0x1000 ucProtRw .mmap "fixed"

theorem runCalls_concat (m : Memory) (calls : List Call) (c : Call) :
    runCalls m (calls ++ [c]) = final (c.run (runCalls m calls)) := by
  rw [runCalls, List.foldl_append]
  rfl

/-- An entry behind all others is inserted at the end. -/
theorem orderedInsert_last {r : Region} {regions : List Region}
    (hlast : ∀ r' ∈ regions, r'.base ≤ r.base) :
    regions.orderedInsert (fun a b => a.base < b.base) r = regions ++ [r] := by
  induction regions with
  | nil => rfl
  | cons r' regions ih =>
    have hle := hlast r' List.mem_cons_self
    rw [List.orderedInsert_cons, if_neg (by omega),
      ih fun r'' hr'' => hlast r'' (List.mem_cons_of_mem r' hr''), List.cons_append]

/-- After `n` such mappings the table has `n` regions and the cursor is where it was. -/
theorem runCalls_fixedPages {n : ℕ} (hn : n ≤ 2 ^ 32) :
    (runCalls (init .arm64 false false) (fixedPages n)).regions = (List.range n).map fixedPage ∧
      (runCalls (init .arm64 false false) (fixedPages n)).mmapNext = kMmapBase := by
  induction n with
  | zero => exact ⟨rfl, rfl⟩
  | succ n ih =>
    obtain ⟨hregions, hcursor⟩ := ih (by omega)
    have hstep : runCalls (init .arm64 false false) (fixedPages (n + 1)) =
        (runCalls (init .arm64 false false) (fixedPages n)).addRegion (fixedPage n) := by
      have hcalls : fixedPages (n + 1) = fixedPages n ++
          [.mapFixed (kMmapBase + n * 0x1000) 0x1000 ucProtRw .mmap "fixed"] := by
        rw [fixedPages, List.range_succ, List.map_append]
        rfl
      have hm := tracked_runCalls .arm64 false false (fixedPages n)
      have hfree : ¬(runCalls (init .arm64 false false) (fixedPages n)).engine.Mapped
          (kMmapBase + n * 0x1000) := by
        intro hmapped
        obtain ⟨r, hr, hholds⟩ := (hm.union _).mp hmapped
        rw [hregions] at hr
        obtain ⟨i, hi, rfl⟩ := List.mem_map.mp hr
        have hlt := List.mem_range.mp hi
        simp only [Holds, Contains, fixedPage] at hholds
        omega
      rw [hcalls, runCalls_concat, Call.run, mapFixed_free hm _ _ hfree]
      · rfl
      · simp only [kMmapBase, kPageSize]
        omega
      · rw [kMmapBase]
        omega
    rw [hstep]
    constructor
    · rw [List.range_succ, List.map_append, ← hregions]
      apply orderedInsert_last
      intro r hr
      rw [hregions] at hr
      obtain ⟨i, hi, rfl⟩ := List.mem_map.mp hr
      have hlt := List.mem_range.mp hi
      simp only [fixedPage]
      omega
    · exact hcursor

/-- With 4097 pages in use from the cursor on, the gap behind them is not found. -/
theorem mmapAlloc_misses_gap :
    IsLeast {b | (runCalls (init .arm64 false false) (fixedPages 4097)).IsGap (fitSize 1) b}
        (kMmapBase + 4097 * 0x1000) ∧
      ¬ FitsAt (runCalls (init .arm64 false false) (fixedPages 4097)) 1 ucProtRw "anon"
        (kMmapBase + 4097 * 0x1000) := by
  obtain ⟨hregions, hcursor⟩ := runCalls_fixedPages (n := 4097) (by decide)
  have hm : Reachable (runCalls (init .arm64 false false) (fixedPages 4097)) :=
    reachable_runCalls (.init .arm64 false false) _
  generalize runCalls (init .arm64 false false) (fixedPages 4097) = m at *
  have hmapped : ∀ a, m.engine.Mapped a ↔
      kMmapBase ≤ a ∧ a < kMmapBase + 4097 * 0x1000 := by
    intro a
    rw [hm.tracked.union, hregions]
    constructor
    · rintro ⟨r, hr, hholds⟩
      obtain ⟨i, hi, rfl⟩ := List.mem_map.mp hr
      have hlt := List.mem_range.mp hi
      simp only [Holds, Contains, fixedPage] at hholds
      omega
    · intro ha
      refine ⟨fixedPage ((a - kMmapBase) / 0x1000), List.mem_map_of_mem ?_, ?_⟩
      · rw [List.mem_range]
        omega
      · simp only [Holds, Contains, fixedPage]
        omega
  have hleast : IsLeast {b | m.IsGap (fitSize 1) b} (kMmapBase + 4097 * 0x1000) := by
    constructor
    · refine ⟨rfl, by omega, by decide, fun a hlow _ ha => ?_⟩
      have hinside := (hmapped a).mp ha
      omega
    · intro c hc
      by_contra hlt
      refine hc.free c le_rfl (Nat.lt_add_of_pos_right (fitSize_pos 1)) ((hmapped c).mpr ?_)
      have habove := hc.above
      omega
  refine ⟨hleast, fun hfit => ?_⟩
  have hfew := (few_of_fitsAt hm (by decide) hleast hfit).1
  have hall : m.regionsBefore (kMmapBase + 4097 * 0x1000) = m.regions := by
    apply List.filter_eq_self.mpr
    intro r hr
    rw [hregions] at hr
    obtain ⟨i, hi, rfl⟩ := List.mem_map.mp hr
    have hlt := List.mem_range.mp hi
    apply decide_eq_true
    rw [hcursor]
    simp only [fixedPage]
    omega
  rw [hall, hregions, List.length_map, List.length_range] at hfew
  omega

end Vardoger.Memory
