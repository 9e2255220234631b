import Vardoger.Engine.RegionMap

/-!
# Heap blocks

The heap hands out consecutive blocks of one arena and maps a further arena when a block does not
fit. Both tests for that add the requested length in 64 bits. As long as the true sums stay below
`2 ^ 64` the blocks are aligned, lie in one read-write region each and never overlap, across any
interleaving with the other allocators. A length that wraps the sum past the test breaks this.
-/

namespace Vardoger.Memory

open Intervals Stateful Words

/-- A non-null result of `heap_alloc`, with the arguments it answers. -/
structure Block where
  addr : ℕ
  len : ℕ
  align : ℕ
  deriving DecidableEq, Repr

/-- The region table gives every page the protection the engine has for it. -/
structure Recorded (m : Memory) : Prop extends Tracked m where
  prot : ∀ r ∈ m.regions, ∀ x, Holds r x → m.engine.prot (x / kPageSize) = some r.prot

/-- The range of a block lies in one read-write region, below the end of the address space. -/
structure Block.Placed (m : Memory) (b : Block) : Prop where
  aligned : b.align ∣ b.addr
  below : b.addr + b.len < 2 ^ 64
  region : ∃ r ∈ m.regions, r.prot = ucProtRw ∧ r.base ≤ b.addr ∧ b.addr + b.len ≤ r.base + r.size
  mapped : ∀ x, b.addr ≤ x → x < b.addr + b.len → m.engine.prot (x / kPageSize) = some ucProtRw

/-- What the heap promises about the blocks it handed out. -/
structure BlocksOk (m : Memory) (blocks : List Block) : Prop where
  placed : ∀ b ∈ blocks, b.Placed m
  disjoint : blocks.Pairwise fun a b => a.addr + a.len ≤ b.addr ∨ b.addr + b.len ≤ a.addr

/-- Make one call and note the block it hands out. -/
def record (s : Memory × List Block) (call : Call) : Memory × List Block :=
  match call, call.run s.1 with
  | .heapAlloc len align, .ok p m => (m, if p = 0 then s.2 else s.2 ++ [⟨p, len, align⟩])
  | _, result => (final result, s.2)

/-- The state and the blocks after a sequence of calls. -/
def recordCalls (m : Memory) (calls : List Call) : Memory × List Block := calls.foldl record (m, [])

/-- Where the next arena for `len` bytes would be mapped. -/
def nextArena (m : Memory) (len : ℕ) : ℕ := skipClashes m.regions (arenaSize len) 4096 m.mmapNext

/-- The block stays below `2 ^ 64` where it would be placed: behind the cursor, or at the start of
the next arena. -/
def HeapFits (m : Memory) (len align : ℕ) : Prop :=
  roundUp m.heapNext align + len < 2 ^ 64 ∧
    (m.heapEnd < roundUp m.heapNext align + len → nextArena m len + len ≠ 2 ^ 64)

instance (m : Memory) (len align : ℕ) : Decidable (HeapFits m len align) :=
  inferInstanceAs (Decidable (_ ∧ _))

/-- The allocation calls considered: a heap request has a power of two up to the page size as its
alignment and fits, counted from the state in which the heap is mapped; nothing is re-protected. -/
def Call.Fits (m : Memory) : Call → Prop
  | .heapAlloc len align =>
      (∃ k ≤ 12, align = 2 ^ k) ∧ HeapFits (final (heapInit m)) len align
  | .protect _ _ _ => False
  | _ => True

/-- Every call of a sequence fits in the state it is made in. -/
def AllFit : Memory → List Call → Prop
  | _, [] => True
  | m, call :: calls => call.Fits m ∧ AllFit (final (call.run m)) calls

/-! ## The invariant -/

/-- The blocks are in order, and the part of the current arena behind the cursor is unused. An arena
at the very top of the address space has end `0`. -/
structure HeapOk (m : Memory) (blocks : List Block) : Prop extends BlocksOk m blocks where
  recorded : Recorded m
  loose : m.tight = false
  arena : m.heapNext ≠ 0 → ∃ r ∈ m.regions, r.prot = ucProtRw ∧ 0 < r.base ∧
    r.base ≤ m.heapNext ∧ m.heapEnd = add64 r.base r.size
  unused : m.heapNext ≠ 0 → ∀ b ∈ blocks, b.addr + b.len ≤ m.heapNext ∨ m.heapEnd ≤ b.addr

/-- Only the region table and the page protections matter to the agreement of the two. -/
theorem Recorded.congr {m m' : Memory} (hm : Recorded m) (hprot : m'.engine.prot = m.engine.prot)
    (hregions : m'.regions = m.regions) : Recorded m' := by
  refine ⟨hm.toTracked.congr (by rw [hregions]) fun a => ?_, ?_⟩
  · rw [Engine.Mapped, Engine.Mapped, hprot]
  · rw [hregions, hprot]
    exact hm.prot

/-- A mapped and recorded range keeps table and engine in agreement. -/
theorem Recorded.addRegion {m : Memory} {r : Region} (hm : Recorded m)
    (hok : m.engine.Mappable r.base r.size) : Recorded (m.addRegion r) := by
  refine ⟨hm.toTracked.addRegion hok, ?_⟩
  obtain ⟨-, hbase, hsize, -⟩ := id hok
  intro b hb x hx
  simp only [Memory.addRegion, Engine.mapPages, Engine.setProt]
  rcases (List.mem_orderedInsert _).mp hb with rfl | hb
  · refine if_pos ?_
    simp only [Holds, Contains, kPageSize] at *
    omega
  · have hfree : ¬(r.base ≤ x ∧ x < r.base + r.size) := fun h =>
      hok.not_mapped h ((hm.union x).mpr ⟨b, hb, hx⟩)
    rw [if_neg, hm.prot b hb x hx]
    simp only [kPageSize] at *
    omega

/-- What the other allocators do, seen from the heap: they add regions and leave its cursor. -/
def Grows (m m' : Memory) : Prop :=
  Recorded m → Recorded m' ∧ (∀ r ∈ m.regions, r ∈ m'.regions) ∧ m'.heapNext = m.heapNext ∧
    m'.heapEnd = m.heapEnd ∧ m'.tight = m.tight

instance : Std.Refl Grows := ⟨fun _ h => ⟨h, fun _ hr => hr, rfl, rfl, rfl⟩⟩

instance : IsTrans Memory Grows := by
  refine ⟨fun m₁ m₂ m₃ h h' h₁ => ?_⟩
  obtain ⟨h₂, hsub, hnext, hend, htight⟩ := h h₁
  obtain ⟨h₃, hsub', hnext', hend', htight'⟩ := h' h₂
  exact ⟨h₃, fun r hr => hsub' r (hsub r hr), hnext'.trans hnext, hend'.trans hend,
    htight'.trans htight⟩

/-- The primitive updates of an allocation only add regions. -/
theorem primitive_grows : Primitive Grows where
  mapRegion r m hm := by
    rw [mapRegion_apply]
    split
    · refine ⟨hm.addRegion ‹_›, fun b hb => ?_, rfl, rfl, rfl⟩
      exact (List.mem_orderedInsert _).mpr (.inr hb)
    · exact ⟨hm, fun _ hr => hr, rfl, rfl, rfl⟩
  onEngine f hf m hm := by
    unfold onEngine
    cases h : f m.engine with
    | error err => exact ⟨hm, fun _ hr => hr, rfl, rfl, rfl⟩
    | ok e => exact ⟨hm.congr (hf _ _ h) rfl, fun _ hr => hr, rfl, rfl, rfl⟩
  moveCursor f hf := moves_modify fun m hm => by
    obtain ⟨hengine, hregions, hrest⟩ := hf m
    exact ⟨hm.congr (by rw [hengine]) hregions, fun r hr => by rwa [hregions], hrest⟩

/-- A placed block stays placed while regions are only added. -/
theorem Block.Placed.mono {m m' : Memory} {b : Block} (hb : b.Placed m) (hm' : Recorded m')
    (hsub : ∀ r ∈ m.regions, r ∈ m'.regions) : b.Placed m' := by
  obtain ⟨r, hr, hprot, hlow, hhigh⟩ := hb.region
  refine ⟨hb.aligned, hb.below, ⟨r, hsub r hr, hprot, hlow, hhigh⟩, fun x hx hx' => ?_⟩
  rw [← hprot]
  exact hm'.prot r (hsub r hr) x ⟨by omega, by omega⟩

/-- The heap invariant survives every step that only adds regions. -/
theorem HeapOk.grow {m m' : Memory} {blocks : List Block} (h : HeapOk m blocks)
    (hgrows : Grows m m') : HeapOk m' blocks := by
  obtain ⟨hm', hsub, hnext, hend, htight⟩ := hgrows h.recorded
  refine ⟨⟨fun b hb => (h.placed b hb).mono hm' hsub, h.disjoint⟩, hm', htight.trans h.loose,
    ?_, ?_⟩
  · intro hne
    rw [hnext] at hne ⊢
    obtain ⟨r, hr, hrest⟩ := h.arena hne
    exact ⟨r, hsub r hr, by rwa [hend]⟩
  · rw [hnext, hend]
    exact h.unused

/-- The state in which a fresh region has become the current arena. -/
def openArena (m : Memory) (r : Region) (mmapNext : ℕ) : Memory :=
  { m.addRegion r with mmapNext, heapNext := r.base, heapEnd := add64 r.base r.size }

/-- A fresh read-write region serves as an arena: no earlier block lies in it. -/
theorem HeapOk.openArena {m : Memory} {blocks : List Block} {r : Region} (h : HeapOk m blocks)
    (hok : m.engine.Mappable r.base r.size) (hprot : r.prot = ucProtRw) (hbase : 0 < r.base)
    (mmapNext : ℕ) : HeapOk (m.openArena r mmapNext) blocks := by
  have hadded := h.recorded.addRegion hok
  have hm' : Recorded (m.openArena r mmapNext) := hadded.congr rfl rfl
  have hsub : ∀ b ∈ m.regions, b ∈ (m.openArena r mmapNext).regions := fun b hb =>
    (List.mem_orderedInsert _).mpr (.inr hb)
  have hmem : r ∈ (m.openArena r mmapNext).regions := (List.mem_orderedInsert _).mpr (.inl rfl)
  refine ⟨⟨fun b hb => (h.placed b hb).mono hm' hsub, h.disjoint⟩, hm', h.loose, ?_, ?_⟩
  · exact fun _ => ⟨r, hmem, hprot, hbase, le_refl _, rfl⟩
  · intro _ b hb
    obtain ⟨rb, hrb, -, hlow, hhigh⟩ := (h.placed b hb).region
    have hapart : r.base + r.size ≤ rb.base ∨ rb.base + rb.size ≤ r.base := by
      refine apart_of_disjoint hok.1 (h.recorded.pages rb hrb).1 fun x hx hx' => ?_
      exact hok.not_mapped hx ((h.recorded.union x).mpr ⟨rb, hrb, hx'⟩)
    have hend : add64 r.base r.size ≤ r.base + r.size := Nat.mod_le _ _
    change b.addr + b.len ≤ r.base ∨ add64 r.base r.size ≤ b.addr
    omega

/-- Advancing the cursor over a block that fits into the arena hands that block out. -/
theorem HeapOk.take {m : Memory} {blocks : List Block} {p len k : ℕ} (h : HeapOk m blocks)
    (hinit : m.heapNext ≠ 0) (hp : m.heapNext ≤ p) (hdvd : 2 ^ k ∣ p)
    (hfits : p + len ≤ m.heapEnd) :
    HeapOk (final (heapTake p len m)) (blocks ++ [⟨p, len, 2 ^ k⟩]) := by
  obtain ⟨r, hr, hprot, hbase, hlow, hend⟩ := h.arena hinit
  obtain ⟨hpos, haligned, hpages, htop⟩ := h.recorded.pages r hr
  -- an arena that ends at the top has limit zero, and then nothing fits
  have hlimit : m.heapEnd = r.base + r.size ∧ r.base + r.size ≤ 2 ^ 64 - 4096 := by
    simp only [kPageSize] at haligned hpages
    unfold add64 at hend
    omega
  have hstate : final (heapTake p len m) =
      { m with heapNext := add64 (add64 p (maskDown (add64 len 0x1f) 0x20)) 16 } := by
    change { m with heapNext := if m.tight then _ else _ } = _
    rw [h.loose]
    rfl
  have hnext : add64 (add64 p (maskDown (add64 len 0x1f) 0x20)) 16 =
      p + (len + 31) / 32 * 32 + 16 := by
    have hround : maskDown (len + 0x1f) 0x20 = (len + 31) / 32 * 32 :=
      maskDown_two_pow (k := 5) (by decide) (by omega)
    rw [add64_of_lt (a := len) (by omega), hround, add64_of_lt (a := p) (by omega),
      add64_of_lt (by omega)]
  rw [hstate, hnext]
  have hm' : Recorded { m with heapNext := p + (len + 31) / 32 * 32 + 16 } :=
    h.recorded.congr rfl rfl
  have hplaced : (⟨p, len, 2 ^ k⟩ : Block).Placed m := by
    refine ⟨hdvd, by dsimp only; omega, ⟨r, hr, hprot, by dsimp only; omega, by dsimp only; omega⟩,
      fun x hx hx' => ?_⟩
    rw [← hprot]
    exact h.recorded.prot r hr x ⟨by dsimp only at *; omega, by dsimp only at *; omega⟩
  refine ⟨⟨?_, ?_⟩, hm', h.loose, ?_, ?_⟩
  · intro b hb
    rcases List.mem_append.mp hb with hb | hb
    · exact (h.placed b hb).mono hm' fun _ hr => hr
    · rw [List.mem_singleton.mp hb]
      exact hplaced.mono hm' fun _ hr => hr
  · refine List.pairwise_append.mpr ⟨h.disjoint, List.pairwise_singleton _ _, fun a ha b hb => ?_⟩
    rw [List.mem_singleton.mp hb]
    have := h.unused hinit a ha
    dsimp only
    omega
  · exact fun _ => ⟨r, hr, hprot, hbase, by dsimp only; omega, hend⟩
  · intro _ b hb
    dsimp only
    rcases List.mem_append.mp hb with hb | hb
    · have := h.unused hinit b hb
      omega
    · rw [List.mem_singleton.mp hb]
      dsimp only
      omega

/-! ## The steps of `heap_alloc` -/

/-- The first arena. -/
def heapRegion : Region := ⟨kHeapBase, kHeapSize, ucProtRw, .heap, "heap"⟩

theorem kHeapBase_ne_zero : kHeapBase ≠ 0 := by decide

/-- The first request maps the heap if its range is free. -/
theorem heapInit_of_mappable {m : Memory} (hinit : m.heapNext = 0)
    (hok : m.engine.Mappable kHeapBase kHeapSize) :
    heapInit m = .ok () (m.openArena heapRegion m.mmapNext) := by
  have hmap := mapRegion_apply heapRegion m
  rw [if_pos (by exact hok)] at hmap
  rw [heapInit, get_bind, if_pos hinit]
  exact bind_ok hmap

/-- The heap is mapped already, gets mapped, or cannot be mapped. -/
theorem heapInit_cases (m : Memory) :
    (m.heapNext ≠ 0 ∧ heapInit m = .ok () m) ∨
      (m.engine.Mappable kHeapBase kHeapSize ∧
        heapInit m = .ok () (m.openArena heapRegion m.mmapNext)) ∨
      ∃ err, heapInit m = .error err m := by
  by_cases hinit : m.heapNext = 0
  · by_cases hok : m.engine.Mappable kHeapBase kHeapSize
    · exact .inr (.inl ⟨hok, heapInit_of_mappable hinit hok⟩)
    · have hmap := mapRegion_apply heapRegion m
      rw [if_neg (by exact hok)] at hmap
      rw [heapInit, get_bind, if_pos hinit]
      exact .inr (.inr ⟨_, bind_error hmap⟩)
  · rw [heapInit, get_bind, if_neg hinit]
    exact .inl ⟨hinit, rfl⟩

/-- The size of a further arena is a page multiple that holds the block. -/
theorem arenaSize_spec {len : ℕ} (hlen : len + 4096 ≤ 2 ^ 64) :
    len ≤ arenaSize len ∧ 0 < arenaSize len ∧ arenaSize len + 4096 ≤ 2 ^ 64 ∧
      arenaSize len % 4096 = 0 := by
  have hextent : kHeapExtent = 0x04000000 := rfl
  unfold arenaSize
  split
  · rw [pageAlignUp_eq (by omega)]
    omega
  · rw [pageAlignUp_eq (by omega)]
    omega

/-- What a call may have done to the heap: handed out one more block, or none. -/
def Handed (len align : ℕ) (blocks : List Block) : EStateM.Result Failure Memory ℕ → Prop
  | .ok p m => HeapOk m (if p = 0 then blocks else blocks ++ [⟨p, len, align⟩])
  | .error _ m => HeapOk m blocks

/-- A block that fits into the current arena is handed out behind the cursor. -/
theorem HeapOk.handed_take {m : Memory} {blocks : List Block} {p len k : ℕ} (h : HeapOk m blocks)
    (hinit : m.heapNext ≠ 0) (hp : m.heapNext ≤ p) (hdvd : 2 ^ k ∣ p)
    (hfits : p + len ≤ m.heapEnd) :
    Handed len (2 ^ k) blocks (heapTake p len m) := by
  have htaken := h.take hinit hp hdvd hfits
  change HeapOk _ (if p = 0 then blocks else _)
  rw [if_neg (by omega)]
  exact htaken

/-- The range of the next arena is free. -/
def ArenaFree (m : Memory) (len : ℕ) : Prop :=
  arenaSize len ≤ 2 ^ 32 ∧ m.engine.Mappable (nextArena m len) (arenaSize len)

instance (m : Memory) (len : ℕ) : Decidable (ArenaFree m len) :=
  inferInstanceAs (Decidable (_ ∧ _))

/-- The next arena. -/
def arenaRegion (m : Memory) (len : ℕ) : Region :=
  ⟨nextArena m len, arenaSize len, ucProtRw, .mmap, "heap-extent"⟩

/-- The state after the next arena was mapped. -/
def mapArena (m : Memory) (len : ℕ) : Memory :=
  { m.addRegion (m.arenaRegion len) with mmapNext := add64 (nextArena m len) (arenaSize len) }

/-- The next arena is mapped where its range is free. -/
theorem mmapAlloc_arena {len : ℕ} (hlen : len + 4096 ≤ 2 ^ 64) (m : Memory) :
    (¬ArenaFree m len ∧
        ∃ err, mmapAlloc (arenaSize len) ucProtRw "heap-extent" m = .error err m) ∨
      (ArenaFree m len ∧ mmapAlloc (arenaSize len) ucProtRw "heap-extent" m =
        .ok (nextArena m len) (m.mapArena len)) := by
  obtain ⟨-, hpos, hsmall, hpages⟩ := arenaSize_spec hlen
  obtain ⟨ext, size, hsize, hext, hcases⟩ :=
    mmapAlloc_cases (arenaSize len) ucProtRw "heap-extent" m
  obtain rfl : size = arenaSize len := by
    rw [hsize, if_neg hpos.ne', pageAlignUp_eq (by omega)]
    omega
  obtain rfl : ext = nextArena m len := hext
  rcases hcases with h | ⟨hle, hok, hmap⟩
  · exact .inl h
  · exact .inr ⟨⟨hle, hok⟩, hmap⟩

/-- Without a free range for an arena there is no block. -/
theorem heapExtend_full {m : Memory} {len : ℕ} (hlen : len + 4096 ≤ 2 ^ 64)
    (hfull : ¬ArenaFree m len) (align : ℕ) : heapExtend len align m = .ok 0 m := by
  rcases mmapAlloc_arena hlen m with ⟨-, err, hthrow⟩ | ⟨hfree, -⟩
  · have hcaught : (tryCatch (mmapAlloc (arenaSize len) ucProtRw "heap-extent")
        fun _ => pure 0 : MemM ℕ) m = .ok 0 m := tryCatch_error hthrow
    rw [heapExtend, bind_ok hcaught]
    rfl
  · exact absurd hfree hfull

/-- An arena at address zero is taken for a failure. -/
theorem heapExtend_null {m : Memory} {len : ℕ} (hlen : len + 4096 ≤ 2 ^ 64)
    (hfree : ArenaFree m len) (hnull : nextArena m len = 0) (align : ℕ) :
    heapExtend len align m = .ok 0 (m.mapArena len) := by
  rcases mmapAlloc_arena hlen m with ⟨hfull, -⟩ | ⟨-, hmap⟩
  · exact absurd hfree hfull
  · rw [heapExtend, bind_ok (tryCatch_ok hmap), if_pos hnull]
    rfl

/-- Any other arena becomes the current one, and the block is taken from its start if the sums
tell that it fits. -/
theorem heapExtend_free {m : Memory} {len k : ℕ} (hk : k ≤ 12) (hlen : len + 4096 ≤ 2 ^ 64)
    (hfree : ArenaFree m len) (hnull : nextArena m len ≠ 0) :
    heapExtend len (2 ^ k) m =
      if add64 (nextArena m len) len > add64 (nextArena m len) (arenaSize len) then
        .ok 0 (m.openArena (m.arenaRegion len) (add64 (nextArena m len) (arenaSize len)))
      else heapTake (nextArena m len) len
        (m.openArena (m.arenaRegion len) (add64 (nextArena m len) (arenaSize len))) := by
  rcases mmapAlloc_arena hlen m with ⟨hfull, -⟩ | ⟨-, hmap⟩
  · exact absurd hfree hfull
  obtain ⟨-, hpos, haligned, -, hbelow, -⟩ := hfree
  have hdvd : 2 ^ k ∣ nextArena m len :=
    (pow_dvd_pow 2 hk).trans (Nat.dvd_of_mod_eq_zero haligned)
  have hround : roundUp (nextArena m len) (2 ^ k) = nextArena m len :=
    roundUp_of_dvd (Nat.two_pow_pos k) hdvd
  have hstart : maskUp (nextArena m len) (2 ^ k) = nextArena m len := by
    rw [maskUp_eq_roundUp (by omega) (by omega), hround]
  rw [heapExtend, bind_ok (tryCatch_ok hmap), if_neg hnull, modify_bind, hstart]
  by_cases hover : add64 (nextArena m len) len > add64 (nextArena m len) (arenaSize len)
  · simp only [if_pos hover]
    rfl
  · simp only [if_neg hover]
    rfl

/-- Without room in the current arena the block starts the next one, or there is none. -/
theorem HeapOk.handed_extend {m : Memory} {blocks : List Block} {len k : ℕ}
    (h : HeapOk m blocks) (hk : k ≤ 12) (hlen : len + 4096 ≤ 2 ^ 64)
    (htop : nextArena m len + len ≠ 2 ^ 64) :
    Handed len (2 ^ k) blocks (heapExtend len (2 ^ k) m) := by
  by_cases hfree : ArenaFree m len
  · by_cases hnull : nextArena m len = 0
    · rw [heapExtend_null hlen hfree hnull]
      have hadded : HeapOk (m.mapArena len) blocks := by
        refine h.grow fun hm =>
          ⟨(hm.addRegion hfree.2).congr rfl rfl, fun r hr => ?_, rfl, rfl, rfl⟩
        exact (List.mem_orderedInsert _).mpr (.inr hr)
      exact hadded
    · have hopen := h.openArena (r := m.arenaRegion len) hfree.2 rfl (Nat.pos_of_ne_zero hnull)
        (add64 (nextArena m len) (arenaSize len))
      rw [heapExtend_free hk hlen hfree hnull]
      split
      · exact hopen
      · refine hopen.handed_take hnull (le_refl _) ?_ ?_
        · exact (pow_dvd_pow 2 hk).trans (Nat.dvd_of_mod_eq_zero hfree.2.2.1)
        · change nextArena m len + len ≤ add64 (nextArena m len) (arenaSize len)
          have hroom := (arenaSize_spec hlen).1
          have hbelow := hfree.2.2.2.2.1
          unfold add64 at *
          omega
  · rw [heapExtend_full hlen hfree]
    exact h

/-- The block ends inside the arena, as far as the test can tell, or a new arena is needed. -/
theorem heapCarve_apply (len align : ℕ) (m : Memory) :
    heapCarve len align m =
      if add64 (maskUp m.heapNext align) len > m.heapEnd then heapExtend len align m
      else heapTake (maskUp m.heapNext align) len m := by
  rw [heapCarve, get_bind]
  split
  · rfl
  · rfl

/-- Once the heap is mapped, a request that fits keeps the invariant. -/
theorem HeapOk.handed_carve {m : Memory} {blocks : List Block} {len k : ℕ} (h : HeapOk m blocks)
    (hinit : m.heapNext ≠ 0) (hk : k ≤ 12) (hfits : HeapFits m len (2 ^ k)) :
    Handed len (2 ^ k) blocks (heapCarve len (2 ^ k) m) := by
  obtain ⟨hbelow, htop⟩ := hfits
  obtain ⟨r, hr, -, hbase, hlow, -⟩ := h.arena hinit
  have hpages := (h.recorded.pages r hr).2.1
  have hle := le_roundUp m.heapNext (Nat.two_pow_pos k)
  rw [heapCarve_apply, maskUp_eq_roundUp (by omega) (by omega), add64_of_lt hbelow]
  by_cases hroom : roundUp m.heapNext (2 ^ k) + len > m.heapEnd
  · rw [if_pos hroom]
    refine h.handed_extend hk ?_ (htop hroom)
    simp only [kPageSize] at hpages
    omega
  · rw [if_neg hroom]
    exact h.handed_take hinit hle (dvd_roundUp _ _) (not_lt.mp hroom)

/-- One call that fits keeps the invariant, and so does a heap that cannot be mapped. -/
theorem HeapOk.handed {m : Memory} {blocks : List Block} {len k : ℕ} (h : HeapOk m blocks)
    (hk : k ≤ 12) (hfits : HeapFits (final (heapInit m)) len (2 ^ k)) :
    Handed len (2 ^ k) blocks (heapAlloc len (2 ^ k) m) := by
  rw [heapAlloc]
  rcases heapInit_cases m with ⟨hinit, heq⟩ | ⟨hok, heq⟩ | ⟨err, heq⟩
  · rw [heq] at hfits
    rw [bind_ok heq]
    exact h.handed_carve hinit hk hfits
  · rw [heq] at hfits
    rw [bind_ok heq]
    exact (h.openArena hok rfl (by decide) _).handed_carve kHeapBase_ne_zero hk hfits
  · rw [bind_error heq]
    exact h

/-- From the initial state the first request maps the heap. -/
theorem heapInit_init (abi : Abi) (lowLibBase tight : Bool) :
    heapInit (init abi lowLibBase tight) =
      .ok () ((init abi lowLibBase tight).openArena heapRegion kMmapBase) := by
  have hok : (init abi lowLibBase tight).engine.Mappable kHeapBase kHeapSize := by
    refine Engine.mappable_of_not_mapped (by decide) (by decide) (by decide) (by decide) ?_
    simp [init, Engine.fresh, Engine.Mapped]
  exact heapInit_of_mappable rfl hok

theorem heapAlloc_init (abi : Abi) (lowLibBase tight : Bool) (len align : ℕ) :
    heapAlloc len align (init abi lowLibBase tight) =
      heapCarve len align ((init abi lowLibBase tight).openArena heapRegion kMmapBase) :=
  bind_ok (heapInit_init abi lowLibBase tight)

/-! ## Whole runs -/

theorem heapOk_init (abi : Abi) (lowLibBase : Bool) : HeapOk (init abi lowLibBase false) [] where
  placed := by simp
  disjoint := List.Pairwise.nil
  recorded := ⟨tracked_init abi lowLibBase false, by simp [init]⟩
  loose := rfl
  arena h := (h rfl).elim
  unused h := (h rfl).elim

/-- A heap request that returns is recorded with the pointer it returned. -/
theorem record_heapAlloc {s : Memory × List Block} {len align p : ℕ} {m : Memory}
    (h : heapAlloc len align s.1 = .ok p m) :
    Memory.record s (.heapAlloc len align) =
      (m, if p = 0 then s.2 else s.2 ++ [⟨p, len, align⟩]) := by
  simp only [Memory.record, Call.run, h]

/-- One step: a call that fits keeps the invariant of the recorded blocks. -/
theorem HeapOk.record {s : Memory × List Block} {call : Call} (h : HeapOk s.1 s.2)
    (hfits : call.Fits s.1) : HeapOk (record s call).1 (record s call).2 := by
  by_cases hplain : call.plain
  · have hgrown := h.grow (call.run_moves primitive_grows hplain s.1)
    cases call with
    | heapAlloc len align => cases hplain
    | _ => exact hgrown
  · cases call with
    | heapAlloc len align =>
      obtain ⟨⟨k, hk, rfl⟩, hfits⟩ := hfits
      have hhanded := h.handed hk hfits
      cases hrun : heapAlloc len (2 ^ k) s.1 with
      | ok p m =>
        rw [record_heapAlloc hrun]
        rwa [hrun] at hhanded
      | error err m =>
        simp only [Memory.record, Call.run, hrun]
        rwa [hrun] at hhanded
    | protect addr len prot => exact hfits.elim
    | _ => exact (hplain rfl).elim

/-- Recording a call leaves the state that the call leaves. -/
theorem record_fst (s : Memory × List Block) (call : Call) :
    (record s call).1 = final (call.run s.1) := by
  unfold record
  split
  · rename_i hrun
    rw [hrun]
    rfl
  · rfl

/-- A run whose calls all fit keeps the invariant. -/
theorem HeapOk.foldl_record {s : Memory × List Block} (h : HeapOk s.1 s.2) {calls : List Call}
    (hfits : AllFit s.1 calls) :
    HeapOk (calls.foldl Memory.record s).1 (calls.foldl Memory.record s).2 := by
  induction calls generalizing s with
  | nil => exact h
  | cons call calls ih =>
    refine ih (h.record hfits.1) ?_
    rw [record_fst]
    exact hfits.2

/-- In every run whose heap requests all fit below `2 ^ 64`, interleaved with any other
allocations, every block handed out is aligned, does not wrap, lies in one mapped read-write region
and is disjoint from all earlier blocks. -/
theorem recordCalls_blocksOk (abi : Abi) (lowLibBase : Bool) (calls : List Call)
    (hfits : AllFit (init abi lowLibBase false) calls) :
    BlocksOk (recordCalls (init abi lowLibBase false) calls).1
      (recordCalls (init abi lowLibBase false) calls).2 :=
  ((heapOk_init abi lowLibBase).foldl_record (s := (_, [])) hfits).toBlocksOk

/-- Two requests around another allocation make a run that fits. -/
theorem recordCalls_blocksOk_two :
    let calls : List Call :=
      [.heapAlloc 24 16, .mmapAlloc 0x2000 ucProtRw "anon", .heapAlloc 100 16]
    AllFit (init .arm64 false false) calls ∧
      BlocksOk (recordCalls (init .arm64 false false) calls).1
        (recordCalls (init .arm64 false false) calls).2 := by
  intro calls
  have hfits : AllFit (init .arm64 false false) calls := by
    refine ⟨⟨⟨4, by decide, rfl⟩, ?_⟩, trivial, ⟨⟨4, by decide, rfl⟩, ?_⟩, trivial⟩
    · rw [heapInit_init]
      decide
    · simp only [Call.run, heapAlloc_init]
      decide
  exact ⟨hfits, recordCalls_blocksOk .arm64 false calls hfits⟩

/-- A length that wraps the end of the block past the test gets a block that no region holds. -/
theorem wrappingLength_not_placed :
    ¬ BlocksOk (recordCalls (init .arm64 false false) [.heapAlloc (2 ^ 64 - 0x40000000) 16]).1
      (recordCalls (init .arm64 false false) [.heapAlloc (2 ^ 64 - 0x40000000) 16]).2 := by
  obtain ⟨m, hrun⟩ : ∃ m, heapAlloc (2 ^ 64 - 0x40000000) 16 (init .arm64 false false) =
      .ok 0x40000000 m := by
    have hstart : maskUp ((init .arm64 false false).openArena heapRegion kMmapBase).heapNext 16 =
        0x40000000 := by
      decide
    rw [heapAlloc_init, heapCarve_apply, hstart, if_neg (by decide)]
    exact ⟨_, rfl⟩
  have hblocks : (recordCalls (init .arm64 false false) [.heapAlloc (2 ^ 64 - 0x40000000) 16]).2 =
      [⟨0x40000000, 2 ^ 64 - 0x40000000, 16⟩] := by
    rw [recordCalls, List.foldl_cons, record_heapAlloc (s := (init .arm64 false false, [])) hrun]
    rfl
  rw [hblocks]
  intro h
  have hbelow := (h.placed _ (List.mem_singleton.mpr rfl)).below
  revert hbelow
  decide

end Vardoger.Memory
