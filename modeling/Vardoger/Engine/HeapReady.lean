import Vardoger.Engine.Heap
import Vardoger.Engine.Strings

/-!
# What the allocators hand out

The rest of the current heap arena is readable and writable in every state that the memory manager
reaches by requests that fit: heap requests whose sums do not wrap, and protection changes that
leave the arena alone. From such a state each allocator answers a request that fits with null or
with the address of as many usable bytes as were asked for.
-/

namespace Vardoger

open Stateful Words

namespace Engine

/-- An address in a page that may be read and written. -/
def Rw (e : Engine) (x : ℕ) : Prop :=
  ∃ p, e.prot (x / kPageSize) = some p ∧ p &&& ucProtRw = ucProtRw

/-- Every byte of a range may be read and written. -/
def Lends (e : Engine) (addr n : ℕ) : Prop := ∀ x, addr ≤ x → x < addr + n → e.Rw x

variable {e : Engine} {addr size perms x : ℕ}

theorem Rw.mapped (h : e.Rw x) : e.Mapped x := by
  obtain ⟨p, hp, -⟩ := h
  simp only [Mapped, hp, Option.isSome_some]

/-- Setting a protection with both rights makes the range usable. -/
theorem rw_setProt (haddr : addr % kPageSize = 0) (hsize : size % kPageSize = 0)
    (hperms : perms &&& ucProtRw = ucProtRw) (hx : addr ≤ x ∧ x < addr + size) :
    (e.setProt addr size (some perms)).Rw x := by
  refine ⟨perms, if_pos ?_, hperms⟩
  simp only [kPageSize] at *
  omega

/-- Setting a protection affects its range only. -/
theorem Rw.setProt (h : e.Rw x) (haddr : addr % kPageSize = 0) (hsize : size % kPageSize = 0)
    (hx : ¬(addr ≤ x ∧ x < addr + size)) (perms : Option ℕ) : (e.setProt addr size perms).Rw x := by
  obtain ⟨p, hp, hbits⟩ := h
  refine ⟨p, ?_, hbits⟩
  simp only [Engine.setProt]
  rw [if_neg, hp]
  simp only [kPageSize] at *
  omega

/-- A new mapping leaves the pages that exist alone. -/
theorem Rw.mapPages (h : e.Rw x) (hok : e.Mappable addr size) (perms : ℕ) :
    (e.mapPages addr size perms).Rw x :=
  h.setProt hok.2.1 hok.2.2.1 (fun hx => hok.not_mapped hx h.mapped) _

end Engine

namespace Memory

variable {m m' : Memory} {len align n p : ℕ}

/-! ## The invariant -/

/-- The rest of the current arena is usable. -/
def HeapReady (m : Memory) : Prop :=
  m.heapNext ≠ 0 → 4096 ≤ m.heapNext ∧ m.heapEnd % 4096 = 0 ∧ m.heapEnd < 2 ^ 64 ∧
    ∀ x, m.heapNext ≤ x → x < m.heapEnd → m.engine.Rw x

/-- A step that leaves the heap cursor and keeps the usable addresses among those of a set. -/
def KeepsRw (P : ℕ → Prop) (m m' : Memory) : Prop :=
  (∀ x, P x → m.engine.Rw x → m'.engine.Rw x) ∧ m'.heapNext = m.heapNext ∧ m'.heapEnd = m.heapEnd

instance (P : ℕ → Prop) : Std.Refl (KeepsRw P) := ⟨fun _ => ⟨fun _ _ h => h, rfl, rfl⟩⟩

instance (P : ℕ → Prop) : IsTrans Memory (KeepsRw P) :=
  ⟨fun _ _ _ h h' => ⟨fun x hx hrw => h'.1 x hx (h.1 x hx hrw), h'.2.1.trans h.2.1,
    h'.2.2.trans h.2.2⟩⟩

/-- The updates of an allocation keep all usable addresses. -/
theorem keepsRw_primitive (P : ℕ → Prop) : Primitive (KeepsRw P) where
  mapRegion r m := by
    rw [mapRegion_apply]
    split
    · exact ⟨fun x _ h => h.mapPages ‹_› _, rfl, rfl⟩
    · exact refl_of (KeepsRw P) m
  onEngine f hf m := by
    unfold onEngine
    cases h : f m.engine with
    | error err => exact refl_of (KeepsRw P) m
    | ok e =>
      refine ⟨fun x _ hrw => ?_, rfl, rfl⟩
      unfold Engine.Rw at *
      rwa [← hf _ _ h] at hrw
  moveCursor f hf := moves_modify fun m => by
    obtain ⟨hengine, -, hnext, hend, -⟩ := hf m
    exact ⟨fun x _ hrw => by rwa [hengine], hnext, hend⟩

/-- The invariant depends on the usable addresses of the arena only. -/
theorem HeapReady.keep {P : ℕ → Prop} (h : HeapReady m) (hkeeps : KeepsRw P m m')
    (hP : ∀ x, m.heapNext ≤ x → x < m.heapEnd → P x) : HeapReady m' := by
  obtain ⟨hrw, hnext, hend⟩ := hkeeps
  intro hinit
  rw [hnext] at hinit ⊢
  rw [hend]
  obtain ⟨hlow, hpages, hbelow, harena⟩ := h hinit
  exact ⟨hlow, hpages, hbelow, fun x hx hx' => hrw x (hP x hx hx') (harena x hx hx')⟩

/-- A fresh read-write region serves as an arena, unless it starts at address zero. -/
theorem heapReady_openArena {r : Region} (hok : m.engine.Mappable r.base r.size)
    (hprot : r.prot = ucProtRw) (hbase : r.base ≠ 0) (mmapNext : ℕ) :
    HeapReady (m.openArena r mmapNext) := by
  obtain ⟨-, haddr, hsize, hfits, -⟩ := id hok
  intro _
  change 4096 ≤ r.base ∧ add64 r.base r.size % 4096 = 0 ∧ add64 r.base r.size < 2 ^ 64 ∧
    ∀ x, r.base ≤ x → x < add64 r.base r.size → (m.engine.mapPages r.base r.size r.prot).Rw x
  have hend : add64 r.base r.size ≤ r.base + r.size := Nat.mod_le _ _
  refine ⟨?_, ?_, add64_lt _ _, fun x hx hx' => ?_⟩
  · simp only [kPageSize] at haddr
    omega
  · simp only [kPageSize] at haddr hsize
    unfold add64
    omega
  · refine Engine.rw_setProt haddr hsize ?_ ⟨hx, by omega⟩
    rw [hprot]
    decide

/-! ## The heap -/

/-- The block would not end inside the current arena. -/
def NoRoom (m : Memory) (len align : ℕ) : Prop := m.heapEnd < roundUp m.heapNext align + len

/-- Where the block would start is an address of the guest. -/
def Low (m : Memory) (len align : ℕ) : Prop :=
  roundUp m.heapNext align < 2 ^ m.engine.abi.bits ∧ nextArena m len < 2 ^ m.engine.abi.bits

instance : Decidable (NoRoom m len align) := inferInstanceAs (Decidable (_ < _))

instance : Decidable (Low m len align) := inferInstanceAs (Decidable (_ ∧ _))

/-- What a request for `len` bytes finds once the heap is mapped: a block, no free range for a
further arena, or an arena in a place where no block can be taken from it. -/
inductive Carved (m : Memory) (len align : ℕ) : EStateM.Result Failure Memory ℕ → Prop
  | block {p : ℕ} {m' : Memory} : p ≠ 0 → HeapReady m' → m'.engine.abi = m.engine.abi →
      p < 2 ^ m.engine.abi.bits → m'.engine.Lends p len → Carved m len align (.ok p m')
  | full : NoRoom m len align → ¬ArenaFree m len → Carved m len align (.ok 0 m)
  | lost {m' : Memory} : NoRoom m len align → ArenaFree m len →
      (nextArena m len = 0 ∨ nextArena m len + arenaSize len = 2 ^ 64) → HeapReady m' →
      m'.engine.abi = m.engine.abi → Carved m len align (.ok 0 m')

/-- The cursor is moved behind the block: an arena leaves room for the rounding and the gap. -/
theorem heapTake_eq (hend : m.heapEnd % 4096 = 0) (hbelow : m.heapEnd < 2 ^ 64)
    (hfits : p + len ≤ m.heapEnd) :
    ∃ next, p + len ≤ next ∧ heapTake p len m = .ok p { m with heapNext := next } := by
  refine ⟨_, ?_, rfl⟩
  have hround : maskDown (len + 0x1f) 0x20 = (len + 31) / 32 * 32 :=
    maskDown_two_pow (k := 5) (by decide) (by omega)
  split
  · rw [add64_of_lt (by omega)]
  · rw [add64_of_lt (a := len) (by omega), hround, add64_of_lt (a := p) (by omega),
      add64_of_lt (by omega)]
    omega

/-- Advancing the cursor over a block that fits into the arena keeps the rest usable. -/
theorem HeapReady.take (len : ℕ) (h : HeapReady m) (hinit : m.heapNext ≠ 0) (hp : m.heapNext ≤ p)
    (hfits : p + len ≤ m.heapEnd) :
    ∃ m', heapTake p len m = .ok p m' ∧ HeapReady m' ∧ m'.engine = m.engine ∧
      m.engine.Lends p len := by
  obtain ⟨hlow, hpages, hbelow, harena⟩ := h hinit
  obtain ⟨next, hle, htake⟩ := heapTake_eq hpages hbelow hfits
  refine ⟨_, htake, fun _ => ?_, rfl, fun x hx hx' => harena x (by omega) (by omega)⟩
  dsimp only
  exact ⟨by omega, hpages, hbelow, fun x hx hx' => harena x (by omega) hx'⟩

/-- Without room the block starts the next arena, if this can be used. -/
theorem HeapReady.extend {k : ℕ} (h : HeapReady m) (hk : k ≤ 12) (hlen : len + 4096 ≤ 2 ^ 64)
    (hfull : NoRoom m len (2 ^ k)) (htop : nextArena m len + len ≠ 2 ^ 64)
    (hlow : Low m len (2 ^ k)) : Carved m len (2 ^ k) (heapExtend len (2 ^ k) m) := by
  by_cases hfree : ArenaFree m len
  · by_cases hnull : nextArena m len = 0
    · rw [heapExtend_null hlen hfree hnull]
      refine .lost hfull hfree (.inl hnull)
        (h.keep (P := fun _ => True) ?_ fun _ _ _ => trivial) rfl
      exact ⟨fun x _ hrw => hrw.mapPages hfree.2 _, rfl, rfl⟩
    · have hopen := heapReady_openArena (r := m.arenaRegion len) hfree.2 rfl hnull
        (add64 (nextArena m len) (arenaSize len))
      have hroom := (arenaSize_spec hlen).1
      have hbelow := hfree.2.2.2.2.1
      rw [heapExtend_free hk hlen hfree hnull]
      split
      · refine .lost hfull hfree (.inr ?_) hopen rfl
        unfold add64 at *
        omega
      · obtain ⟨m', htake, hready, hengine, hlends⟩ := hopen.take len hnull (le_refl _) (by
          change nextArena m len + len ≤ add64 (nextArena m len) (arenaSize len)
          unfold add64 at *
          omega)
        rw [← hengine] at hlends
        have habi : m'.engine.abi = m.engine.abi := by
          rw [hengine]
          rfl
        exact htake ▸ .block hnull hready habi hlow.2 hlends
  · rw [heapExtend_full hlen hfree]
    exact .full hfull hfree

/-- Once the heap is mapped, a request that fits finds one of the three. -/
theorem HeapReady.carve {k : ℕ} (h : HeapReady m) (hinit : m.heapNext ≠ 0) (hk : k ≤ 12)
    (hfits : HeapFits m len (2 ^ k)) (hlow : Low m len (2 ^ k)) :
    Carved m len (2 ^ k) (heapCarve len (2 ^ k) m) := by
  obtain ⟨hbelow, htop⟩ := hfits
  have hle := le_roundUp m.heapNext (Nat.two_pow_pos k)
  have hstart := (h hinit).1
  rw [heapCarve_apply, maskUp_eq_roundUp (by omega) (by omega), add64_of_lt hbelow]
  by_cases hroom : roundUp m.heapNext (2 ^ k) + len > m.heapEnd
  · rw [if_pos hroom]
    exact h.extend hk (by omega) hroom (htop hroom) hlow
  · rw [if_neg hroom]
    obtain ⟨m', htake, hready, hengine, hlends⟩ := h.take len hinit hle (not_lt.mp hroom)
    rw [← hengine] at hlends
    exact htake ▸ .block (by omega) hready (by rw [hengine]) hlow.1 hlends

/-- The memory once the heap is mapped. -/
def heapMapped (m : Memory) : Memory :=
  if m.heapNext = 0 then m.openArena heapRegion m.mmapNext else m

/-- The heap is mapped, or its range is free. -/
def HeapUsable (m : Memory) : Prop :=
  m.heapNext = 0 → m.engine.Mappable kHeapBase kHeapSize

instance : Decidable (HeapUsable m) := inferInstanceAs (Decidable (_ → _))

/-- A usable heap gets mapped, and the block is then carved from it. -/
theorem heapAlloc_eq (husable : HeapUsable m) (len align : ℕ) :
    heapAlloc len align m = heapCarve len align m.heapMapped := by
  unfold heapMapped
  by_cases hinit : m.heapNext = 0
  · rw [if_pos hinit]
    exact bind_ok (heapInit_of_mappable hinit (husable hinit))
  · have hmapped : heapInit m = .ok () m := by
      rw [heapInit, get_bind, if_neg hinit]
      rfl
    rw [if_neg hinit]
    exact bind_ok hmapped

theorem HeapReady.mapped (h : HeapReady m) (husable : HeapUsable m) :
    HeapReady m.heapMapped ∧ m.heapMapped.heapNext ≠ 0 ∧
      m.heapMapped.engine.abi = m.engine.abi := by
  unfold heapMapped
  split
  · exact ⟨heapReady_openArena (husable ‹_›) rfl kHeapBase_ne_zero _, kHeapBase_ne_zero, rfl⟩
  · exact ⟨h, ‹_›, rfl⟩

/-- A heap request that can be answered: the heap can be mapped, and the block fits. -/
def HeapServes (m : Memory) (len align : ℕ) : Prop :=
  HeapUsable m ∧ HeapFits m.heapMapped len align ∧ Low m.heapMapped len align

instance : Decidable (HeapServes m len align) := inferInstanceAs (Decidable (_ ∧ _))

theorem HeapReady.carved {k : ℕ} (h : HeapReady m) (hk : k ≤ 12)
    (hserves : HeapServes m len (2 ^ k)) :
    Carved m.heapMapped len (2 ^ k) (heapAlloc len (2 ^ k) m) := by
  obtain ⟨husable, hfits, hlow⟩ := hserves
  obtain ⟨hready, hinit, -⟩ := h.mapped husable
  rw [heapAlloc_eq husable]
  exact hready.carve hinit hk hfits hlow

/-! ## The allocators -/

/-- The allocator returned: null, or the address of `n` usable bytes. -/
def Hands (m : Memory) (n : ℕ) : EStateM.Result Failure Memory ℕ → Prop
  | .ok p m' => HeapReady m' ∧ m'.engine.abi = m.engine.abi ∧ p < 2 ^ m.engine.abi.bits ∧
      (p = 0 ∨ m'.engine.Lends p n)
  | .error _ _ => False

/-- A heap request that fits is answered, possibly with null. -/
theorem HeapReady.heapAlloc_hands {k : ℕ} (h : HeapReady m) (hk : k ≤ 12)
    (hserves : HeapServes m len (2 ^ k)) : Hands m len (heapAlloc len (2 ^ k) m) := by
  obtain ⟨hready, -, habi⟩ := h.mapped hserves.1
  have hcarved := h.carved hk hserves
  generalize heapAlloc len (2 ^ k) m = result at hcarved
  cases hcarved with
  | block _ hready' habi' hlow hlends =>
    rw [habi] at habi' hlow
    exact ⟨hready', habi', hlow, .inr hlends⟩
  | full => exact ⟨hready, habi, Nat.two_pow_pos _, .inl rfl⟩
  | lost _ _ _ hready' habi' => exact ⟨hready', habi'.trans habi, Nat.two_pow_pos _, .inl rfl⟩

/-- The size of the mapping for a request. -/
def mapSize (len : ℕ) : ℕ := pageAlignUp (if len = 0 then 1 else len)

/-- Where `mmap_alloc` would map a request. -/
def mmapGap (m : Memory) (len : ℕ) : ℕ := skipClashes m.regions (mapSize len) 4096 m.mmapNext

/-- The request is not absurd and its range is free. -/
def MmapFits (m : Memory) (len : ℕ) : Prop :=
  len ≤ 2 ^ 32 ∧ m.engine.Mappable (mmapGap m len) (mapSize len) ∧
    mmapGap m len < 2 ^ m.engine.abi.bits

/-- The range of a dedicated region is free, in its own area or among the mappings. -/
def BigFits (m : Memory) (len : ℕ) : Prop :=
  if add64 m.bigNext (mapSize len) > kMmapBase then MmapFits m len
  else m.engine.Mappable m.bigNext (mapSize len) ∧ m.bigNext < 2 ^ m.engine.abi.bits

instance : Decidable (MmapFits m len) := inferInstanceAs (Decidable (_ ∧ _ ∧ _))

instance : Decidable (BigFits m len) := inferInstanceAs (Decidable (ite _ _ _))

/-- A size that can be mapped at all is not below the request. -/
theorem le_mapSize (hlen : len < 2 ^ 64) (hpos : 0 < mapSize len) : len ≤ mapSize len := by
  by_cases hsmall : len + 4095 < 2 ^ 64
  · unfold mapSize
    split
    · omega
    · rw [pageAlignUp_eq hsmall]
      omega
  · -- the rounding wraps to zero
    have hzero : mapSize len = 0 := by
      have hle : mapSize len ≤ len + 4095 - 2 ^ 64 := by
        have hwrap : add64 len 4095 = len + 4095 - 2 ^ 64 :=
          add64_of_le hlen (by decide) (not_lt.mp hsmall)
        rw [← hwrap, mapSize, if_neg (by omega)]
        exact maskDown_le _ _
      have hmod : mapSize len % 4096 = 0 := pageAlignUp_mod _
      omega
    omega

/-- A mapping of a request lends the requested bytes. -/
theorem hands_addRegion {r : Region} (h : HeapReady m) (hlen : len < 2 ^ 64)
    (hsize : r.size = mapSize len) (hok : m.engine.Mappable r.base r.size)
    (hlow : r.base < 2 ^ m.engine.abi.bits) (hprot : r.prot &&& ucProtRw = ucProtRw)
    (hengine : m'.engine = (m.addRegion r).engine) (hnext : m'.heapNext = m.heapNext)
    (hend : m'.heapEnd = m.heapEnd) : Hands m len (.ok r.base m') := by
  obtain ⟨hpos, haddr, hpages, -⟩ := id hok
  have hroom := le_mapSize hlen (hsize ▸ hpos)
  refine ⟨h.keep (P := fun _ => True) ⟨fun x _ hrw => ?_, hnext, hend⟩ fun _ _ _ => trivial, ?_,
    hlow, .inr fun x hx hx' => ?_⟩
  · rw [hengine]
    exact hrw.mapPages hok _
  · rw [hengine]
    rfl
  · rw [hengine]
    exact Engine.rw_setProt haddr hpages hprot ⟨hx, by omega⟩

theorem HeapReady.mmapAlloc_hands {prot : ℕ} (label : String) (h : HeapReady m)
    (hprot : prot &&& ucProtRw = ucProtRw) (hfits : MmapFits m len) :
    Hands m len (mmapAlloc len prot label m) := by
  obtain ⟨hlen, hok, hlow⟩ := hfits
  obtain ⟨base, size, hsize, hbase, hcases⟩ := mmapAlloc_cases len prot label m
  obtain rfl : size = mapSize len := hsize
  obtain rfl : base = mmapGap m len := hbase
  rcases hcases with ⟨hnot, -⟩ | ⟨-, -, hmap⟩
  · exact absurd ⟨hlen, hok⟩ hnot
  · rw [hmap]
    exact hands_addRegion (r := ⟨mmapGap m len, mapSize len, prot, .mmap, label⟩) h (by omega) rfl
      hok hlow hprot rfl rfl rfl

/-- Without room in its own area a large request is an ordinary mapping. -/
theorem bigAlloc_over {prot : ℕ} {label : String}
    (hover : add64 m.bigNext (mapSize len) > kMmapBase) :
    bigAlloc len prot label m = mmapAlloc len prot label m := by
  rw [bigAlloc_apply len prot label m rfl]
  exact if_pos hover

/-- With room it is mapped at the cursor of that area. -/
theorem bigAlloc_of_mappable {prot : ℕ} {label : String}
    (hroom : ¬add64 m.bigNext (mapSize len) > kMmapBase)
    (hok : m.engine.Mappable m.bigNext (mapSize len)) :
    bigAlloc len prot label m = .ok m.bigNext
      { m.addRegion ⟨m.bigNext, mapSize len, prot, .mmap, label⟩ with
        bigNext := add64 m.bigNext (mapSize len) } := by
  rw [bigAlloc_apply len prot label m rfl]
  exact (if_neg hroom).trans (if_pos hok)

theorem HeapReady.bigAlloc_hands (label : String) (h : HeapReady m) (hlen : len < 2 ^ 64)
    (hfits : BigFits m len) : Hands m len (bigAlloc len ucProtRw label m) := by
  unfold BigFits at hfits
  by_cases hover : add64 m.bigNext (mapSize len) > kMmapBase
  · rw [if_pos hover] at hfits
    rw [bigAlloc_over hover]
    exact h.mmapAlloc_hands label (by decide) hfits
  · rw [if_neg hover] at hfits
    obtain ⟨hok, hlow⟩ := hfits
    rw [bigAlloc_of_mappable hover hok]
    exact hands_addRegion (r := ⟨m.bigNext, mapSize len, ucProtRw, .mmap, label⟩) h hlen rfl hok
      hlow (Nat.and_self _) rfl rfl rfl

/-- Fewer bytes are lent as well. -/
theorem Hands.mono {result : EStateM.Result Failure Memory ℕ} (h : Hands m len result)
    (hle : n ≤ len) : Hands m n result := by
  cases result with
  | error err m' => exact h
  | ok p m' =>
    obtain ⟨hready, habi, hlow, hlends⟩ := h
    refine ⟨hready, habi, hlow, hlends.imp_right fun hlends x hx hx' => ?_⟩
    exact hlends x hx (by omega)

/-! ## The other calls of the runtime -/

variable {addr prot : ℕ}

/-- The page range of a protection change. -/
def protectBase (addr : ℕ) : ℕ := pageAlignDown addr

def protectSize (addr len : ℕ) : ℕ := sub64 (pageAlignUp (add64 addr len)) (protectBase addr)

/-- A change that keeps both rights, or stays off the rest of the current arena. -/
def ProtectFits (m : Memory) (addr len prot : ℕ) : Prop :=
  prot &&& ucProtRw = ucProtRw ∨ protectBase addr + protectSize addr len ≤ m.heapNext ∨
    m.heapEnd ≤ protectBase addr

/-- The addresses whose rights a protection change keeps. -/
def Spared (addr len prot x : ℕ) : Prop :=
  prot &&& ucProtRw = ucProtRw ∨
    ¬(protectBase addr ≤ x ∧ x < protectBase addr + protectSize addr len)

theorem rw_protect {e e' : Engine} {base size x : ℕ} (h : e.protect base size prot = .ok e')
    (hrw : e.Rw x) (hx : prot &&& ucProtRw = ucProtRw ∨ ¬(base ≤ x ∧ x < base + size)) :
    e'.Rw x := by
  unfold Engine.protect at h
  split at h
  · rwa [← Except.ok.inj h]
  · split at h
    · obtain ⟨haddr, hsize, -⟩ := ‹e.FullyMapped base size›
      rw [← Except.ok.inj h]
      by_cases hin : base ≤ x ∧ x < base + size
      · exact Engine.rw_setProt haddr hsize (hx.resolve_right (not_not.mpr hin)) hin
      · exact hrw.setProt haddr hsize hin _
    · cases h

theorem protectBase_mod (addr : ℕ) : protectBase addr % 4096 = 0 :=
  Nat.mod_eq_zero_of_dvd (maskDown_dvd addr (k := 12) (by decide))

theorem protectSize_mod (addr len : ℕ) : protectSize addr len % 4096 = 0 := by
  have hbase := protectBase_mod addr
  have hstop := pageAlignUp_mod (add64 addr len)
  unfold protectSize sub64
  omega

/-- The pages visited lie inside the range. -/
theorem within_of_mem_pagesOf {p : ℕ} (hp : p ∈ pagesOf (protectBase addr) (protectSize addr len)) :
    protectBase addr ≤ p ∧ p + 0x1000 ≤ protectBase addr + protectSize addr len := by
  obtain ⟨i, hi, rfl⟩ := List.mem_map.mp hp
  have hlt := List.mem_range.mp hi
  have hbase := protectBase_mod addr
  have hsize := protectSize_mod addr len
  unfold add64 at hlt
  omega

theorem onEngine_protect_moves {P : ℕ → Prop} {base size : ℕ}
    (hP : ∀ x, P x → prot &&& ucProtRw = ucProtRw ∨ ¬(base ≤ x ∧ x < base + size)) :
    Moves (KeepsRw P) (onEngine (·.protect base size prot)) := by
  intro m
  simp only [onEngine]
  cases h : m.engine.protect base size prot with
  | error err => exact refl_of (KeepsRw P) m
  | ok e => exact ⟨fun x hx hrw => rw_protect h hrw (hP x hx), rfl, rfl⟩

/-- A protection change keeps the rights of the addresses it spares. -/
theorem protect_moves (addr len prot : ℕ) :
    Moves (KeepsRw (Spared addr len prot)) (protect addr len prot) := by
  have hmark (base size : ℕ) : Moves (KeepsRw (Spared addr len prot)) (modify fun m : Memory =>
      { m with regions := markProt base size prot m.regions } : MemM Unit) :=
    moves_modify fun m => ⟨fun _ _ h => h, rfl, rfl⟩
  refine moves_bind moves_get fun m => moves_ite ?_ ?_
  · exact moves_bind (onEngine_protect_moves fun x hx => hx) fun _ => hmark _ _
  · refine moves_bind (moves_forM fun p hp => ?_) fun _ => hmark _ _
    refine moves_bind moves_get fun m => moves_ite (onEngine_protect_moves fun x hx => ?_) ?_
    · have hwithin := within_of_mem_pagesOf hp
      exact hx.imp_right fun hout hin => hout ⟨by omega, by omega⟩
    · exact moves_bind (mapFixed_moves (keepsRw_primitive _).toMapping _ _ _ _ _)
        fun _ => moves_pure _

/-- The calls that leave the heap in order: a heap request of an alignment up to the page size that
fits, a protection change that fits, and every other call. -/
def Call.Orderly (m : Memory) : Call → Prop
  | .heapAlloc len align => (∃ k ≤ 12, align = 2 ^ k) ∧ HeapServes m len align
  | .protect addr len prot => ProtectFits m addr len prot
  | _ => True

theorem HeapReady.call {call : Call} (h : HeapReady m) (horderly : call.Orderly m) :
    HeapReady (final (call.run m)) := by
  by_cases hplain : call.plain
  · exact h.keep (call.run_moves (keepsRw_primitive fun _ => True) hplain m) fun _ _ _ => trivial
  · cases call with
    | heapAlloc len align =>
      obtain ⟨⟨k, hk, rfl⟩, hserves⟩ := horderly
      have hhands := h.heapAlloc_hands hk hserves
      change HeapReady (final (heapAlloc len (2 ^ k) m))
      cases hrun : heapAlloc len (2 ^ k) m with
      | ok p m' =>
        rw [hrun] at hhands
        exact hhands.1
      | error err m' =>
        rw [hrun] at hhands
        exact hhands.elim
    | protect addr len prot =>
      refine h.keep (moves_bind (protect_moves addr len prot) (fun _ => moves_pure 0) m) ?_
      intro x hx hx'
      exact horderly.imp_right fun hout hin => by omega
    | _ => exact (hplain rfl).elim

end Memory

end Vardoger
