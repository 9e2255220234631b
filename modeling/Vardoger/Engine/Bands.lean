import Vardoger.Base.Runs
import Vardoger.Base.TwoRuns
import Vardoger.Engine.Heap
import Vardoger.Engine.Placement

/-!
# Large allocations beside the other ones

Large allocations have an area of their own below that of mappings. Leaving them out of a sequence
of allocations therefore changes no other result, as long as the mmap cursor stays in its area. It
leaves the area when a mapping ends at the top of the address space, where the cursor becomes 0.
-/

namespace Vardoger.Memory

open Intervals Stateful Words Runs FirstFit

variable {m m' : Memory} {len prot size base : ℕ} {label : String}

/-! ## The statement -/

def Call.isBig : Call → Bool
  | .bigAlloc .. => true
  | _ => false

/-- The calls of a sequence, each with what it returned or threw. -/
def results (m : Memory) : List Call → List (Call × Except Failure ℕ)
  | [] => []
  | c :: calls => (c, outcome (c.run m)) :: results (final (c.run m)) calls

/-- The results of all calls but the large allocations are those of the sequence without these. -/
def Undisturbed (m : Memory) (calls : List Call) : Prop :=
  (results m calls).filter (fun entry => !entry.1.isBig) =
    results m (calls.filter fun c => !c.isBig)

/-- An allocation of one of three kinds; a large one fits below the area of mappings. -/
def Fitting (m : Memory) : Call → Prop
  | .mmapAlloc .. | .heapAlloc .. => True
  | .bigAlloc len _ _ => m.bigNext + fitSize len ≤ kMmapBase
  | _ => False

/-- The last address is not mapped before the call. -/
def BelowTopAddress (m : Memory) : Call → Prop := fun _ => ¬m.engine.Mapped topAddress

instance (m : Memory) : (c : Call) → Decidable (Fitting m c)
  | .mmapAlloc .. | .heapAlloc .. => isTrue trivial
  | .bigAlloc len _ _ => inferInstanceAs (Decidable (m.bigNext + fitSize len ≤ kMmapBase))
  | .mapFixed .. | .mapLib .. | .setupStack .. | .setupTls | .javaAlloc .. | .protect .. =>
      isFalse False.elim

instance (m : Memory) (c : Call) : Decidable (BelowTopAddress m c) :=
  inferInstanceAs (Decidable (¬_))

/-! ## Two memories side by side -/

/-- Regions that end above the start of the mmap area. -/
def upper (regions : List Region) : List Region := regions.filter fun r => kMmapBase < r.limit

/-- The first memory has more large allocations than the second one, and otherwise they agree on
what the allocators look at. -/
structure Beside (m m' : Memory) : Prop where
  tracked : Tracked m
  tracked' : Tracked m'
  cursors : CursorsOk m
  mapped : ∀ a, a < kBigMallocBase ∨ kMmapBase ≤ a → (m.engine.Mapped a ↔ m'.engine.Mapped a)
  regions : upper m.regions = upper m'.regions
  mmapNext : m.mmapNext = m'.mmapNext
  heapNext : m.heapNext = m'.heapNext
  heapEnd : m.heapEnd = m'.heapEnd
  tight : m.tight = m'.tight

/-- The same, with the last address not mapped. -/
def BesideBelow (m m' : Memory) : Prop := Beside m m' ∧ ¬m.engine.Mapped topAddress

theorem BesideBelow.bands (h : BesideBelow m m') :
    kMmapBase ≤ m.mmapNext ∧ kBigMallocBase ≤ m.bigNext :=
  h.1.cursors.bands.resolve_left h.2

/-- A range outside of the area of large allocations is free in both memories or in none. -/
theorem Beside.mappable_iff (h : Beside m m')
    (hout : base + size ≤ kBigMallocBase ∨ kMmapBase ≤ base) :
    m.engine.Mappable base size ↔ m'.engine.Mappable base size := by
  have hiff : ∀ a, base ≤ a → a < base + size → (m.engine.Mapped a ↔ m'.engine.Mapped a) :=
    fun a hlow hhigh => h.mapped a (by omega)
  constructor
  · intro hok
    obtain ⟨hpos, hbase, hsize, hfits, -⟩ := id hok
    refine Engine.mappable_of_not_mapped hpos hbase hsize hfits fun a hlow hhigh hmapped => ?_
    exact hok.not_mapped ⟨hlow, hhigh⟩ ((hiff a hlow hhigh).mpr hmapped)
  · intro hok
    obtain ⟨hpos, hbase, hsize, hfits, -⟩ := id hok
    refine Engine.mappable_of_not_mapped hpos hbase hsize hfits fun a hlow hhigh hmapped => ?_
    exact hok.not_mapped ⟨hlow, hhigh⟩ ((hiff a hlow hhigh).mp hmapped)

/-- In a tracked table the bases are sorted. -/
theorem Tracked.sorted (hm : Tracked m) : m.regions.Pairwise fun a b => a.base ≤ b.base :=
  hm.separated.imp fun hab => (Nat.le_add_right _ _).trans hab

theorem upper_orderedInsert (hm : Tracked m) (r : Region) :
    upper (m.regions.orderedInsert (fun a b => a.base < b.base) r) =
      if kMmapBase < r.limit then
        (upper m.regions).orderedInsert (fun a b => a.base < b.base) r
      else upper m.regions := by
  rw [upper, filter_orderedInsert _ hm.sorted]
  simp only [decide_eq_true_eq]
  rfl

/-- The same range is mapped in both memories. -/
theorem Beside.addRegion (h : Beside m m') {r : Region} (hok : m.engine.Mappable r.base r.size)
    (hok' : m'.engine.Mappable r.base r.size) : Beside (m.addRegion r) (m'.addRegion r) where
  tracked := h.tracked.addRegion hok
  tracked' := h.tracked'.addRegion hok'
  cursors := h.cursors.of_eq rfl rfl fun a ha => (mapped_addRegion hok a).mpr (.inr ha)
  mapped := by
    intro a ha
    rw [mapped_addRegion hok, mapped_addRegion hok', h.mapped a ha]
  regions := by
    rw [Memory.addRegion, Memory.addRegion, upper_orderedInsert h.tracked,
      upper_orderedInsert h.tracked', h.regions]
  mmapNext := h.mmapNext
  heapNext := h.heapNext
  heapEnd := h.heapEnd
  tight := h.tight

/-- Moving the heap cursors in both memories. -/
theorem Beside.moveHeap (h : Beside m m') {next next' heapEnd heapEnd' : ℕ} (hnext : next = next')
    (hend : heapEnd = heapEnd') :
    Beside { m with heapNext := next, heapEnd } { m' with heapNext := next', heapEnd := heapEnd' }
    where
  tracked := h.tracked.congr rfl fun _ => Iff.rfl
  tracked' := h.tracked'.congr rfl fun _ => Iff.rfl
  cursors := ⟨h.cursors.aligned, h.cursors.small, h.cursors.bands⟩
  mapped := h.mapped
  regions := h.regions
  mmapNext := h.mmapNext
  heapNext := hnext
  heapEnd := hend
  tight := h.tight

/-! ## One call -/

/-- A large allocation in the first memory. -/
theorem Beside.bigAlloc (h : Beside m m') (hbig : kBigMallocBase ≤ m.bigNext)
    (hfits : m.bigNext + fitSize len ≤ kMmapBase) :
    Beside (final (bigAlloc len prot label m)) m' := by
  have hlen : len ≤ 2 ^ 32 := by
    have hle := le_roundUp (max len 1) (by decide : 0 < kPageSize)
    have hsize : fitSize len ≤ 2 ^ 32 := by
      rw [kMmapBase] at hfits
      omega
    rw [fitSize] at hsize
    omega
  have hsum : add64 m.bigNext (fitSize len) = m.bigNext + fitSize len := by
    apply add64_of_lt
    rw [kMmapBase] at hfits
    omega
  rw [bigAlloc_apply len prot label m (pageAlignUp_len hlen), if_neg (by omega)]
  by_cases hok : m.engine.Mappable m.bigNext (fitSize len)
  · rw [if_pos hok]
    have hmapped := mapped_addRegion (r := ⟨m.bigNext, fitSize len, prot, .mmap, label⟩) hok
    have hcursors := bigAlloc_cursorsOk len prot label m h.cursors
    rw [bigAlloc_apply len prot label m (pageAlignUp_len hlen), if_neg (by omega), if_pos hok]
      at hcursors
    refine ⟨(h.tracked.addRegion hok).congr rfl fun _ => Iff.rfl, h.tracked', hcursors, ?_, ?_,
      h.mmapNext, h.heapNext, h.heapEnd, h.tight⟩
    · intro a ha
      have hiff := hmapped a
      rw [or_iff_right (by simp only; omega)] at hiff
      exact hiff.trans (h.mapped a ha)
    · have hbelow : ¬kMmapBase < Region.limit ⟨m.bigNext, fitSize len, prot, .mmap, label⟩ := by
        simp only [Region.limit, hsum]
        omega
      rw [← h.regions]
      exact (upper_orderedInsert h.tracked _).trans (if_neg hbelow)
  · rw [if_neg hok]
    exact h

/-- The first region that clashes above the start of the mmap area is among the upper ones. -/
theorem find_clash_upper (regions : List Region) {stop : ℕ} (hbase : kMmapBase ≤ base) :
    regions.find? (Region.clashes base stop) =
      (upper regions).find? (Region.clashes base stop) := by
  rw [upper, List.find?_filter]
  congr 1
  funext r
  rw [Region.clashes]
  by_cases hlimit : base < r.limit
  · have hupper : kMmapBase < r.limit := by omega
    simp [hlimit, hupper]
  · simp [hlimit]

/-- The search goes the same way in both memories. -/
theorem Beside.skipClashes_eq (h : Beside m m') (size tries : ℕ) (hbase : kMmapBase ≤ base) :
    skipClashes m.regions size tries base = skipClashes m'.regions size tries base := by
  induction tries generalizing base with
  | zero => rfl
  | succ tries ih =>
    have hsame : m.regions.find? (Region.clashes base (add64 base size)) =
        m'.regions.find? (Region.clashes base (add64 base size)) := by
      rw [find_clash_upper m.regions hbase, find_clash_upper m'.regions hbase, h.regions]
    rw [skipClashes, skipClashes, ← hsame]
    cases hfind : m.regions.find? (Region.clashes base (add64 base size)) with
    | none => rfl
    | some r =>
      have hclash := List.find?_some hfind
      rw [Region.clashes, Bool.and_eq_true, decide_eq_true_eq] at hclash
      exact ih (hbase.trans hclash.1.le)

theorem mmapAlloc_couples (len prot : ℕ) (label : String) :
    Couples BesideBelow Beside (mmapAlloc len prot label) := by
  intro m m' h
  have hbase := h.bands.1
  have hcursors := mmapAlloc_cursorsOk len prot label m h.1.cursors
  generalize hsize : pageAlignUp (if len = 0 then 1 else len) = size
  generalize hfound : skipClashes m.regions size 4096 m.mmapNext = base
  have hup : m.mmapNext ≤ base := by
    rw [← hfound]
    exact le_skipClashes _ _ _ _
  have hfound' : skipClashes m'.regions size 4096 m'.mmapNext = base := by
    rw [← h.1.mmapNext, ← h.1.skipClashes_eq size 4096 hbase, hfound]
  have hiff : m.engine.Mappable base size ↔ m'.engine.Mappable base size :=
    h.1.mappable_iff (.inr (by omega))
  rw [mmapAlloc_apply len prot label m hsize hfound] at hcursors ⊢
  rw [mmapAlloc_apply len prot label m' hsize hfound']
  by_cases hlen : len > 2 ^ 32
  · rw [if_pos hlen, if_pos hlen]
    exact .error _ h.1
  · rw [if_neg hlen] at hcursors ⊢
    rw [if_neg hlen]
    by_cases hok : m.engine.Mappable base size
    · rw [if_pos hok] at hcursors ⊢
      rw [if_pos (hiff.mp hok)]
      have hadded := h.1.addRegion (r := ⟨base, size, prot, .mmap, label⟩) hok (hiff.mp hok)
      exact .ok _ ⟨hadded.tracked.congr rfl fun _ => Iff.rfl,
        hadded.tracked'.congr rfl fun _ => Iff.rfl, hcursors, hadded.mapped, hadded.regions, rfl,
        hadded.heapNext, hadded.heapEnd, hadded.tight⟩
    · rw [if_neg hok, if_neg fun hok' => hok (hiff.mpr hok')]
      exact .error _ h.1

theorem mapRegion_couples {r : Region} (hout : r.base + r.size ≤ kBigMallocBase) :
    Couples BesideBelow BesideBelow (mapRegion r) := by
  intro m m' h
  have hiff := h.1.mappable_iff (.inl hout)
  rw [mapRegion_apply, mapRegion_apply]
  by_cases hok : m.engine.Mappable r.base r.size
  · rw [if_pos hok, if_pos (hiff.mp hok)]
    refine .ok _ ⟨h.1.addRegion hok (hiff.mp hok), fun htop => ?_⟩
    obtain hin | hbefore := (mapped_addRegion hok _).mp htop
    · simp only [topAddress, kBigMallocBase] at *
      omega
    · exact h.2 hbefore
  · rw [if_neg hok, if_neg fun hok' => hok (hiff.mpr hok')]
    exact .error _ h

theorem heapInit_couples : Couples BesideBelow BesideBelow heapInit := by
  intro m m' h
  rw [heapInit, get_bind, get_bind, ← h.1.heapNext]
  by_cases hinit : m.heapNext = 0
  · rw [if_pos hinit]
    refine (mapRegion_couples (by decide) m m' h).bind (fun _ => ?_) fun _ _ h => h
    apply couples_modify
    intro m m' h
    exact ⟨h.1.moveHeap rfl rfl, h.2⟩
  · rw [if_neg hinit]
    exact couples_pure _ m m' h

theorem heapTake_couples (p len : ℕ) : Couples Beside Beside (heapTake p len) := by
  intro m m' h
  refine Coupled.bind (couples_modify (S := Beside) (fun m m' h => ?_) m m' h)
    (fun _ => couples_pure _) fun _ _ h => h
  exact h.moveHeap (by rw [h.tight]) h.heapEnd

theorem heapExtend_couples (len align : ℕ) :
    Couples BesideBelow Beside (heapExtend len align) := by
  intro m m' h
  have hmmap := (mmapAlloc_couples (arenaSize len) ucProtRw "heap-extent" m m' h).tryCatch
    fun _ => couples_pure 0
  refine hmmap.bind (fun ext => ?_) fun _ _ h => h
  by_cases hnull : ext = 0
  · rw [if_pos hnull]
    exact couples_pure 0
  · rw [if_neg hnull]
    intro m m' h
    refine (couples_modify (fun m m' h => h.moveHeap rfl rfl) m m' h).bind (fun _ => ?_)
      fun _ _ h => h
    by_cases hover : add64 (maskUp ext align) len > add64 ext (arenaSize len)
    · simp only [if_pos hover]
      exact couples_pure 0
    · simp only [if_neg hover]
      exact heapTake_couples _ _

theorem heapAlloc_couples (len align : ℕ) : Couples BesideBelow Beside (heapAlloc len align) := by
  intro m m' h
  refine (heapInit_couples m m' h).bind (fun _ => ?_) fun _ _ h => h.1
  intro m m' h
  rw [heapCarve_apply, heapCarve_apply, ← h.1.heapNext, ← h.1.heapEnd]
  by_cases hover : add64 (maskUp m.heapNext align) len > m.heapEnd
  · rw [if_pos hover, if_pos hover]
    exact heapExtend_couples len align m m' h
  · rw [if_neg hover, if_neg hover]
    exact heapTake_couples _ _ m m' h.1

/-! ## Sequences of calls -/

theorem results_cons (m : Memory) (c : Call) (calls : List Call) :
    results m (c :: calls) = (c, outcome (c.run m)) :: results (final (c.run m)) calls := rfl

/-- From two memories side by side, the results agree without the large allocations. -/
theorem results_beside {calls : List Call} (h : Beside m m')
    (hfits : Steps (fun m c => some (final (c.run m))) Fitting m calls)
    (htop : Steps (fun m c => some (final (c.run m))) BelowTopAddress m calls) :
    (results m calls).filter (fun entry => !entry.1.isBig) =
      results m' (calls.filter fun c => !c.isBig) := by
  induction calls generalizing m m' with
  | nil => rfl
  | cons c calls ih =>
    obtain ⟨hfit, hfits⟩ := steps_cons_some.mp hfits
    obtain ⟨hbelow, htop⟩ := steps_cons_some.mp htop
    have hbeside : BesideBelow m m' := ⟨h, hbelow⟩
    -- The two other kinds of call do the same in both memories.
    have hother (hc : c.isBig = false) (hcouples : Couples BesideBelow Beside c.run) :
        (results m (c :: calls)).filter (fun entry => !entry.1.isBig) =
          results m' ((c :: calls).filter fun c => !c.isBig) := by
      have hcoupled := hcouples m m' hbeside
      rw [results_cons, List.filter_cons_of_pos (by simp [hc]),
        List.filter_cons_of_pos (by simp [hc]),
        results_cons, hcoupled.outcome_eq, ih hcoupled.final hfits htop]
    cases c with
    | mmapAlloc len prot label => exact hother rfl (mmapAlloc_couples len prot label)
    | heapAlloc len align => exact hother rfl (heapAlloc_couples len align)
    | bigAlloc len prot label =>
      rw [results_cons, List.filter_cons_of_neg (by simp [Call.isBig]),
        List.filter_cons_of_neg (by simp [Call.isBig])]
      exact ih (h.bigAlloc hbeside.bands.2 hfit) hfits htop
    | _ => cases hfit

theorem runCalls_cons (m : Memory) (c : Call) (calls : List Call) :
    runCalls m (c :: calls) = runCalls (final (c.run m)) calls := rfl

theorem results_append (m : Memory) (calls calls' : List Call) :
    results m (calls ++ calls') = results m calls ++ results (runCalls m calls) calls' := by
  induction calls generalizing m with
  | nil => rfl
  | cons c calls ih =>
    rw [List.cons_append, results_cons, results_cons, ih, List.cons_append]
    rfl

/-- The last result of an undisturbed sequence is that of the sequence without large allocations. -/
theorem Undisturbed.last {calls : List Call} {c : Call} (h : m.Undisturbed (calls ++ [c]))
    (hc : c.isBig = false) :
    outcome (c.run (runCalls m calls)) =
      outcome (c.run (runCalls m (calls.filter fun c => !c.isBig))) := by
  rw [Undisturbed, List.filter_append, results_append, results_append, List.filter_append,
    results_cons, List.filter_cons_of_pos (by simp [hc]), List.filter_cons_of_pos (by simp [hc]),
    results_cons] at h
  have hlast := congrArg List.getLast? h
  simp only [results, List.filter_nil, List.getLast?_append, List.getLast?_singleton,
    Option.some_or, Option.some.injEq, Prod.mk.injEq, true_and] at hlast
  exact hlast

/-- Where no region lies behind the cursor, the mapping is made at the cursor. -/
theorem mmapAlloc_at_cursor (prot : ℕ) (label : String) (hm : Tracked m)
    (hbehind : ∀ r ∈ m.regions, r.base + r.size ≤ m.mmapNext)
    (haligned : m.mmapNext % kPageSize = 0) (hlen : len ≤ 2 ^ 32)
    (hfits : m.mmapNext + fitSize len ≤ 2 ^ 64) :
    m.engine.Mappable m.mmapNext (fitSize len) ∧
      mmapAlloc len prot label m = .ok m.mmapNext
        { m.addRegion ⟨m.mmapNext, fitSize len, prot, .mmap, label⟩ with
          mmapNext := add64 m.mmapNext (fitSize len) } := by
  have hsearch : skipClashes m.regions (fitSize len) 4096 m.mmapNext = m.mmapNext := by
    have hnone : m.regions.find? (Region.clashes m.mmapNext (add64 m.mmapNext (fitSize len))) =
        none := by
      apply List.find?_eq_none.mpr
      intro r hr hclash
      have hlimit := limit_of_clashes hm hr hclash
      have hends := hbehind r hr
      rw [Region.clashes, Bool.and_eq_true, decide_eq_true_eq] at hclash
      omega
    rw [skipClashes, hnone]
  have hok : m.engine.Mappable m.mmapNext (fitSize len) := by
    apply Engine.mappable_of_not_mapped (fitSize_pos len) haligned (fitSize_mod len) hfits
    intro a hlow _ hmapped
    obtain ⟨r, hr, hholds⟩ := (hm.union a).mp hmapped
    have hends := hbehind r hr
    simp only [Holds, Contains] at hholds
    omega
  rw [mmapAlloc_apply len prot label m (pageAlignUp_len hlen) hsearch, if_neg (by omega),
    if_pos hok]
  exact ⟨hok, rfl⟩

/-- A state that calls reach, with the cursor at `c` and the addresses `P` mapped. -/
structure Layout (m : Memory) (P : ℕ → Prop) (c : ℕ) : Prop where
  reachable : Reachable m
  cursor : m.mmapNext = c
  mapped : ∀ a, m.engine.Mapped a ↔ P a

section Layout

variable {P Q : ℕ → Prop} {c n : ℕ}

theorem Layout.congr (h : Layout m P c) (hP : ∀ a, P a ↔ Q a) : Layout m Q c :=
  ⟨h.reachable, h.cursor, fun a => (h.mapped a).trans (hP a)⟩

/-- A mapping behind all others. -/
theorem Layout.mmapAlloc (prot : ℕ) (label : String) (h : Layout m P c) (hP : ∀ a, P a → a < c)
    (hlen : len ≤ 2 ^ 32) (hfits : c + fitSize len ≤ 2 ^ 64) :
    Layout (final (Call.run (.mmapAlloc len prot label) m))
      (fun a => P a ∨ (c ≤ a ∧ a < c + fitSize len)) ((c + fitSize len) % 2 ^ 64) := by
  have hm := h.reachable.tracked
  have hcursor := h.cursor
  have hbehind : ∀ r ∈ m.regions, r.base + r.size ≤ m.mmapNext := by
    intro r hr
    have hpos := (hm.pages r hr).1
    have hlast : m.engine.Mapped (r.base + r.size - 1) :=
      (hm.union _).mpr ⟨r, hr, by simp only [Holds, Contains]; omega⟩
    have hbelow := hP _ ((h.mapped _).mp hlast)
    omega
  obtain ⟨hok, hrun⟩ := mmapAlloc_at_cursor prot label hm hbehind
    h.reachable.cursorsOk.aligned hlen (by omega)
  refine ⟨.call _ h.reachable, ?_, fun a => ?_⟩
  · rw [Call.run, hrun, ← hcursor]
    rfl
  · have hiff := mapped_addRegion (r := ⟨m.mmapNext, fitSize len, prot, .mmap, label⟩) hok a
    rw [Call.run, hrun, ← h.mapped a, ← hcursor]
    exact hiff.trans or_comm

/-- Mappings of 4 GiB fill the space behind the cursor. -/
theorem Layout.replicate (h : Layout m P c) (hP : ∀ a, P a → a < c)
    (hfits : c + n * 2 ^ 32 < 2 ^ 64) :
    Layout (runCalls m (List.replicate n (.mmapAlloc (2 ^ 32) ucProtRw "anon")))
      (fun a => P a ∨ (c ≤ a ∧ a < c + n * 2 ^ 32)) (c + n * 2 ^ 32) := by
  induction n generalizing m P c with
  | zero =>
    rw [Nat.zero_mul, Nat.add_zero]
    exact h.congr fun a => (or_iff_left (by omega)).symm
  | succ n ih =>
    have hsize : fitSize (2 ^ 32) = 2 ^ 32 := by decide
    have hfirst := h.mmapAlloc ucProtRw "anon" hP (le_refl (2 ^ 32)) (by omega)
    rw [hsize, Nat.mod_eq_of_lt (by omega)] at hfirst
    have hrest := ih hfirst (fun a ha => by
      obtain ha | ha := ha
      · exact (hP a ha).trans_le (by omega)
      · exact ha.2) (by omega)
    have hend : c + (n + 1) * 2 ^ 32 = c + 2 ^ 32 + n * 2 ^ 32 := by omega
    rw [hend]
    exact hrest.congr fun a => or_assoc.trans (or_congr_right (by omega))

/-- A mapping at a cursor with free space behind it. -/
theorem Layout.fitsAt (prot : ℕ) (label : String) (h : Layout m P c) (hlen : len ≤ 2 ^ 32)
    (hfree : ∀ a, c ≤ a → a < c + fitSize len → ¬P a) (hfits : c + fitSize len < 2 ^ 64) :
    m.FitsAt len prot label c := by
  have hleast : IsLeast {b | m.IsGap (fitSize len) b} c := by
    constructor
    · refine ⟨?_, h.cursor.le, hfits.le, fun a hlow hhigh ha => ?_⟩
      · rw [← h.cursor]
        exact h.reachable.cursorsOk.aligned
      · exact hfree a hlow hhigh ((h.mapped a).mp ha)
    · exact fun b hb => h.cursor ▸ hb.above
  have hnone : m.regionsBefore c = [] := by
    apply List.eq_nil_iff_forall_not_mem.mpr
    intro r hr
    obtain ⟨hmem, hends, hstarts⟩ := mem_between.mp hr
    have hcursor := h.cursor
    have hat : m.engine.Mapped c :=
      (h.reachable.tracked.union c).mpr ⟨r, hmem, by simp only [Holds, Contains]; omega⟩
    have hpos := fitSize_pos len
    exact hfree c le_rfl (by omega) ((h.mapped c).mp hat)
  exact fitsAt_of_few h.reachable hlen hleast (by simp [hnone]) hfits

end Layout

/-- Mappings of 4 GiB, and behind them one of 0x90000000 bytes and one as large as the space below
large allocations. -/
def overTop (n : ℕ) : List Call :=
  List.replicate n (.mmapAlloc (2 ^ 32) ucProtRw "anon") ++
    [.mmapAlloc 0x90000000 ucProtRw "anon"] ++ [.mmapAlloc kBigMallocBase ucProtRw "anon"]

theorem filter_overTop (n : ℕ) : (overTop n).filter (fun c => !c.isBig) = overTop n := by
  simp [overTop, Call.isBig]

/-- With so many mappings that the cursor wraps, it ends at the start of the area of large
allocations. -/
theorem Layout.overTop {P : ℕ → Prop} {n : ℕ} (hn : n = 0xffffffff) (h : Layout m P kMmapBase)
    (hP : ∀ a, P a → kBigMallocBase ≤ a ∧ a < kMmapBase) :
    Layout (runCalls m (overTop n))
      (fun a => a < kBigMallocBase ∨ P a ∨ (kMmapBase ≤ a ∧ a < 2 ^ 64)) kBigMallocBase := by
  have hsize : fitSize 0x90000000 = 0x90000000 := by decide
  have hsize' : fitSize kBigMallocBase = kBigMallocBase := by decide
  have hbig : kBigMallocBase = 0x54000000 := rfl
  have hmmap : kMmapBase = 0x70000000 := rfl
  have hfilled := h.replicate (fun a ha => (hP a ha).2) (by omega : kMmapBase + n * 2 ^ 32 < 2 ^ 64)
  have hlen : 0x90000000 ≤ 2 ^ 32 := by decide
  have htop := hfilled.mmapAlloc ucProtRw "anon" (fun a ha => by
    obtain ha | ha := ha
    · exact (hP a ha).2.trans_le (by omega)
    · exact ha.2) hlen (by omega)
  -- the mapping ends at 2 ^ 64, where the cursor becomes 0
  have hwrap : (kMmapBase + n * 2 ^ 32 + fitSize 0x90000000) % 2 ^ 64 = 0 := by omega
  rw [hwrap] at htop
  obtain ⟨m', hrun, hplaced⟩ := htop.fitsAt ucProtRw "anon" (by decide : kBigMallocBase ≤ 2 ^ 32)
    (fun a _ ha hmapped => by
      obtain (hmapped | hmapped) | hmapped := hmapped
      · have := hP a hmapped
        omega
      · omega
      · omega) (by omega)
  rw [Memory.overTop, runCalls_concat, runCalls_concat]
  refine ⟨.call _ htop.reachable, ?_, fun a => ?_⟩
  · rw [Call.run, hrun]
    exact hplaced.cursor.trans (by rw [hsize', Nat.zero_add])
  · rw [Call.run, hrun]
    refine (hplaced.mapped a).trans (or_congr (by omega) ((htop.mapped a).trans ?_))
    rw [or_assoc]
    exact or_congr_right (by omega)

theorem layout_init : Layout (init .arm64 false false) (fun _ => False) kMmapBase :=
  ⟨.init .arm64 false false, rfl, fun a => by simp [init, Engine.Mapped, Engine.fresh]⟩

theorem layout_bigAlloc :
    Layout (final (Call.run (.bigAlloc 1 ucProtRw "big") (init .arm64 false false)))
      (fun a => kBigMallocBase ≤ a ∧ a < kBigMallocBase + 0x1000) kMmapBase := by
  have hok :
      (init .arm64 false false).engine.Mappable (init .arm64 false false).bigNext 0x1000 := by
    decide
  have hrun := bigAlloc_apply 1 ucProtRw "big" (init .arm64 false false)
    (by decide : pageAlignUp (if 1 = 0 then 1 else 1) = 0x1000)
  rw [if_neg (by decide), if_pos hok] at hrun
  refine ⟨.call _ (.init .arm64 false false), by decide, fun a => ?_⟩
  rw [Call.run, hrun]
  refine (mapped_addRegion (r := ⟨kBigMallocBase, 0x1000, _, _, _⟩) hok a).trans ?_
  exact or_iff_left ((layout_init.mapped a).mp)

end Vardoger.Memory
