import Vardoger.Base.Patches
import Vardoger.Base.Segments
import Vardoger.Extract.ScanDex

/-!
# The strings that the extractor finds

`search_strings` follows the bytes of a region with the current run and its start, and
`harvest_strings` follows them with the run alone. We show that the first lists the maximal
printable runs of each region in order, and that the second collects exactly the texts of these.
-/

namespace Vardoger.Extractor

open Bytes Patches Segments Stateful Words

/-- A printable byte at an address. -/
def PrintableAt (e : Engine) (a : ℕ) : Prop := printable (e.byte a)

/-- The list has exactly the maximal printable runs of a region that are long enough and contain
the needle, by increasing addresses. -/
structure ListsRuns (e : Engine) (needle : List UInt8) (minLen : ℕ) (r : Region)
    (found : List FoundString) : Prop where
  ordered : found.Pairwise fun d d' => d.addr < d'.addr
  mem_iff : ∀ d, d ∈ found ↔ ∃ s t, IsRun (PrintableAt e) r.base (r.base + r.size) s t ∧
    minLen ≤ t - s ∧ needle <:+: slice e.byte s (t - s) ∧ d = ⟨s, slice e.byte s (t - s), r.label⟩

/-- The list has exactly the given texts, in order and each once. -/
structure SortedTexts (found : List FoundString) (texts : List (List UInt8)) : Prop where
  ordered : texts.Pairwise fun x y => compare x y = .lt
  mem_iff : ∀ text, text ∈ texts ↔ ∃ d ∈ found, d.text = text

variable {m : Memory} {e : Engine} {r : Region} {needle : List UInt8} {minLen : ℕ}

/-! ## One region -/

section Region

variable {keep : List UInt8 → Bool} {i start low : ℕ} {run : List UInt8} {d : FoundString}

/-- The loop stands at offset `i`, and the current run began at `low`. -/
structure AtOffset (e : Engine) (r : Region) (i start low : ℕ) (run : List UInt8) : Prop where
  le : low ≤ i
  inside : i ≤ r.size
  fits : r.base + r.size ≤ 2 ^ 64
  run_eq : run = slice e.byte (r.base + low) (i - low)
  start_eq : low < i → start = low
  all : ∀ a, r.base + low ≤ a → a < r.base + i → PrintableAt e a

/-- A run that ends is reported if it is kept. -/
theorem AtOffset.mem_flush (h : AtOffset e r i start low run) (hkeep : keep [] = false) :
    d ∈ flush r keep start run ↔
      ∃ s t, (s = r.base + low ∧ t = r.base + i ∧ r.base + low < r.base + i) ∧
        keep (slice e.byte s (t - s)) ∧ d = ⟨s, slice e.byte s (t - s), r.label⟩ := by
  obtain ⟨hle, hinside, hfits, hrun, hstart, -⟩ := h
  have hsize : r.base + i - (r.base + low) = i - low := by omega
  obtain hlt | heq := hle.lt_or_eq
  · have haddr : add64 r.base start = r.base + low := by
      rw [hstart hlt, add64_of_lt (by omega)]
    have hmem : d ∈ flush r keep start run ↔
        keep run ∧ d = ⟨r.base + low, run, r.label⟩ := by
      rw [flush, haddr]
      by_cases hkept : keep run
      · simp [hkept]
      · simp [hkept]
    rw [hmem, hrun]
    constructor
    · intro hd
      refine ⟨_, _, ⟨rfl, rfl, by omega⟩, ?_⟩
      rwa [hsize]
    · rintro ⟨_, _, ⟨rfl, rfl, -⟩, hd⟩
      rwa [hsize] at hd
  · subst heq
    rw [Nat.sub_self] at hrun
    subst hrun
    constructor
    · intro hd
      rw [flush, if_neg (by simp [slice, hkeep])] at hd
      cases hd
    · rintro ⟨_, _, ⟨-, -, hlt⟩, -⟩
      exact absurd hlt (lt_irrefl _)

theorem slice_succ (f : ℕ → UInt8) (a n : ℕ) : slice f a (n + 1) = f a :: slice f (a + 1) n := by
  rw [Nat.add_comm, slice_add]
  rfl

/-- A printable byte goes on with the run, or starts one. -/
theorem AtOffset.push (h : AtOffset e r i start low run) (hi : i < r.size)
    (hc : printable (e.byte (r.base + i))) :
    AtOffset e r (i + 1) (if run.isEmpty then i else start) low (run ++ [e.byte (r.base + i)]) := by
  obtain ⟨hle, -, hfits, hrun, hstart, hall⟩ := h
  have hsize : i + 1 - low = i - low + 1 := by omega
  have haddr : r.base + low + (i - low) = r.base + i := by omega
  refine ⟨by omega, hi, hfits, ?_, fun _ => ?_, fun a hlow hhigh => ?_⟩
  · rw [hsize, slice_add, haddr, ← hrun]
    rfl
  · obtain hlt | rfl := hle.lt_or_eq
    · have hne : run.isEmpty = false := by
        rw [hrun, List.isEmpty_eq_false_iff, ← List.length_pos_iff, length_slice]
        omega
      rw [hne, if_neg (by decide), hstart hlt]
    · rw [hrun, Nat.sub_self, if_pos (by rfl)]
  · by_cases ha : a < r.base + i
    · exact hall a hlow ha
    · obtain rfl : a = r.base + i := by omega
      exact hc

/-- Behind any other byte there is no current run. -/
theorem AtOffset.skip (h : AtOffset e r i start low run) (hi : i < r.size) :
    AtOffset e r (i + 1) start (i + 1) [] := by
  refine ⟨le_rfl, hi, h.fits, ?_, by omega, by omega⟩
  rw [Nat.sub_self]
  rfl

/-- The loop reports what it keeps of the runs from the start of the current one on. -/
theorem AtOffset.mem_searchFrom (hkeep : keep [] = false) (n : ℕ)
    (h : AtOffset e r i start low run) (hn : i + n = r.size) :
    d ∈ searchFrom r keep i start run (slice e.byte (r.base + i) n) ↔
      ∃ s t, IsRun (PrintableAt e) (r.base + low) (r.base + r.size) s t ∧
        keep (slice e.byte s (t - s)) ∧ d = ⟨s, slice e.byte s (t - s), r.label⟩ := by
  -- the loop is followed byte by byte
  induction n generalizing i start low run with
  | zero =>
    obtain rfl : i = r.size := hn
    simp only [isRun_of_all h.all]
    rw [slice, List.range_zero, List.map_nil, searchFrom, h.mem_flush hkeep]
  | succ n ih =>
    rw [slice_succ, searchFrom]
    by_cases hc : printable (e.byte (r.base + i))
    · rw [if_pos hc]
      exact ih (h.push (by omega) hc) (by omega)
    · have hle := h.le
      rw [if_neg hc, List.mem_append, h.mem_flush hkeep, Nat.add_assoc,
        ih (h.skip (by omega)) (by omega)]
      simp only [isRun_iff_of_not h.all (by omega) (by omega : r.base + i < r.base + r.size) hc,
        or_and_right, exists_or, Nat.add_assoc]

/-- The strings of one region. -/
def strings (e : Engine) (keep : List UInt8 → Bool) (r : Region) : List FoundString :=
  searchFrom r keep 0 0 [] (regionBytes e r)

theorem searchRegion_eq (h : e.Accessible r.base r.size) :
    searchRegion e keep r = .ok (strings e keep r) := by
  simp only [searchRegion, Engine.read, if_pos h]
  rfl

theorem mem_strings (hfits : r.base + r.size ≤ 2 ^ 64) (hkeep : keep [] = false) :
    d ∈ strings e keep r ↔ ∃ s t, IsRun (PrintableAt e) r.base (r.base + r.size) s t ∧
      keep (slice e.byte s (t - s)) ∧ d = ⟨s, slice e.byte s (t - s), r.label⟩ := by
  have hstart : AtOffset e r 0 0 0 [] := ⟨le_rfl, Nat.zero_le _, hfits, rfl, by omega, by omega⟩
  exact hstart.mem_searchFrom hkeep r.size (Nat.zero_add _)

theorem keeps_iff {minLen : ℕ} {needle run : List UInt8} :
    keeps needle minLen run = true ↔ minLen ≤ run.length ∧ needle <:+: run := by
  rw [keeps, Bool.and_eq_true, decide_eq_true_iff, Bool.or_eq_true, decide_eq_true_iff,
    List.isEmpty_iff]
  refine and_congr_right fun _ => ⟨?_, .inr⟩
  rintro (rfl | h)
  · exact List.nil_infix
  · exact h

theorem keeps_nil {minLen : ℕ} (hlen : 1 ≤ minLen) (needle : List UInt8) :
    keeps needle minLen [] = false := by
  rw [← Bool.not_eq_true, keeps_iff, List.length_nil]
  omega

/-- The runs are reported from left to right. The induction follows the bytes. -/
theorem AtOffset.pairwise_searchFrom (hkeep : keep [] = false) (n : ℕ)
    (h : AtOffset e r i start low run) (hn : i + n = r.size) :
    (searchFrom r keep i start run (slice e.byte (r.base + i) n)).Pairwise
      fun d d' => d.addr < d'.addr := by
  have hflush : ∀ {i start low run}, AtOffset e r i start low run →
      (flush r keep start run).Pairwise fun d d' => d.addr < d'.addr := by
    intro i start low run h
    rw [flush]
    split
    · exact List.pairwise_singleton _ _
    · exact List.Pairwise.nil
  induction n generalizing i start low run with
  | zero => exact hflush h
  | succ n ih =>
    rw [slice_succ, searchFrom]
    by_cases hc : printable (e.byte (r.base + i))
    · rw [if_pos hc]
      exact ih (h.push (by omega) hc) (by omega)
    · rw [if_neg hc, List.pairwise_append]
      have hskip := h.skip (by omega)
      refine ⟨hflush h, ih hskip (by omega), fun d hd d' hd' => ?_⟩
      obtain ⟨s, t, ⟨rfl, rfl, hlt⟩, -, rfl⟩ := (h.mem_flush hkeep).mp hd
      rw [Nat.add_assoc, hskip.mem_searchFrom hkeep n (by omega)] at hd'
      obtain ⟨s', t', hrun', -, rfl⟩ := hd'
      have hle := hrun'.low_le
      dsimp only
      omega

/-- The strings of a region are its maximal runs. -/
theorem listsRuns_strings (hfits : r.base + r.size ≤ 2 ^ 64) (hlen : 1 ≤ minLen)
    (needle : List UInt8) :
    ListsRuns e needle minLen r (strings e (keeps needle minLen) r) := by
  have hstart : AtOffset e r 0 0 0 [] := ⟨le_rfl, Nat.zero_le _, hfits, rfl, by omega, by omega⟩
  refine ⟨hstart.pairwise_searchFrom (keeps_nil hlen needle) r.size (Nat.zero_add _), fun d => ?_⟩
  simp only [mem_strings hfits (keeps_nil hlen needle), keeps_iff, length_slice, and_assoc]

/-- Both loops keep the same runs, wherever the first one says that they start. -/
theorem harvestFrom_eq (r : Region) (buf : List UInt8) (i start : ℕ) (run : List UInt8)
    (uniq : Std.ExtTreeSet (List UInt8)) :
    harvestFrom minLen uniq run buf =
      ((searchFrom r (keeps [] minLen) i start run buf).map FoundString.text).foldl
        (fun uniq text => uniq.insert text) uniq := by
  have hflush : ∀ start run (uniq : Std.ExtTreeSet (List UInt8)), insertRun minLen uniq run =
      ((flush r (keeps [] minLen) start run).map FoundString.text).foldl
        (fun uniq text => uniq.insert text) uniq := by
    intro start run uniq
    have hkeeps : keeps [] minLen run = true ↔ minLen ≤ run.length := by
      rw [keeps_iff, and_iff_left List.nil_infix]
    rw [insertRun, flush]
    by_cases hrun : minLen ≤ run.length
    · rw [if_pos hrun, if_pos (hkeeps.mpr hrun)]
      rfl
    · rw [if_neg hrun, if_neg (mt hkeeps.mp hrun)]
      rfl
  induction buf generalizing i start run uniq with
  | nil => exact hflush start run uniq
  | cons c buf ih =>
    rw [harvestFrom, searchFrom]
    by_cases hc : printable c
    · rw [if_pos hc, if_pos hc]
      exact ih _ _ _ _
    · rw [if_neg hc, if_neg hc, List.map_append, List.foldl_append, ← hflush]
      exact ih _ _ _ _

end Region

/-! ## All regions -/

theorem searchStrings_eq
    (hread : ∀ r ∈ m.regions, scannable r.kind → m.engine.Accessible r.base r.size)
    (needle : List UInt8) (minLen : ℕ) :
    searchStrings m needle minLen = .ok ((m.regions.filter fun r => scannable r.kind).flatMap
      (strings m.engine (keeps needle minLen))) := by
  have hall : ∀ r ∈ m.regions.filter fun r => scannable r.kind,
      searchRegion m.engine (keeps needle minLen) r =
        .ok (strings m.engine (keeps needle minLen) r) := fun r hr =>
    searchRegion_eq (hread r (List.mem_filter.mp hr).1 (List.mem_filter.mp hr).2)
  rw [searchStrings, mapM_ok hall]
  rfl

theorem mem_foldl_insert {texts : List (List UInt8)} {uniq : Std.ExtTreeSet (List UInt8)}
    {text : List UInt8} :
    text ∈ texts.foldl (fun uniq text => uniq.insert text) uniq ↔ text ∈ uniq ∨ text ∈ texts := by
  induction texts generalizing uniq with
  | nil => simp
  | cons x texts ih =>
    rw [List.foldl_cons, ih, Std.ExtTreeSet.mem_insert, Std.LawfulEqOrd.compare_eq_iff_eq,
      List.mem_cons, or_assoc, or_left_comm, eq_comm]

/-- The second loop keeps the texts that the first one reports for the empty needle. -/
theorem harvestStrings_eq
    (hread : ∀ r ∈ m.regions, scannable r.kind → m.engine.Accessible r.base r.size) (minLen : ℕ) :
    harvestStrings m minLen = .ok (((((m.regions.filter fun r => scannable r.kind).flatMap
      (strings m.engine (keeps [] minLen))).map FoundString.text).foldl
        (fun uniq text => uniq.insert text) ∅ : Std.ExtTreeSet (List UInt8)).toList) := by
  have hstep : ∀ r ∈ m.regions.filter fun r => scannable r.kind,
      ∀ uniq : Std.ExtTreeSet (List UInt8),
        (do
          let buf ← m.engine.read r.base r.size
          return harvestFrom minLen uniq [] buf : Except Failure _) =
        .ok (((strings m.engine (keeps [] minLen) r).map FoundString.text).foldl
          (fun uniq text => uniq.insert text) uniq) := by
    intro r hr uniq
    have haccess := hread r (List.mem_filter.mp hr).1 (List.mem_filter.mp hr).2
    rw [Engine.read, if_pos haccess]
    exact congrArg _ (harvestFrom_eq r _ 0 0 [] uniq)
  rw [harvestStrings, foldlM_ok hstep, List.map_flatMap, List.foldl_flatMap]
  rfl

/-- With readable regions, the search lists the maximal printable runs of every scannable region
that are long enough and contain the needle, and the harvest has the texts of those that are found
for the empty needle. -/
theorem strings_found (m : Memory)
    (hread : ∀ r ∈ m.regions, scannable r.kind → m.engine.Accessible r.base r.size) {minLen : ℕ}
    (hlen : 1 ≤ minLen) :
    (∀ needle, ∃ found : Region → List FoundString,
      searchStrings m needle minLen =
        .ok ((m.regions.filter fun r => scannable r.kind).flatMap found) ∧
      ∀ r ∈ m.regions, scannable r.kind → ListsRuns m.engine needle minLen r (found r)) ∧
    ∃ found texts, searchStrings m [] minLen = .ok found ∧ harvestStrings m minLen = .ok texts ∧
      SortedTexts found texts := by
  constructor
  · intro needle
    refine ⟨_, searchStrings_eq hread needle minLen, fun r hr hkind => ?_⟩
    exact listsRuns_strings (hread r hr hkind).1 hlen needle
  · refine ⟨_, _, searchStrings_eq hread [] minLen, harvestStrings_eq hread minLen, ?_, ?_⟩
    · exact Std.ExtTreeSet.ordered_toList
    · intro text
      rw [Std.ExtTreeSet.mem_toList, mem_foldl_insert, List.mem_map]
      exact or_iff_right Std.ExtTreeSet.not_mem_empty

/-- Two pages in one mapping. -/
def wide : Region := ⟨0x10000, 0x2000, ucProtRw, .mmap, "anon"⟩

/-- The memory with these pages alone, and with the given contents. -/
def whole (bytes : List UInt8) : Memory :=
  let m := (Memory.init .arm64 false false).addRegion wide
  { m with engine := m.engine.setBytes wide.base bytes }

theorem tracked_whole (bytes : List UInt8) : Memory.Tracked (whole bytes) := by
  have hok : (Memory.init .arm64 false false).engine.Mappable wide.base wide.size := by decide
  exact ((Memory.tracked_init .arm64 false false).addRegion hok).congr rfl fun _ => Iff.rfl

/-- Two pages of zeros with two strings in them. -/
theorem strings_found_two :
    ∃ found texts, searchStrings (whole (ascii "ab\ncd")) [] 2 = .ok found ∧
      harvestStrings (whole (ascii "ab\ncd")) 2 = .ok texts ∧ SortedTexts found texts :=
  (strings_found (whole (ascii "ab\ncd"))
    (fun _ hr _ => accessible_of_tracked (tracked_whole _) hr) (by decide)).2

end Vardoger.Extractor
