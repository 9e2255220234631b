import Vardoger.Base.StrideScan
import Vardoger.Engine.RegionMap
import Vardoger.Extract.Extractor

/-!
# What `scan_dex` finds

Every report is an image in guest memory, and the reports of one region do not overlap. The scan
relies on headers being 4-aligned, yet resumes exactly behind an image, whatever its size. After an
image whose size is not a multiple of four it therefore tests unaligned offsets only, and walks past
the aligned headers behind it. The scan is complete exactly where no header is hidden this way.
-/

namespace Vardoger.Extractor

open Bytes LittleEndian Stateful StrideScan Words

/-- The contents of a region. -/
def regionBytes (e : Engine) (r : Region) : List UInt8 :=
  (List.range r.size).map fun i => e.byte (r.base + i)

/-- The size of the image at an offset of the given bytes. -/
def dexAt (buf : List UInt8) (off : ℕ) : Option ℕ := (isDex (buf.drop off)).map Prod.fst

/-- What one region reports. -/
def reports (e : Engine) (r : Region) : List FoundDex := scanFrom r (regionBytes e r) 0

/-- What a scan of one region should report: images in guest memory that lie in the region, apart
from each other, and every 4-aligned one that does not start inside an earlier one. -/
structure RegionOk (e : Engine) (r : Region) (found : List FoundDex) : Prop where
  inside : ∀ d ∈ found, r.base ≤ d.addr ∧ d.addr + d.bytes.length ≤ r.base + r.size
  bytes : ∀ d ∈ found, d.bytes = (List.range d.bytes.length).map fun i => e.byte (d.addr + i)
  image : ∀ d ∈ found, isDex d.bytes = some (d.bytes.length, d.version) ∧
    wordAt 4 d.bytes 0x20 = d.bytes.length
  apart : found.Pairwise fun a b => a.addr + a.bytes.length ≤ b.addr
  complete : ∀ off, 4 ∣ off → (isDex ((regionBytes e r).drop off)).isSome →
    (¬∃ d ∈ found, d.addr < r.base + off ∧ r.base + off < d.addr + d.bytes.length) →
      ∃ d ∈ found, d.addr = r.base + off

/-- The scan returns the reports of its regions, and each region's reports are as they should be. -/
structure ScanOk (m : Memory) : Prop where
  returns : scanDex m =
    .ok ((m.regions.filter fun r => scannable r.kind).flatMap (reports m.engine))
  regions : ∀ r ∈ m.regions, scannable r.kind → RegionOk m.engine r (reports m.engine r)

/-! ## The header test -/

/-- The header test reads nothing behind the image. -/
theorem isDex_take_iff {p : List UInt8} {size : ℕ} {version : String} (hhigh : size ≤ p.length) :
    isDex (p.take size) = some (size, version) ↔ isDex p = some (size, version) := by
  have hlength : (p.take size).length = size := List.length_take_of_le hhigh
  by_cases hlow : 0x70 ≤ size
  · have htake : (p.take size).take 4 = p.take 4 := by
      rw [List.take_take, Nat.min_eq_left (by omega)]
    have hbyte (i : ℕ) (hi : i < 0x70) : byteAt (p.take size) i = byteAt p i := by
      unfold byteAt
      rw [List.getD_eq_getElem?_getD, List.getD_eq_getElem?_getD,
        List.getElem?_take_of_lt (by omega)]
    have hword (off : ℕ) (hoff : off + 4 ≤ 0x70) :
        wordAt 4 (p.take size) off = wordAt 4 p off := by
      unfold wordAt
      rw [List.drop_take, List.take_take, Nat.min_eq_left (by omega)]
    have hmagic : hasDexMagic (p.take size) = hasDexMagic p := by
      unfold hasDexMagic
      rw [htake, hbyte 4 (by omega), hbyte 5 (by omega), hbyte 6 (by omega), hbyte 7 (by omega)]
    rw [isDex_eq_some, isDex_eq_some, htake, hlength, hmagic, hbyte 6 (by omega),
      hword 0x20 (by omega), hword 0x24 (by omega), hword 0x28 (by omega)]
    simp only [hhigh, le_refl]
  · constructor
    · exact fun h => absurd (isDex_size h).1 hlow
    · exact fun h => absurd (isDex_size h).1 hlow

/-! ## One region -/

theorem length_regionBytes (e : Engine) (r : Region) : (regionBytes e r).length = r.size := by
  simp [regionBytes]

theorem dexAt_eq_some {buf : List UInt8} {off size : ℕ} :
    dexAt buf off = some size ↔ ∃ version, isDex (buf.drop off) = some (size, version) := by
  simp [dexAt]

theorem dexAt_isSome {buf : List UInt8} {off : ℕ} :
    (dexAt buf off).isSome ↔ (isDex (buf.drop off)).isSome := by
  simp [dexAt]

/-- The report for an image of the given size at an offset. -/
def report (r : Region) (buf : List UInt8) (d : ℕ × ℕ) : FoundDex :=
  ⟨add64 r.base d.1, r.label, ((isDex (buf.drop d.1)).map Prod.snd).getD "",
    (buf.drop d.1).take d.2⟩

/-- The loop makes a scan with stride four. -/
theorem scanFrom_scan (r : Region) (buf : List UInt8) (off : ℕ) :
    ∃ out, Scan (dexAt buf) 4 off out ∧ scanFrom r buf off = out.map (report r buf) := by
  fun_induction scanFrom r buf off with
  | case1 off hoff size version hdex ih =>
    obtain ⟨out, hscan, heq⟩ := ih
    refine ⟨(off, size) :: out, .report (dexAt_eq_some.mpr ⟨version, hdex⟩) hscan, ?_⟩
    rw [List.map_cons, ← heq, report, hdex]
    rfl
  | case2 off hoff hnone ih =>
    obtain ⟨out, hscan, heq⟩ := ih
    exact ⟨out, .skip (by rw [dexAt, hnone]; rfl) hscan, heq⟩
  | case3 off hoff =>
    refine ⟨[], .stop fun o ho => ?_, rfl⟩
    cases hdex : dexAt buf o with
    | none => rfl
    | some size =>
      obtain ⟨version, hdex⟩ := dexAt_eq_some.mp hdex
      obtain ⟨hlow, hhigh⟩ := isDex_size hdex
      rw [List.length_drop] at hhigh
      omega

/-- An image of a region lies inside it, and its report says where and how long it is. -/
theorem report_spec {e : Engine} {r : Region} {off size : ℕ} (hfits : r.base + r.size ≤ 2 ^ 64)
    (h : dexAt (regionBytes e r) off = some size) :
    (report r (regionBytes e r) (off, size)).addr = r.base + off ∧
      (report r (regionBytes e r) (off, size)).bytes.length = size ∧ 0x70 ≤ size ∧
        off + size ≤ r.size := by
  obtain ⟨version, hdex⟩ := dexAt_eq_some.mp h
  obtain ⟨hlow, hhigh⟩ := isDex_size hdex
  have hlength : size ≤ r.size - off := by
    rwa [List.length_drop, length_regionBytes] at hhigh
  refine ⟨add64_of_lt ?_, List.length_take_of_le hhigh, hlow, ?_⟩
  · dsimp only
    omega
  · omega

/-- The reported bytes are those of guest memory. -/
theorem report_bytes {e : Engine} {r : Region} {off size : ℕ} (hfits : r.base + r.size ≤ 2 ^ 64)
    (h : dexAt (regionBytes e r) off = some size) :
    (report r (regionBytes e r) (off, size)).bytes =
      (List.range size).map fun i => e.byte (r.base + off + i) := by
  obtain ⟨-, -, -, hsize⟩ := report_spec hfits h
  refine List.ext_getElem? fun i => ?_
  simp only [report, regionBytes, List.getElem?_take, List.getElem?_drop, List.getElem?_map]
  by_cases hi : i < size
  · rw [if_pos hi, List.getElem?_range (by omega), List.getElem?_range hi]
    simp only [Option.map_some, Nat.add_assoc]
  · rw [if_neg hi, List.getElem?_eq_none (by simpa using hi)]
    rfl

theorem report_image {r : Region} {buf : List UInt8} {off size : ℕ}
    (h : dexAt buf off = some size) :
    isDex (report r buf (off, size)).bytes = some (size, (report r buf (off, size)).version) ∧
      wordAt 4 (report r buf (off, size)).bytes 0x20 = size := by
  obtain ⟨version, hdex⟩ := dexAt_eq_some.mp h
  have hversion : (report r buf (off, size)).version = version := by
    rw [report, hdex]
    rfl
  have htake := (isDex_take_iff (isDex_size hdex).2).mpr hdex
  rw [hversion]
  exact ⟨htake, (isDex_eq_some.mp htake).1⟩

/-- Completeness of the reports is completeness of the scan. -/
theorem complete_iff {e : Engine} {r : Region} {out : List (ℕ × ℕ)}
    (hfits : r.base + r.size ≤ 2 ^ 64) (hscan : Scan (dexAt (regionBytes e r)) 4 0 out) :
    (∀ off, 4 ∣ off → (isDex ((regionBytes e r).drop off)).isSome →
      (¬∃ d ∈ out.map (report r (regionBytes e r)),
        d.addr < r.base + off ∧ r.base + off < d.addr + d.bytes.length) →
          ∃ d ∈ out.map (report r (regionBytes e r)), d.addr = r.base + off) ↔
      Complete (dexAt (regionBytes e r)) 4 out := by
  refine forall_congr' fun off => imp_congr_right fun _ => ?_
  rw [dexAt_isSome]
  refine imp_congr_right fun _ => imp_congr (not_congr ?_) ?_
  · simp only [List.mem_map, exists_exists_and_eq_and]
    refine exists_congr fun d => and_congr_right fun hd => ?_
    obtain ⟨haddr, hlength, -⟩ := report_spec hfits (hscan.hit_of_mem d hd)
    rw [haddr, hlength]
    omega
  · simp only [List.mem_map, exists_exists_and_eq_and]
    refine exists_congr fun d => and_congr_right fun hd => ?_
    obtain ⟨haddr, -⟩ := report_spec hfits (hscan.hit_of_mem d hd)
    rw [haddr]
    omega

/-- The reports of a region are as they should be exactly if its contents are in step. -/
theorem regionOk_iff {e : Engine} {r : Region} (hfits : r.base + r.size ≤ 2 ^ 64) :
    RegionOk e r (reports e r) ↔ InStep (dexAt (regionBytes e r)) 4 := by
  obtain ⟨out, hscan, heq⟩ := scanFrom_scan r (regionBytes e r) 0
  have hpos : ∀ off size, dexAt (regionBytes e r) off = some size → 0 < size := fun off size h => by
    have := (report_spec hfits h).2.2.1
    omega
  rw [reports, heq, ← hscan.complete_iff hpos, ← complete_iff hfits hscan]
  refine ⟨fun h => h.complete, fun hcomplete => ⟨?_, ?_, ?_, ?_, hcomplete⟩⟩
  · intro d hd
    obtain ⟨d, hmem, rfl⟩ := List.mem_map.mp hd
    obtain ⟨haddr, hlength, -, hsize⟩ := report_spec hfits (hscan.hit_of_mem d hmem)
    rw [haddr, hlength]
    omega
  · intro d hd
    obtain ⟨d, hmem, rfl⟩ := List.mem_map.mp hd
    obtain ⟨haddr, hlength, -⟩ := report_spec hfits (hscan.hit_of_mem d hmem)
    rw [haddr, hlength]
    exact report_bytes hfits (hscan.hit_of_mem d hmem)
  · intro d hd
    obtain ⟨d, hmem, rfl⟩ := List.mem_map.mp hd
    obtain ⟨-, hlength, -⟩ := report_spec hfits (hscan.hit_of_mem d hmem)
    rw [hlength]
    exact report_image (hscan.hit_of_mem d hmem)
  · refine List.pairwise_map.mpr (hscan.pairwise.imp_of_mem fun {a b} ha hb hab => ?_)
    obtain ⟨haddr, hlength, -⟩ := report_spec hfits (hscan.hit_of_mem a ha)
    obtain ⟨haddr', -⟩ := report_spec hfits (hscan.hit_of_mem b hb)
    rw [haddr, hlength, haddr']
    omega

/-! ## All regions -/

/-- A readable region yields its reports. -/
theorem scanRegion_eq {e : Engine} {r : Region} (h : e.Accessible r.base r.size) :
    scanRegion e r = .ok (reports e r) := by
  simp only [scanRegion, Engine.read, if_pos h]
  rfl

/-- If every scannable region is readable, the scan returns. -/
theorem scanDex_eq {m : Memory}
    (hread : ∀ r ∈ m.regions, scannable r.kind → m.engine.Accessible r.base r.size) :
    scanDex m = .ok ((m.regions.filter fun r => scannable r.kind).flatMap (reports m.engine)) := by
  have hall : ∀ r ∈ m.regions.filter fun r => scannable r.kind,
      scanRegion m.engine r = .ok (reports m.engine r) := fun r hr =>
    scanRegion_eq (hread r (List.mem_filter.mp hr).1 (List.mem_filter.mp hr).2)
  rw [scanDex, mapM_ok hall]
  rfl

/-- With readable regions the scan is sound and complete exactly if the contents of every
scannable region are in step: from the start of the region, and from the end of each image found
from there, no 4-aligned header comes before the next header at a multiple of four from that
point. -/
theorem scanDex_ok_iff (m : Memory)
    (hread : ∀ r ∈ m.regions, scannable r.kind → m.engine.Accessible r.base r.size) :
    ScanOk m ↔
      ∀ r ∈ m.regions, scannable r.kind → InStep (dexAt (regionBytes m.engine r)) 4 := by
  constructor
  · intro h r hr hkind
    exact (regionOk_iff (hread r hr hkind).1).mp (h.regions r hr hkind)
  · intro hstep
    refine ⟨scanDex_eq hread, fun r hr hkind => ?_⟩
    exact (regionOk_iff (hread r hr hkind).1).mpr (hstep r hr hkind)

/-- A region that mirrors the mappings is readable. -/
theorem accessible_of_tracked {m : Memory} (hm : Memory.Tracked m) {r : Region}
    (hr : r ∈ m.regions) : m.engine.Accessible r.base r.size := by
  refine ⟨(hm.pages r hr).2.2.2, fun i hi => ?_⟩
  exact (hm.union _).mpr ⟨r, hr, by dsimp only [Memory.Holds, Intervals.Contains]; omega⟩

/-- A page with the given contents at its start. -/
def blobRegion : Region := ⟨0x10000, 0x1000, ucProtRw, .other, "blob"⟩

/-- The memory with that page alone. -/
def blob (bytes : List UInt8) : Memory :=
  let m := (Memory.init .arm64 false false).addRegion blobRegion
  { m with engine := m.engine.setBytes blobRegion.base bytes }

theorem tracked_blob (bytes : List UInt8) : Memory.Tracked (blob bytes) := by
  have hok : (Memory.init .arm64 false false).engine.Mappable blobRegion.base blobRegion.size := by
    decide
  exact ((Memory.tracked_init .arm64 false false).addRegion hok).congr rfl fun _ => Iff.rfl

/-- A DEX header with the given file size. -/
def header (size : ℕ) : List UInt8 :=
  ascii "dex\n035" ++ List.replicate 25 0 ++ toBytes 4 size ++ toBytes 4 0x70 ++
    toBytes 4 0x12345678 ++ List.replicate 68 0

/-- The scan of a page with a single image. -/
theorem scanDex_ok_iff_blob :
    dexAt (regionBytes (blob (header 0x71)).engine blobRegion) 0 = some 0x71 ∧
      (ScanOk (blob (header 0x71)) ↔
        ∀ r ∈ (blob (header 0x71)).regions, scannable r.kind →
          InStep (dexAt (regionBytes (blob (header 0x71)).engine r)) 4) :=
  ⟨by decide +kernel, scanDex_ok_iff _ fun _ hr _ => accessible_of_tracked (tracked_blob _) hr⟩

/-- An image of `0x71` bytes, and another one at the next multiple of four. -/
def twoImages : List UInt8 := header 0x71 ++ List.replicate 4 0 ++ header 0x70

/-- The first image hides the second one from the scan. -/
theorem scanDex_misses_aligned_header : ¬ScanOk (blob twoImages) := by
  intro h
  have hregion := h.regions blobRegion (List.mem_singleton.mpr rfl) rfl
  have hstep := (regionOk_iff (by decide)).mp hregion
  have hfirst : dexAt (regionBytes (blob twoImages).engine blobRegion) 0 = some 0x71 := by
    decide +kernel
  have hsecond : (dexAt (regionBytes (blob twoImages).engine blobRegion) 0x74).isSome := by
    decide +kernel
  have hnone : dexAt (regionBytes (blob twoImages).engine blobRegion) 0x71 = none := by
    decide +kernel
  have hnext : NextHit (dexAt (regionBytes (blob twoImages).engine blobRegion)) 4 0 0 :=
    ⟨le_refl 0, by decide, by rw [hfirst]; rfl, by omega⟩
  obtain ⟨a, ha, hle⟩ := hstep _ (.next .zero hnext hfirst) 0x74 (by decide) hsecond (by decide)
  obtain ⟨k, hk⟩ := ha.dvd
  have hge := ha.le
  obtain rfl : a = 0x71 := by omega
  have hhits := ha.hits
  rw [hnone] at hhits
  cases hhits

end Vardoger.Extractor
