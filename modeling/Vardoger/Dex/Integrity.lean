import Vardoger.Dex.Rebuilt

/-!
# The integrity of a rebuilt DEX

The header of the finished file holds its own length and two hashes of what stands behind them, so
the order in which the fields are written matters. Each field is written after everything it covers.
The counter of patched methods is compared with the native bits of the methods before and after.
-/

namespace Vardoger.Dex

open Bytes LittleEndian DexRebuilder

/-! ## The check of `devirt_rebuild` -/

namespace Devirt

/-- The copy of SHA-1 in `devirt_detail`. -/
def sha1 (m : List UInt8) : List UInt8 := Dex.sha1 m

/-- The part of `DevirtResult` that says whether the hashes of the output were found right. -/
structure Verified where
  sigOk : Bool := false
  csumOk : Bool := false
  deriving DecidableEq, Repr

/-- The verification of a rebuilt file in `devirt_rebuild`. -/
def verify (adler32 : List UInt8 → ℕ) (outdex : List UInt8) : Verified :=
  if outdex.isEmpty then {}
  else if outdex.length ≥ 0x20 then
    { sigOk := sha1 (outdex.drop 0x20) = (outdex.drop 0x0c).take 20
      csumOk := wordAt 4 outdex 8 = adler32 (outdex.drop 0x0c) % 2 ^ 32 }
  else {}

end Devirt

/-- The header of the file agrees with its contents. -/
structure Intact (adler32 : List UInt8 → ℕ) (out : List UInt8) : Prop where
  fileSize : wordAt 4 out 0x20 = out.length
  dataSize : wordAt 4 out 0x68 = out.length - wordAt 4 out 0x6c
  signature : (out.drop 0x0c).take 20 = sha1 (out.drop 0x20)
  checksum : wordAt 4 out 0x08 = adler32 (out.drop 0x0c) % 2 ^ 32

theorem Intact.verify_eq {adler32 : List UInt8 → ℕ} {out : List UInt8} (h : Intact adler32 out)
    (hsize : 0x20 ≤ out.length) : Devirt.verify adler32 out = ⟨true, true⟩ := by
  have hne : out.isEmpty = false := by
    cases out with
    | nil => cases hsize
    | cons b rest => rfl
  rw [Devirt.verify, if_neg (by simp [hne]), if_pos hsize, Devirt.sha1, ← h.signature, ← h.checksum]
  simp

/-! ## The header -/

section Header

variable (adler32 : List UInt8 → ℕ) {d : List UInt8}

/-- The finished header is right, whatever the file held before. -/
theorem intact_fixHeader (hd : 0x70 ≤ d.length) (hsize : (fixHeader adler32 d).length < 2 ^ 32)
    (hoff : wordAt 4 (fixHeader adler32 d) 0x6c ≤ (fixHeader adler32 d).length) :
    Intact adler32 (fixHeader adler32 d) := by
  have hlength := (sameOutside_fixHeader adler32 hd).length_eq
  have hdataOff : wordAt 4 (fixHeader adler32 d) 0x6c = wordAt 4 d 0x6c :=
    wordAt_congr fun i hi hlt => (sameOutside_fixHeader adler32 hd).same i
      (by unfold InFixedHeader; omega)
  rw [hlength] at hsize
  rw [hlength, hdataOff] at hoff
  -- the file after each of the first three writes
  obtain ⟨d₁, hd₁⟩ : ∃ d₁, d₁ = overwrite d 0x20 (toBytes 4 d.length) := ⟨_, rfl⟩
  obtain ⟨d₂, hd₂⟩ : ∃ d₂, d₂ =
    overwrite d₁ 0x68 (toBytes 4 (Words.sub64 d₁.length (wordAt 4 d₁ 0x6c))) := ⟨_, rfl⟩
  obtain ⟨d₃, hd₃⟩ : ∃ d₃, d₃ = overwrite d₂ 0x0c (sha1 (d₂.drop 0x20)) := ⟨_, rfl⟩
  have hfix : fixHeader adler32 d = overwrite d₃ 0x08 (toBytes 4 (adler32 (d₃.drop 0x0c))) := by
    rw [hd₃, hd₂, hd₁]
    rfl
  have hlength₁ : d₁.length = d.length := by
    rw [hd₁, length_overwrite (by rw [length_toBytes]; omega)]
  have hlength₂ : d₂.length = d.length := by
    rw [hd₂, length_overwrite (by rw [length_toBytes]; omega), hlength₁]
  have hlength₃ : d₃.length = d.length := by
    rw [hd₃, length_overwrite (by rw [length_sha1]; omega), hlength₂]
  -- a write leaves what stands behind it
  have hbehind₄ : (fixHeader adler32 d).drop 0x0c = d₃.drop 0x0c := by
    rw [hfix, drop_overwrite (by rw [length_toBytes]; omega) (by rw [length_toBytes])]
  have hbehind₃ : d₃.drop 0x20 = d₂.drop 0x20 := by
    rw [hd₃, drop_overwrite (by rw [length_sha1]; omega) (by rw [length_sha1])]
  have hbehind : (fixHeader adler32 d).drop 0x20 = d₂.drop 0x20 := by
    rw [← hbehind₃, show 0x20 = 0x0c + 0x14 from rfl, ← List.drop_drop, hbehind₄, List.drop_drop]
  have hword : ∀ o, 0x20 ≤ o → wordAt 4 (fixHeader adler32 d) o = wordAt 4 d₂ o := by
    intro o ho
    obtain ⟨k, rfl⟩ := Nat.exists_eq_add_of_le ho
    rw [wordAt, wordAt, ← List.drop_drop, hbehind, List.drop_drop]
  constructor
  · have hsame : wordAt 4 d₂ 0x20 = wordAt 4 d₁ 0x20 := wordAt_congr fun i hi hlt => by
      rw [hd₂, getElem?_overwrite (by rw [length_toBytes]; omega) (.inl (by omega))]
    rw [hword 0x20 le_rfl, hsame, hd₁, wordAt_of_toBytes (standsAt_overwrite (by omega)), hlength]
    exact Nat.mod_eq_of_lt hsize
  · have hsame : wordAt 4 d₁ 0x6c = wordAt 4 d 0x6c := wordAt_congr fun i hi hlt => by
      rw [hd₁, getElem?_overwrite (by rw [length_toBytes]; omega) (.inr (by
        rw [length_toBytes]; omega))]
    rw [hword 0x68 (by decide), hdataOff, hlength, hd₂,
      wordAt_of_toBytes (standsAt_overwrite (by omega)), hsame, hlength₁]
    unfold Words.sub64
    omega
  · have hsig : StandsAt d₃ 0x0c (sha1 (d₂.drop 0x20)) := by
      rw [hd₃]
      exact standsAt_overwrite (by omega)
    have htake := hsig.take_drop
    rw [length_sha1] at htake
    rw [hbehind₄, hbehind, htake]
  · rw [hbehind₄, hfix, wordAt_of_toBytes (standsAt_overwrite (by omega))]
    rfl

end Header

/-! ## The counter -/

/-- The number of positions at which the native bits of two lists of methods differ. A method
without a counterpart counts. -/
def nativeFlips : List EncodedMethod → List EncodedMethod → ℕ
  | [], after => after.length
  | before, [] => before.length
  | m :: before, m' :: after =>
    nativeFlips before after + if m.access &&& kAccNative = m'.access &&& kAccNative then 0 else 1

/-- The number of encoded methods whose native bit differs between two files. -/
def nativeChanges (d out : List UInt8) : ℕ :=
  ((List.range (Tables.ofHeader d).classDefs.size).map fun k =>
    nativeFlips ((Tables.ofHeader d).dataOf k).directMethods
        ((Tables.ofHeader out).dataOf k).directMethods +
      nativeFlips ((Tables.ofHeader d).dataOf k).virtualMethods
        ((Tables.ofHeader out).dataOf k).virtualMethods).sum

section Counter

variable {d out : List UInt8} {recovered : CodeMap}

/-- A method is patched exactly if its native bit changes. -/
theorem native_patch_iff (recovered : CodeMap) (size : ℕ) (m : ℕ × EncodedMethod) :
    m.2.access &&& kAccNative =
        (patch (appendCode size recovered.items []).2 m).access &&& kAccNative ↔
      isPatched (appendCode size recovered.items []).2 m = false := by
  by_cases hm : Recovers recovered m
  · obtain ⟨code, k, -, hpatch, hpatched, -⟩ := patch_of_recovers size hm
    have hcleared : (m.2.access &&& (0xffffffff - kAccNative)) &&& kAccNative = 0 := by
      rw [Nat.and_assoc, show (0xffffffff - kAccNative) &&& kAccNative = 0 from rfl, Nat.and_zero]
    rw [hpatch, hpatched, hcleared]
    simp [hm.1]
  · obtain ⟨hpatch, hpatched⟩ := patch_of_not_recovers size hm
    rw [hpatch, hpatched]
    simp

theorem nativeFlips_patch (size midx : ℕ) (ms : List EncodedMethod) :
    nativeFlips ms ((indexed midx ms).map (patch (appendCode size recovered.items []).2)) =
      (indexed midx ms).countP (isPatched (appendCode size recovered.items []).2) := by
  induction ms generalizing midx with
  | nil => rfl
  | cons m ms ih =>
    rw [indexed, List.map_cons, nativeFlips, ih, List.countP_cons]
    congr 1
    have hiff := native_patch_iff recovered size ((midx + m.diff) % 2 ^ 32, m)
    by_cases hpatched : isPatched (appendCode size recovered.items []).2
        ((midx + m.diff) % 2 ^ 32, m) = true
    · rw [if_pos hpatched, if_neg fun hsame => by rw [hiff.mp hsame] at hpatched; cases hpatched]
    · rw [if_neg hpatched, if_pos (hiff.mpr (Bool.eq_false_of_not_eq_true hpatched))]

theorem dataOf_finished (hout : out.length < 2 ^ 32)
    (h : Spliced (appendCode d.length recovered.items []).2
      (appendCode d.length recovered.items []).1 (Tables.ofHeader d) out) (hd : DataApart d)
    {k : ℕ} (hk : k < (Tables.ofHeader d).classDefs.size) :
    (Tables.ofHeader out).dataOf k =
      patchClass (appendCode d.length recovered.items []).2 ((Tables.ofHeader d).dataOf k) := by
  have hlength := h.length_le
  change d.length ≤ out.length at hlength
  have hdef : (Tables.ofHeader out).classDefAt k = (Tables.ofHeader d).classDefAt k := by
    rw [(h.agrees hd).ofHeader_eq hd.size]
    rfl
  unfold Tables.dataOf
  rw [hdef, show (Tables.ofHeader out).data = out from rfl,
    show (Tables.ofHeader d).data = d from rfl]
  rcases dataOf_out hout h hd hk with ⟨hzero, hzero'⟩ | ⟨cd, stop, stop', hin, hoff, hoff', hin'⟩
  · rw [hzero, hzero']
    rfl
  · have hstop := hin.le_length.2
    have hstop' := hin'.le_length.2
    rw [ClassData.StandsIn.classData_eq (t := Tables.ofHeader out) hin' hoff' (by omega),
      ClassData.StandsIn.classData_eq (t := Tables.ofHeader d) hin hoff (by omega)]

/-- The counter is the number of methods whose native bit changed. -/
theorem patchedMethods_relink (adler32 : List UInt8 → ℕ) (hd : DataApart d)
    (hout : (fixHeader adler32 ((relink d recovered).d ++ (relink d recovered).tail)).length <
      2 ^ 32) :
    (relink d recovered).patchedMethods = nativeChanges d
      (fixHeader adler32 ((relink d recovered).d ++ (relink d recovered).tail)) := by
  have hsize : d.length < 2 ^ 32 := by
    rw [length_fixHeader_relink adler32 hd.size hd.classDefs_le] at hout
    exact Nat.lt_of_le_of_lt (Nat.le_add_right _ _) hout
  have hspliced := spliced_fixHeader adler32 recovered hd hsize
  generalize fixHeader adler32 ((relink d recovered).d ++ (relink d recovered).tail) = out at *
  rw [relink_eq recovered hd.size, patchedMethods_relinkFirst recovered hd hsize _ le_rfl,
    nativeChanges]
  congr 1
  refine List.map_congr_left fun k hk => ?_
  rw [dataOf_finished hout hspliced hd (List.mem_range.mp hk)]
  simp only [patchClass, nativeFlips_patch, patchCount]

end Counter

/-- What a file that `build` returns tells about its input. -/
theorem build_ok {adler32 : List UInt8 → ℕ} {d : List UInt8} {recovered : CodeMap} {built : Built}
    (h : build adler32 d recovered = .ok built) :
    0x70 ≤ d.length ∧ wordAt 4 d 0x64 + wordAt 4 d 0x60 * 32 ≤ d.length ∧
      built = ⟨fixHeader adler32 ((relink d recovered).d ++ (relink d recovered).tail),
        (relink d recovered).patchedMethods, (relink d recovered).patchedClasses⟩ := by
  unfold build at h
  split at h
  next => cases h
  next hheader =>
    split at h
    next => cases h
    next hdefs =>
      injection h with h
      exact ⟨by omega, by omega, h.symm⟩

/-- Every file that `build` returns is intact and passes the check of `devirt_rebuild`; and if the
class data of the input stand apart from what is rewritten, then the counter is the number of
methods whose native bit changed. -/
theorem build_intact (adler32 : List UInt8 → ℕ) (d : List UInt8) (recovered : CodeMap)
    (built : Built) (hbuild : build adler32 d recovered = .ok built)
    (hsize : built.bytes.length < 2 ^ 32) (hoff : wordAt 4 built.bytes 0x6c ≤ built.bytes.length) :
    Intact adler32 built.bytes ∧ Devirt.verify adler32 built.bytes = ⟨true, true⟩ ∧
      (DataApart d → built.patchedMethods = nativeChanges d built.bytes) := by
  obtain ⟨hheader, hdefs, rfl⟩ := build_ok hbuild
  have hjoined : 0x70 ≤ ((relink d recovered).d ++ (relink d recovered).tail).length := by
    rw [List.length_append, length_relink d recovered hdefs]
    exact Nat.le_add_right_of_le hheader
  have hlong := (sameOutside_fixHeader adler32 hjoined).length_eq.symm ▸ hjoined
  have hintact := intact_fixHeader adler32 hjoined hsize hoff
  exact ⟨hintact, hintact.verify_eq (Nat.le_trans (by decide) hlong), fun hd =>
    patchedMethods_relink adler32 hd hsize⟩

theorem build_intact_tinyDex :
    ∃ built, build (fun _ => 1) tinyDex (CodeMap.empty.setCode 0 returnVoid) = .ok built ∧
      Intact (fun _ => 1) built.bytes ∧ nativeChanges tinyDex built.bytes = 1 := by
  have hbuild := build_wellFormed (fun _ => 1) (CodeMap.empty.setCode 0 returnVoid)
    wellFormed_tinyDex
  have hcount : (relink tinyDex (CodeMap.empty.setCode 0 returnVoid)).patchedMethods = 1 := by
    decide +kernel
  have hlength : ((relink tinyDex (CodeMap.empty.setCode 0 returnVoid)).d ++
      (relink tinyDex (CodeMap.empty.setCode 0 returnVoid)).tail).length = 0xe4 := by
    decide +kernel
  have hdataOff : wordAt 4 ((relink tinyDex (CodeMap.empty.setCode 0 returnVoid)).d ++
      (relink tinyDex (CodeMap.empty.setCode 0 returnVoid)).tail) 0x6c = 0xb4 := by
    decide +kernel
  generalize relink tinyDex (CodeMap.empty.setCode 0 returnVoid) = s at *
  have hsame := sameOutside_fixHeader (fun _ => 1) (d := s.d ++ s.tail) (by rw [hlength]; decide)
  have hword : wordAt 4 (fixHeader (fun _ => 1) (s.d ++ s.tail)) 0x6c = 0xb4 := by
    rw [← hdataOff]
    exact wordAt_congr fun i hi hlt => hsame.same i (by unfold InFixedHeader; omega)
  have hall := build_intact (fun _ => 1) tinyDex (CodeMap.empty.setCode 0 returnVoid) _ hbuild
    (by rw [hsame.length_eq, hlength]; decide)
    (by rw [hsame.length_eq, hlength, hword]; decide)
  exact ⟨_, hbuild, hall.1, (hall.2.2 wellFormed_tinyDex.dataApart).symm.trans hcount⟩

/-- A file whose only class has its class data in the header, around `data_size`. -/
def headerDataDex : List UInt8 :=
  ascii "dex\n" ++ List.replicate 92 0 ++ toBytes 4 1 ++ toBytes 4 0x100 ++ List.replicate 176 0 ++
    toBytes 4 0x63 ++ List.replicate 356 0

/-- The new `data_size` sets a native bit that no method was patched for. -/
theorem counter_of_headerDataDex :
    ∃ built, build (fun _ => 1) headerDataDex .empty = .ok built ∧ built.bytes.length < 2 ^ 32 ∧
      wordAt 4 built.bytes 0x6c ≤ built.bytes.length ∧ built.patchedMethods = 0 ∧
      nativeChanges headerDataDex built.bytes = 1 := by
  have hbuild := build_eq (d := headerDataDex) (fun _ => 1) .empty (by decide +kernel)
    (by decide +kernel) (by decide +kernel)
  refine ⟨_, hbuild, ?_⟩
  decide +kernel

end Vardoger.Dex
