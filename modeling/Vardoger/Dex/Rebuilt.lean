import Vardoger.Dex.RelinkLoop
import Mathlib.Data.List.Forall2

/-!
# The rebuilt DEX file

For a well-formed input, the output of the rebuilder parses to the same classes, fields and methods,
except that the native methods with recovered code have it installed.
-/

namespace Vardoger.Dex

open Bytes LittleEndian Uleb128 DexRebuilder

/-! ## What the output must be -/

/-- A method of the output against the input method with its index: the names stay, and the flags
and the code offset too unless there is code to install. -/
structure Installed (recovered : CodeMap) (t : Tables) (out : List UInt8) (m : ℕ × EncodedMethod)
    (m' : Method) : Prop where
  names : m'.cls = (t.methodAt m.1).cls ∧ m'.name = (t.methodAt m.1).name ∧
    m'.sig = (t.methodAt m.1).sig
  kept : ¬Recovers recovered m → m'.access = m.2.access ∧ m'.codeOff = m.2.codeOff
  patched : Recovers recovered m → ∃ code, recovered.find m.1 = some code ∧
    m'.access = m.2.access &&& (0xffffffff - kAccNative) ∧ m'.codeOff % 4 = 0 ∧
    StandsAt out m'.codeOff code ∧ m'.codeOff + code.length ≤ out.length

/-- A class of the output against the same class of the input. -/
structure Relinked (recovered : CodeMap) (t t' : Tables) (c c' : ClassDef) : Prop where
  reported : c.directMethods =
      (indexed 0 (t.classData c.classDataOff).directMethods).map t.method ∧
    c.virtualMethods = (indexed 0 (t.classData c.classDataOff).virtualMethods).map t.method
  descriptor : c'.descriptor = c.descriptor
  superclass : c'.superclass = c.superclass
  access : c'.access = c.access
  staticFields : (t'.classData c'.classDataOff).staticFields =
    (t.classData c.classDataOff).staticFields
  instanceFields : (t'.classData c'.classDataOff).instanceFields =
    (t.classData c.classDataOff).instanceFields
  directMethods : List.Forall₂ (Installed recovered t t'.data)
    (indexed 0 (t.classData c.classDataOff).directMethods) c'.directMethods
  virtualMethods : List.Forall₂ (Installed recovered t t'.data)
    (indexed 0 (t.classData c.classDataOff).virtualMethods) c'.virtualMethods

/-- The output against the input. -/
structure Rebuilt (recovered : CodeMap) (d out : List UInt8) : Prop where
  classes : ∃ f f', parse d = .ok f ∧ parse out = .ok f' ∧
    List.Forall₂ (Relinked recovered f.toTables f'.toTables) f.classes f'.classes
  unchanged : ∀ i < d.length, ¬InFixedHeader i →
    (∀ k < (Tables.ofHeader d).classDefs.size,
      ((Tables.ofHeader d).dataOf k).Affected recovered →
      ¬((Tables.ofHeader d).classDefAt k + 24 ≤ i ∧ i < (Tables.ofHeader d).classDefAt k + 28)) →
    out[i]? = d[i]?

variable {d out : List UInt8} {recovered : CodeMap}

/-! ## The classes of the finished file -/

section Classes

variable (hd : WellFormed d) (hout : out.length < 2 ^ 32)
  (h : Spliced (appendCode d.length recovered.items []).2
    (appendCode d.length recovered.items []).1 (Tables.ofHeader d) out)

include hout h

/-- The class data offset of a class in the finished file leads to the patched class data, or is
zero where the input has none. -/
theorem dataOf_out (hd : DataApart d) {k : ℕ} (hk : k < (Tables.ofHeader d).classDefs.size) :
    (rd32 d ((Tables.ofHeader d).classDefAt k + 24) = 0 ∧
      rd32 out ((Tables.ofHeader d).classDefAt k + 24) = 0) ∨
    ∃ cd stop stop', ClassData.StandsIn d (rd32 d ((Tables.ofHeader d).classDefAt k + 24)) cd stop ∧
      rd32 d ((Tables.ofHeader d).classDefAt k + 24) ≠ 0 ∧
      rd32 out ((Tables.ofHeader d).classDefAt k + 24) ≠ 0 ∧
      ClassData.StandsIn out (rd32 out ((Tables.ofHeader d).classDefAt k + 24))
        (patchClass (appendCode d.length recovered.items []).2 cd) stop' := by
  have hagrees := h.agrees hd
  have hlength := hagrees.length_le
  have hsize : d.length < 2 ^ 32 := by omega
  obtain ⟨hlow, hinside⟩ := hd.classDefAt_le hk
  by_cases haffected : ((Tables.ofHeader d).dataOf k).Affected recovered
  · obtain ⟨r, hword, hblock⟩ := h.blocks k hk (patchCount_ne_zero_iff.mpr haffected)
    rcases hd.dataOf_cases hsize hk with ⟨-, hdata⟩ | ⟨cd, stop, hstands, hsection, hoff, hdata⟩
    · rw [hdata] at haffected
      obtain ⟨m, hm, -⟩ := haffected
      cases hm
    · rw [block, hdata] at hblock
      have hstream : ClassData.StandsIn out (d.length + r)
          (patchClass (appendCode d.length recovered.items []).2 cd)
          (d.length + r +
            ((patchClass (appendCode d.length recovered.items []).2 cd).numbers.flatMap
              wuleb).length) := by
        refine Stream.of_write (fun v hv => ?_) hblock
        have hlt := patchClass_numbers_lt (Stream.lt_of_mem hstands) v hv
        exact ⟨hlt, by omega⟩
      have hroom := hstream.le_length.1
      have hword' : rd32 out ((Tables.ofHeader d).classDefAt k + 24) = d.length + r := by
        rw [rd32_eq (by omega), wordAt_of_toBytes hword]
        exact Nat.mod_eq_of_lt (by change d.length + r < _; omega)
      exact .inr ⟨cd, stop, _, hstands, hoff, by omega, hword' ▸ hstream⟩
  · have hword : rd32 out ((Tables.ofHeader d).classDefAt k + 24) =
        rd32 d ((Tables.ofHeader d).classDefAt k + 24) := by
      refine rd32_congr (by omega) hlength fun i hi hlt => h.same i ?_ ?_ ?_
      · change i < d.length
        omega
      · unfold InFixedHeader
        omega
      · rintro ⟨j, hj, hpatched, hlo, hhi⟩
        have hjk : j = k := by
          unfold Tables.classDefAt at *
          omega
        exact haffected (hjk ▸ patchCount_ne_zero_iff.mp hpatched)
    rcases hd.dataOf_cases hsize hk with ⟨hzero, -⟩ | ⟨cd, stop, hstands, hsection, hoff, hdata⟩
    · exact .inl ⟨hzero, hword.trans hzero⟩
    · rw [hdata] at haffected
      refine .inr ⟨cd, stop, stop, hstands, hoff, by rwa [hword], ?_⟩
      rw [hword, patchClass_of_not_affected haffected]
      exact Stream.congr hstands (hagrees.sections _ _ hsection)

include hd

/-- The copy of a method has its code installed. -/
theorem installed (m : ℕ × EncodedMethod) :
    Installed recovered (Tables.ofHeader d) out m
      ((Tables.ofHeader out).method (m.1, patch (appendCode d.length recovered.items []).2 m)) := by
  have hmethod := (h.agrees hd.dataApart).methodAt_eq hd hout m.1
  unfold Tables.method
  rw [hmethod]
  refine ⟨⟨rfl, rfl, rfl⟩, fun hnot => ?_, fun hrecovers => ?_⟩
  · rw [(patch_of_not_recovers d.length hnot).1]
    exact ⟨rfl, rfl⟩
  · obtain ⟨code, k, hfind, heq, -, hplaced⟩ := patch_of_recovers d.length hrecovers
    obtain ⟨hstands, hinside⟩ := h.code code k hplaced
    change StandsAt out (d.length + k) code at hstands
    change d.length + k + code.length ≤ out.length at hinside
    have haligned := hplaced.aligned
    refine ⟨code, hfind, ?_⟩
    rw [heq]
    dsimp only
    rw [Nat.mod_eq_of_lt (show d.length + k < 2 ^ 32 by omega)]
    exact ⟨rfl, haligned, hstands, hinside⟩

theorem installed_methods (ms : List EncodedMethod) :
    List.Forall₂ (Installed recovered (Tables.ofHeader d) out) (indexed 0 ms)
      ((indexed 0 ((indexed 0 ms).map (patch (appendCode d.length recovered.items []).2))).map
        (Tables.ofHeader out).method) := by
  rw [indexed_map_patch, List.map_map, List.forall₂_map_right_iff, List.forall₂_same]
  exact fun m _ => installed hd hout h m

/-- Every class of the finished file is the class of the input with its code installed. -/
theorem relinked {k : ℕ} (hk : k < (Tables.ofHeader d).classDefs.size) :
    Relinked recovered (Tables.ofHeader d) (Tables.ofHeader out)
      ((Tables.ofHeader d).parseClassDef ((Tables.ofHeader d).classDefAt k))
      ((Tables.ofHeader out).parseClassDef ((Tables.ofHeader d).classDefAt k)) := by
  have hagrees := h.agrees hd.dataApart
  have hlength := hagrees.length_le
  obtain ⟨hlow, hinside⟩ := hd.dataApart.classDefAt_le hk
  have hword : ∀ j, j + 4 ≤ 24 → rd32 out ((Tables.ofHeader d).classDefAt k + j) =
      rd32 d ((Tables.ofHeader d).classDefAt k + j) := fun j hj =>
    rd32_congr (by omega) hlength fun i hi hlt => hagrees.classDefs k hk i (by omega) (by omega)
  have hword₀ := hword 0 (by decide)
  have hdescriptor : (Tables.ofHeader out).typeAt (rd32 out ((Tables.ofHeader d).classDefAt k)) =
      (Tables.ofHeader d).typeAt (rd32 d ((Tables.ofHeader d).classDefAt k)) := by
    rw [Nat.add_zero] at hword₀
    rw [hagrees.typeAt_eq hd hout, hword₀]
  have hsuper : (Tables.ofHeader out).typeAt (rd32 out ((Tables.ofHeader d).classDefAt k + 8)) =
      (Tables.ofHeader d).typeAt (rd32 d ((Tables.ofHeader d).classDefAt k + 8)) := by
    rw [hagrees.typeAt_eq hd hout, hword 8 (by decide)]
  have hdata := dataOf_out hout h hd.dataApart hk
  unfold Tables.parseClassDef
  rw [show (Tables.ofHeader out).data = out from rfl, show (Tables.ofHeader d).data = d from rfl]
  generalize rd32 d ((Tables.ofHeader d).classDefAt k + 24) = off at hdata ⊢
  generalize rd32 out ((Tables.ofHeader d).classDefAt k + 24) = off' at hdata ⊢
  rcases hdata with ⟨rfl, rfl⟩ | ⟨cd, stop, stop', hin, hoff, hoff', hin'⟩
  · exact ⟨⟨rfl, rfl⟩, hdescriptor, hsuper, hword 4 (by decide), rfl, rfl, .nil, .nil⟩
  · have hstop := hin.le_length.2
    have hstop' := hin'.le_length.2
    have hcd : (Tables.ofHeader d).classData off = cd := hin.classData_eq hoff (by omega)
    have hcd' := ClassData.StandsIn.classData_eq (t := Tables.ofHeader out) hin' hoff' (by omega)
    have hparse := ClassData.StandsIn.parseClassData_eq (t := Tables.ofHeader d) hin hoff (by omega)
    have hparse' :=
      ClassData.StandsIn.parseClassData_eq (t := Tables.ofHeader out) hin' hoff' (by omega)
    dsimp only
    rw [hparse, hparse']
    dsimp only
    refine ⟨?_, hdescriptor, hsuper, hword 4 (by decide), ?_, ?_, ?_, ?_⟩
    · rw [hcd]
      exact ⟨rfl, rfl⟩
    · rw [hcd, hcd']
      rfl
    · rw [hcd, hcd']
      rfl
    · rw [hcd]
      exact installed_methods hd hout h cd.directMethods
    · rw [hcd]
      exact installed_methods hd hout h cd.virtualMethods

end Classes

theorem parse_wellFormed (hd : WellFormed d) :
    parse d = .ok { Tables.ofHeader d with
      classes := (List.range (Tables.ofHeader d).classDefs.size).map fun i =>
        (Tables.ofHeader d).parseClassDef ((Tables.ofHeader d).classDefAt i) } :=
  parse_eq hd.size hd.magic hd.classDefsInside

theorem DataApart.classDefs_le (hd : DataApart d) :
    wordAt 4 d 0x64 + wordAt 4 d 0x60 * 32 ≤ d.length := by
  have hsize := hd.size
  have hinside := hd.classDefsInside
  rwa [Tables.classDefAt, show (Tables.ofHeader d).classDefs.size = wordAt 4 d 0x60 from
    rd32_eq (by omega), show (Tables.ofHeader d).classDefs.off = wordAt 4 d 0x64 from
    rd32_eq (by omega)] at hinside

theorem build_eq (adler32 : List UInt8 → ℕ) (recovered : CodeMap) (hsize : 0x70 ≤ d.length)
    (hmagic : d.take 4 = ascii "dex\n")
    (hinside : wordAt 4 d 0x64 + wordAt 4 d 0x60 * 32 ≤ d.length) :
    build adler32 d recovered = .ok
      ⟨fixHeader adler32 ((relink d recovered).d ++ (relink d recovered).tail),
        (relink d recovered).patchedMethods, (relink d recovered).patchedClasses⟩ := by
  rw [build, if_neg (by rw [hmagic]; simp; omega), if_neg (by omega)]

theorem build_wellFormed (adler32 : List UInt8 → ℕ) (recovered : CodeMap) (hd : WellFormed d) :
    build adler32 d recovered = .ok
      ⟨fixHeader adler32 ((relink d recovered).d ++ (relink d recovered).tail),
        (relink d recovered).patchedMethods, (relink d recovered).patchedClasses⟩ :=
  build_eq adler32 recovered hd.size hd.magic hd.dataApart.classDefs_le

/-- The output of the rebuilder agrees with the input in the header, so it is parsed alike. -/
theorem parse_out {newCodeOff : List (ℕ × ℕ)} {tail : List UInt8}
    (h : Spliced newCodeOff tail (Tables.ofHeader d) out) (hd : WellFormed d) :
    parse out = .ok { Tables.ofHeader out with
      classes := (List.range (Tables.ofHeader d).classDefs.size).map fun i =>
        (Tables.ofHeader out).parseClassDef ((Tables.ofHeader d).classDefAt i) } := by
  have hagrees := h.agrees hd.dataApart
  have hlength := hagrees.length_le
  have hsize := hd.size
  have hinside := hd.classDefsInside
  have hmagic : out.take 4 = ascii "dex\n" := by
    rw [← hd.magic]
    refine List.ext_getElem? fun i => ?_
    by_cases hi : i < 4
    · rw [List.getElem?_take_of_lt hi, List.getElem?_take_of_lt hi, hagrees.header i (.inl hi)]
    · rw [List.getElem?_take_eq_none (by omega), List.getElem?_take_eq_none (by omega)]
  have hdefs : (Tables.ofHeader out).classDefs = (Tables.ofHeader d).classDefs := by
    rw [hagrees.ofHeader_eq hd.size]
  unfold Tables.classDefAt at hinside
  rw [parse_eq (by omega) hmagic (by rw [hdefs]; omega), hdefs]
  rfl

/-- For every well-formed DEX and every map of code items, the rebuilder returns a file, and if that
is below 4 GiB it has the classes of the input with the code installed, and changes nothing else. -/
theorem build_rebuilt (adler32 : List UInt8 → ℕ) (d : List UInt8) (recovered : CodeMap)
    (hd : WellFormed d) :
    ∃ built, build adler32 d recovered = .ok built ∧
      (built.bytes.length < 2 ^ 32 → Rebuilt recovered d built.bytes) := by
  refine ⟨_, build_wellFormed adler32 recovered hd, fun hout => ?_⟩
  dsimp only at hout ⊢
  have hlength : d.length < 2 ^ 32 := by
    rw [length_fixHeader_relink adler32 hd.size hd.dataApart.classDefs_le] at hout
    omega
  have h := spliced_fixHeader adler32 recovered hd.dataApart hlength
  refine ⟨⟨_, _, parse_wellFormed hd, parse_out h hd, ?_⟩, fun i hi hfixed hwords => ?_⟩
  · rw [List.forall₂_map_left_iff, List.forall₂_map_right_iff, List.forall₂_same]
    exact fun k hk => relinked hd hout h (List.mem_range.mp hk)
  · refine h.same i hi hfixed ?_
    rintro ⟨k, hk, hpatched, hword⟩
    exact hwords k hk (patchCount_ne_zero_iff.mp hpatched) hword

/-- A file with one class, whose only method is native. -/
def tinyDex : List UInt8 :=
  ascii "dex\n035" ++ List.replicate 25 0 ++
    [0xc7, 0x70, 0x12345678, 0, 0, 0, 3, 0x70, 1, 0x7c, 1, 0x80, 0, 0, 1, 0x8c, 1, 0x94, 0x13,
      0xb4].flatMap (toBytes 4) ++
    -- the ids of the strings, the type, the prototype and the method
    [0xbc, 0xc1, 0xc4, 0, 1, 0, 0, 0, 2].flatMap (toBytes 4) ++
    -- the class definition
    [0, 1, 0xffffffff, 0, 0, 0, 0xb4, 0].flatMap (toBytes 4) ++
    -- the class data and the strings
    [0, 0, 1, 0, 0, 0x101, 0].flatMap wuleb ++
    3 :: ascii "LA;" ++ [0] ++ 1 :: ascii "V" ++ [0] ++ 1 :: ascii "f" ++ [0]

theorem isSection_tinyDex {lo hi : ℕ} (hlo : 0xb4 ≤ lo) (hhi : hi ≤ 0xc7) :
    IsSection tinyDex lo hi := by
  have hlength : tinyDex.length = 0xc7 := by decide +kernel
  have hdefs : (Tables.ofHeader tinyDex).classDefAt (Tables.ofHeader tinyDex).classDefs.size =
      0xb4 := by decide +kernel
  exact ⟨by omega, by omega, .inr (by omega)⟩

theorem wellFormed_tinyDex : WellFormed tinyDex := by
  have htable : ∀ lo hi, 0x70 ≤ lo → hi ≤ 0x94 → IsSection tinyDex lo hi := by
    intro lo hi hlo hhi
    have hlength : tinyDex.length = 0xc7 := by decide +kernel
    have hdefs : (Tables.ofHeader tinyDex).classDefs.off = 0x94 := by decide +kernel
    exact ⟨hlo, by omega, .inl (by omega)⟩
  have hstring : ∀ o x text, 0xb4 ≤ o → o + (x :: (text ++ [0])).length ≤ 0xc7 → x.toNat < 128 →
      (0 : UInt8) ∉ text → (x :: (text ++ [0])) <+: tinyDex.drop o → IsString tinyDex o :=
    fun o x text hlo hhi hx htext hstands =>
      ⟨[x], x.toNat, text, .last hx, by simp, htext, hstands, isSection_tinyDex hlo hhi⟩
  have hcd : ClassData.StandsIn tinyDex 0xb4 ⟨[], [], [⟨0, 0x101, 0⟩], []⟩ 0xbc := by
    have hstands : StandsAt tinyDex 0xb4 ([0, 0, 1, 0, 0, 0x101, 0].flatMap wuleb) := by
      change _ <+: _
      decide +kernel
    exact Stream.of_write (by decide) hstands
  refine ⟨by decide +kernel, by decide +kernel, .inr (by decide +kernel), by decide +kernel,
    .inr (htable _ _ (by decide +kernel) (by decide +kernel)),
    .inr (htable _ _ (by decide +kernel) (by decide +kernel)),
    .inr (htable _ _ (by decide +kernel) (by decide +kernel)),
    .inr (htable _ _ (by decide +kernel) (by decide +kernel)), fun k hk => ?_, fun k hk => ?_⟩
  · rw [show (Tables.ofHeader tinyDex).stringIds.size = 3 by decide +kernel] at hk
    rw [show (Tables.ofHeader tinyDex).stringIds.off = 0x70 by decide +kernel]
    obtain rfl | rfl | rfl : k = 0 ∨ k = 1 ∨ k = 2 := by omega
    · rw [show rd32 tinyDex (0x70 + 0 * 4) = 0xbc by decide +kernel]
      exact hstring 0xbc 3 (ascii "LA;") (by decide) (by decide) (by decide) (by decide)
        (by decide +kernel)
    · rw [show rd32 tinyDex (0x70 + 1 * 4) = 0xc1 by decide +kernel]
      exact hstring 0xc1 1 (ascii "V") (by decide) (by decide) (by decide) (by decide)
        (by decide +kernel)
    · rw [show rd32 tinyDex (0x70 + 2 * 4) = 0xc4 by decide +kernel]
      exact hstring 0xc4 1 (ascii "f") (by decide) (by decide) (by decide) (by decide)
        (by decide +kernel)
  · rw [show (Tables.ofHeader tinyDex).classDefs.size = 1 by decide +kernel] at hk
    obtain rfl : k = 0 := by omega
    rw [show rd32 tinyDex ((Tables.ofHeader tinyDex).classDefAt 0 + 24) = 0xb4 by decide +kernel]
    exact .inr ⟨_, _, hcd, isSection_tinyDex (by decide) (by decide)⟩

/-- The code item of a method that returns at once. -/
def returnVoid : List UInt8 := [1, 0, 1, 0, 0, 0, 0, 0, 0, 0, 0, 0, 1, 0, 0, 0, 0x0e, 0]

/-- The file with its native method recovered. -/
theorem build_rebuilt_tinyDex :
    ∃ built, build (fun _ => 1) tinyDex (CodeMap.empty.setCode 0 returnVoid) = .ok built ∧
      Rebuilt (CodeMap.empty.setCode 0 returnVoid) tinyDex built.bytes := by
  obtain ⟨built, hbuild, hrebuilt⟩ := build_rebuilt (fun _ => 1) tinyDex
    (CodeMap.empty.setCode 0 returnVoid) wellFormed_tinyDex
  refine ⟨built, hbuild, hrebuilt ?_⟩
  have heq := hbuild.symm.trans (build_wellFormed _ _ wellFormed_tinyDex)
  obtain rfl := Except.ok.inj heq
  dsimp only
  rw [length_fixHeader_relink _ wellFormed_tinyDex.size wellFormed_tinyDex.dataApart.classDefs_le]
  decide +kernel

end Vardoger.Dex
