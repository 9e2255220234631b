import Vardoger.Dex.Relink
import Vardoger.Dex.WellFormed

/-!
# The loop of the rebuilder

Each step of the loop over the class definitions changes at most one word of the file, and appends.
After the last one the header is recomputed. The finished file is the input with the class data
offsets of the patched classes repointed to their rebuilt class data.
-/

namespace Vardoger.Dex

open Bytes LittleEndian Uleb128 DexRebuilder

/-- The bytes of the header that are recomputed. -/
def InFixedHeader (i : ℕ) : Prop := (0x08 ≤ i ∧ i < 0x24) ∨ (0x68 ≤ i ∧ i < 0x6c)

/-! ## The header -/

namespace DexRebuilder

theorem length_sha1 (m : List UInt8) : (sha1 m).length = 20 := by
  simp [sha1, Sha1.digest, Sha1.wordBytes]

/-- Only the four fields of the header change. -/
theorem sameOutside_fixHeader (adler32 : List UInt8 → ℕ) {d : List UInt8} (hd : 0x70 ≤ d.length) :
    SameOutside InFixedHeader d (fixHeader adler32 d) := by
  refine (((SameOutside.refl _ d).overwrite ?_ ?_).overwrite ?_ ?_ |>.overwrite ?_ ?_).overwrite
    ?_ ?_
  all_goals
    simp only [length_toBytes, length_sha1, InFixedHeader]
    omega

/-- A step of the loop keeps the length of the file. -/
theorem length_relinkClass {newCodeOff : List (ℕ × ℕ)} {cdOff i : ℕ} {s : Progress}
    (h : cdOff + i * 32 + 28 ≤ s.d.length) :
    (relinkClass newCodeOff cdOff s i).d.length = s.d.length := by
  unfold relinkClass
  dsimp only
  split
  · rfl
  · split
    · rfl
    · exact length_overwrite (by rw [length_toBytes]; omega)

theorem length_relink (d : List UInt8) (recovered : CodeMap)
    (h : wordAt 4 d 0x64 + wordAt 4 d 0x60 * 32 ≤ d.length) :
    (relink d recovered).d.length = d.length := by
  have hloop : ∀ n ≤ wordAt 4 d 0x60, ((List.range n).foldl
      (relinkClass (appendCode d.length recovered.items []).2 (wordAt 4 d 0x64))
      ⟨d, (appendCode d.length recovered.items []).1, 0, 0⟩).d.length = d.length := by
    intro n
    induction n with
    | zero => exact fun _ => rfl
    | succ n ih =>
      intro hn
      have hprev := ih (by omega)
      rw [List.range_succ, List.foldl_append, List.foldl_cons, List.foldl_nil,
        length_relinkClass (by omega), hprev]
  exact hloop _ (Nat.le_refl _)

/-- The length of the finished file. -/
theorem length_fixHeader_relink (adler32 : List UInt8 → ℕ) {d : List UInt8} {recovered : CodeMap}
    (hd : 0x70 ≤ d.length) (h : wordAt 4 d 0x64 + wordAt 4 d 0x60 * 32 ≤ d.length) :
    (fixHeader adler32 ((relink d recovered).d ++ (relink d recovered).tail)).length =
      d.length + (relink d recovered).tail.length := by
  have hlength := length_relink d recovered h
  rw [(sameOutside_fixHeader adler32 (by rw [List.length_append]; omega)).length_eq,
    List.length_append, hlength]

end DexRebuilder

/-! ## The loop over the class definitions -/

section Loop

variable {d : List UInt8} {recovered : CodeMap}

/-- The position is part of the class data offset of one of the first classes, and that class is
patched. -/
def Repointed (newCodeOff : List (ℕ × ℕ)) (t : Tables) (n i : ℕ) : Prop :=
  ∃ k < n, patchCount newCodeOff (t.dataOf k) ≠ 0 ∧ t.classDefAt k + 24 ≤ i ∧
    i < t.classDefAt k + 28

/-- The rebuilt class data of a class. -/
def block (newCodeOff : List (ℕ × ℕ)) (t : Tables) (k : ℕ) : List UInt8 :=
  (patchClass newCodeOff (t.dataOf k)).numbers.flatMap wuleb

/-- The state after the first `n` class definitions: the file differs in the class data offsets of
the patched ones, and those lead to the rebuilt class data among the appended bytes. -/
structure LoopInv (newCodeOff : List (ℕ × ℕ)) (tail : List UInt8) (t : Tables) (n : ℕ)
    (s : Progress) : Prop where
  same : SameOutside (Repointed newCodeOff t n) t.data s.d
  tail : tail <+: s.tail
  blocks : ∀ k < n, patchCount newCodeOff (t.dataOf k) ≠ 0 → ∃ r,
    StandsAt s.d (t.classDefAt k + 24) (toBytes 4 (t.data.length + r)) ∧
      StandsAt s.tail r (block newCodeOff t k)

variable {newCodeOff : List (ℕ × ℕ)} {tail : List UInt8} {n : ℕ} {s : Progress}

theorem Repointed.succ {t : Tables} {i : ℕ} (h : Repointed newCodeOff t n i) :
    Repointed newCodeOff t (n + 1) i := by
  obtain ⟨k, hk, hrest⟩ := h
  exact ⟨k, by omega, hrest⟩

/-- A class without methods to patch needs nothing. -/
theorem LoopInv.skip {t : Tables} (h : LoopInv newCodeOff tail t n s)
    (hcount : patchCount newCodeOff (t.dataOf n) = 0) : LoopInv newCodeOff tail t (n + 1) s := by
  refine ⟨h.same.mono fun i => Repointed.succ, h.tail, fun k hk hpatched => ?_⟩
  have hne : k ≠ n := fun heq => hpatched (heq ▸ hcount)
  exact h.blocks k (by omega) hpatched

/-- A class with methods to patch is repointed to the block that is appended for it. -/
theorem LoopInv.patch {t : Tables} (h : LoopInv newCodeOff tail t n s)
    (hinside : t.classDefAt n + 28 ≤ t.data.length)
    (hcount : patchCount newCodeOff (t.dataOf n) ≠ 0) :
    LoopInv newCodeOff tail t (n + 1)
      { d := overwrite s.d (t.classDefAt n + 24)
          (toBytes 4 (s.d.length + (align4 s.d.length s.tail).length))
        tail := align4 s.d.length s.tail ++ block newCodeOff t n
        patchedMethods := s.patchedMethods + patchCount newCodeOff (t.dataOf n)
        patchedClasses := s.patchedClasses + 1 } := by
  have hlength := h.same.length_eq
  have hgrow : s.tail <+: align4 s.d.length s.tail ++ block newCodeOff t n :=
    (align4_spec _ _).1.trans (List.prefix_append _ _)
  refine ⟨?_, h.tail.trans hgrow, fun k hk hpatched => ?_⟩
  · refine (h.same.mono fun i => Repointed.succ).overwrite ?_ fun i hi hlt => ?_
    · rw [length_toBytes]
      omega
    · rw [length_toBytes] at hlt
      exact ⟨n, by omega, hcount, hi, by omega⟩
  · by_cases hkn : k < n
    · obtain ⟨r, hword, hblock⟩ := h.blocks k hkn hpatched
      refine ⟨r, hword.congr fun i hi hlt => ?_, hblock.mono hgrow⟩
      rw [length_toBytes] at hlt
      unfold Tables.classDefAt at *
      rw [getElem?_overwrite (by rw [length_toBytes]; omega) (by omega)]
    · obtain rfl : k = n := by omega
      refine ⟨(align4 s.d.length s.tail).length, ?_, ?_⟩
      · rw [← hlength]
        exact standsAt_overwrite (by omega)
      · rw [← List.append_nil (_ ++ _)]
        exact standsAt_of_append _ _ _

theorem patchCount_empty (newCodeOff : List (ℕ × ℕ)) :
    patchCount newCodeOff ⟨[], [], [], []⟩ = 0 := rfl

theorem DataApart.classDefAt_le (hd : DataApart d) {k : ℕ}
    (hk : k < (Tables.ofHeader d).classDefs.size) :
    0x70 ≤ (Tables.ofHeader d).classDefAt k ∧ (Tables.ofHeader d).classDefAt k + 32 ≤ d.length := by
  have hoff := hd.classDefs.resolve_left (by omega)
  have hinside := hd.classDefsInside
  unfold Tables.classDefAt at *
  omega

/-- The class data of a class, which the loop finds at its offset. -/
theorem DataApart.dataOf_cases (hd : DataApart d) (hsize : d.length < 2 ^ 32) {k : ℕ}
    (hk : k < (Tables.ofHeader d).classDefs.size) :
    (rd32 d ((Tables.ofHeader d).classDefAt k + 24) = 0 ∧
      (Tables.ofHeader d).dataOf k = ⟨[], [], [], []⟩) ∨
    ∃ cd stop, ClassData.StandsIn d (rd32 d ((Tables.ofHeader d).classDefAt k + 24)) cd stop ∧
      IsSection d (rd32 d ((Tables.ofHeader d).classDefAt k + 24)) stop ∧
      rd32 d ((Tables.ofHeader d).classDefAt k + 24) ≠ 0 ∧ (Tables.ofHeader d).dataOf k = cd := by
  rcases hd.classData k hk with hzero | ⟨cd, stop, hstands, hsection⟩
  · refine .inl ⟨hzero, ?_⟩
    rw [Tables.dataOf, show (Tables.ofHeader d).data = d from rfl, hzero]
    rfl
  · have hheader := hsection.header
    have hstop := hsection.inside
    have hoff : rd32 d ((Tables.ofHeader d).classDefAt k + 24) ≠ 0 := by omega
    exact .inr ⟨cd, stop, hstands, hsection, hoff,
      ClassData.StandsIn.classData_eq hstands hoff (by omega)⟩

/-- The class data offset of a class that is still to come. -/
theorem LoopInv.wordAt_eq (hd : DataApart d) (h : LoopInv newCodeOff tail (Tables.ofHeader d) n s)
    (hn : n < (Tables.ofHeader d).classDefs.size) :
    wordAt 4 s.d ((Tables.ofHeader d).classDefAt n + 24) =
      rd32 d ((Tables.ofHeader d).classDefAt n + 24) := by
  obtain ⟨hheader, hinside⟩ := hd.classDefAt_le hn
  rw [rd32_eq (by omega)]
  refine wordAt_congr fun i hi hlt => h.same.same i ?_
  rintro ⟨k, hk, -, hlo, hhi⟩
  unfold Tables.classDefAt at *
  omega

/-- The class data beside the class definitions is untouched. -/
theorem LoopInv.standsIn (h : LoopInv newCodeOff tail (Tables.ofHeader d) n s)
    (hn : n < (Tables.ofHeader d).classDefs.size) {off stop : ℕ} {cd : ClassData}
    (hstands : cd.StandsIn d off stop) (hsection : IsSection d off stop) :
    cd.StandsIn s.d off stop := by
  refine Stream.congr hstands fun i hi hlt => h.same.same i ?_
  rintro ⟨k, hk, -, hlow, hhigh⟩
  have hapart := hsection.apart
  unfold Tables.classDefAt at *
  omega

/-- What a step of the loop does: a class with methods to patch is repointed. -/
theorem LoopInv.relinkClass_eq (hd : DataApart d) (hsize : d.length < 2 ^ 32)
    (h : LoopInv newCodeOff tail (Tables.ofHeader d) n s)
    (hn : n < (Tables.ofHeader d).classDefs.size) :
    relinkClass newCodeOff (Tables.ofHeader d).classDefs.off s n =
      if patchCount newCodeOff ((Tables.ofHeader d).dataOf n) = 0 then s
      else
        { d := overwrite s.d ((Tables.ofHeader d).classDefAt n + 24)
            (toBytes 4 (s.d.length + (align4 s.d.length s.tail).length))
          tail := align4 s.d.length s.tail ++ block newCodeOff (Tables.ofHeader d) n
          patchedMethods :=
            s.patchedMethods + patchCount newCodeOff ((Tables.ofHeader d).dataOf n)
          patchedClasses := s.patchedClasses + 1 } := by
  have hlength : s.d.length = d.length := h.same.length_eq
  unfold relinkClass
  dsimp only
  rw [show (Tables.ofHeader d).classDefs.off + n * 32 = (Tables.ofHeader d).classDefAt n from rfl,
    h.wordAt_eq hd hn]
  rcases hd.dataOf_cases hsize hn with ⟨hzero, hdata⟩ | ⟨cd, stop, hstands, hsection, hoff, hdata⟩
  · rw [if_pos (.inl hzero), hdata, if_pos (patchCount_empty newCodeOff)]
  · have hstop := hsection.inside
    have hstands' := h.standsIn hn hstands hsection
    have hstart := hstands'.le_length.1
    rw [if_neg (by omega), rebuildClass_eq hstands' (by omega), ← hdata]
    rfl

/-- One class definition. -/
theorem LoopInv.step (hd : DataApart d) (hsize : d.length < 2 ^ 32)
    (h : LoopInv newCodeOff tail (Tables.ofHeader d) n s)
    (hn : n < (Tables.ofHeader d).classDefs.size) :
    LoopInv newCodeOff tail (Tables.ofHeader d) (n + 1)
      (relinkClass newCodeOff (Tables.ofHeader d).classDefs.off s n) := by
  rw [h.relinkClass_eq hd hsize hn]
  have hinside := (hd.classDefAt_le hn).2
  split
  next hcount => exact h.skip hcount
  next hcount => exact h.patch (by change _ ≤ d.length; omega) hcount

/-- The loop over the first `n` class definitions. -/
def relinkFirst (recovered : CodeMap) (d : List UInt8) (n : ℕ) : Progress :=
  (List.range n).foldl
    (relinkClass (appendCode d.length recovered.items []).2 (Tables.ofHeader d).classDefs.off)
    ⟨d, (appendCode d.length recovered.items []).1, 0, 0⟩

theorem relinkFirst_succ (recovered : CodeMap) (d : List UInt8) (n : ℕ) :
    relinkFirst recovered d (n + 1) = relinkClass (appendCode d.length recovered.items []).2
      (Tables.ofHeader d).classDefs.off (relinkFirst recovered d n) n := by
  rw [relinkFirst, List.range_succ, List.foldl_append, List.foldl_cons, List.foldl_nil,
    ← relinkFirst]

theorem relink_eq (recovered : CodeMap) (hheader : 0x70 ≤ d.length) :
    relink d recovered = relinkFirst recovered d (Tables.ofHeader d).classDefs.size := by
  rw [relinkFirst,
    show (Tables.ofHeader d).classDefs.size = wordAt 4 d 0x60 from rd32_eq (by omega),
    show (Tables.ofHeader d).classDefs.off = wordAt 4 d 0x64 from rd32_eq (by omega)]
  rfl

theorem loopInv_relinkFirst (recovered : CodeMap) (hd : DataApart d) (hsize : d.length < 2 ^ 32)
    (n : ℕ) (hn : n ≤ (Tables.ofHeader d).classDefs.size) :
    LoopInv (appendCode d.length recovered.items []).2 (appendCode d.length recovered.items []).1
      (Tables.ofHeader d) n (relinkFirst recovered d n) := by
  induction n with
  | zero => exact ⟨SameOutside.refl _ _, List.prefix_rfl, fun k hk => by omega⟩
  | succ n ih =>
    rw [relinkFirst_succ]
    exact (ih (by omega)).step hd hsize (by omega)

/-- All class definitions. -/
theorem loopInv_relink (recovered : CodeMap) (hd : DataApart d) (hsize : d.length < 2 ^ 32) :
    LoopInv (appendCode d.length recovered.items []).2 (appendCode d.length recovered.items []).1
      (Tables.ofHeader d) (Tables.ofHeader d).classDefs.size (relink d recovered) := by
  rw [relink_eq recovered hd.size]
  exact loopInv_relinkFirst recovered hd hsize _ le_rfl

/-- The counter holds the methods patched so far. -/
theorem patchedMethods_relinkFirst (recovered : CodeMap) (hd : DataApart d)
    (hsize : d.length < 2 ^ 32) (n : ℕ) (hn : n ≤ (Tables.ofHeader d).classDefs.size) :
    (relinkFirst recovered d n).patchedMethods = ((List.range n).map fun k => patchCount
      (appendCode d.length recovered.items []).2 ((Tables.ofHeader d).dataOf k)).sum := by
  induction n with
  | zero => rfl
  | succ n ih =>
    have hinv := loopInv_relinkFirst recovered hd hsize n (by omega)
    rw [relinkFirst_succ, hinv.relinkClass_eq hd hsize (by omega), List.range_succ, List.map_append,
      List.sum_append, ← ih (by omega), List.map_singleton, List.sum_singleton]
    split
    next hcount => rw [hcount, Nat.add_zero]
    next => rfl

end Loop

/-! ## The finished file -/

/-- The finished file: the input with its class data offsets repointed, the code items and the
rebuilt class data behind it, and a new header. -/
structure Spliced (newCodeOff : List (ℕ × ℕ)) (tail : List UInt8) (t : Tables)
    (out : List UInt8) : Prop where
  length_le : t.data.length ≤ out.length
  same : ∀ i < t.data.length, ¬InFixedHeader i →
    ¬Repointed newCodeOff t t.classDefs.size i → out[i]? = t.data[i]?
  code : ∀ code k, Placed t.data.length tail code k → StandsAt out (t.data.length + k) code ∧
    t.data.length + k + code.length ≤ out.length
  blocks : ∀ k < t.classDefs.size, patchCount newCodeOff (t.dataOf k) ≠ 0 → ∃ r,
    StandsAt out (t.classDefAt k + 24) (toBytes 4 (t.data.length + r)) ∧
      StandsAt out (t.data.length + r) (block newCodeOff t k)

variable {d out : List UInt8} {recovered : CodeMap}

theorem spliced_fixHeader (adler32 : List UInt8 → ℕ) (recovered : CodeMap) (hd : DataApart d)
    (hsize : d.length < 2 ^ 32) :
    Spliced (appendCode d.length recovered.items []).2 (appendCode d.length recovered.items []).1
      (Tables.ofHeader d)
      (fixHeader adler32 ((relink d recovered).d ++ (relink d recovered).tail)) := by
  have hinv := loopInv_relink recovered hd hsize
  have hlength : (relink d recovered).d.length = d.length := hinv.same.length_eq
  have hheader := hd.size
  have hfix := sameOutside_fixHeader adler32
    (d := (relink d recovered).d ++ (relink d recovered).tail)
    (by rw [List.length_append, hlength]; omega)
  have hbehind : ∀ r x, StandsAt (relink d recovered).tail r x →
      StandsAt (fixHeader adler32 ((relink d recovered).d ++ (relink d recovered).tail))
        (d.length + r) x := by
    intro r x hx
    have hjoined :
        StandsAt ((relink d recovered).d ++ (relink d recovered).tail) (d.length + r) x := by
      rw [StandsAt, ← hlength, List.drop_length_add_append]
      exact hx
    refine hjoined.congr fun i hi hlt => hfix.same i ?_
    unfold InFixedHeader
    omega
  refine ⟨?_, ?_, ?_, ?_⟩
  · rw [hfix.length_eq, List.length_append, hlength]
    exact Nat.le_add_right _ _
  · intro i hi hfixed hrepointed
    rw [hfix.same i hfixed, List.getElem?_append_left (by rw [hlength]; exact hi)]
    exact hinv.same.same i hrepointed
  · intro code k hplaced
    have hplaced' := hplaced.mono hinv.tail
    refine ⟨hbehind k code hplaced'.stands, ?_⟩
    rw [hfix.length_eq, List.length_append, hlength]
    have hinside := hplaced'.inside
    change d.length + k + code.length ≤ _
    omega
  · intro k hk hpatched
    obtain ⟨r, hword, hblock⟩ := hinv.blocks k hk hpatched
    obtain ⟨hlow, -⟩ := hd.classDefAt_le hk
    refine ⟨r, ?_, hbehind r _ hblock⟩
    refine (hword.mono (List.prefix_append _ _)).congr fun i hi hlt => hfix.same i ?_
    unfold InFixedHeader
    omega

/-- The finished file agrees with the input on what the parser reads. -/
theorem Spliced.agrees {newCodeOff : List (ℕ × ℕ)} {tail : List UInt8}
    (h : Spliced newCodeOff tail (Tables.ofHeader d) out) (hd : DataApart d) : Agrees d out := by
  have hsize := hd.size
  have hsame : ∀ i < d.length, ¬InFixedHeader i →
      (∀ k < (Tables.ofHeader d).classDefs.size, i < (Tables.ofHeader d).classDefAt k + 24 ∨
        (Tables.ofHeader d).classDefAt k + 28 ≤ i) → out[i]? = d[i]? := by
    intro i hi hfixed hwords
    refine h.same i hi hfixed ?_
    rintro ⟨k, hk, -, hlo, hhi⟩
    have hword := hwords k hk
    omega
  refine ⟨h.length_le, fun i hi => ?_, fun lo hi hsection i hlo hhi => ?_, fun k hk i hlo hhi => ?_⟩
  · refine hsame i (by omega) (by unfold InFixedHeader; omega) fun k hk => .inl ?_
    have hlow := (hd.classDefAt_le hk).1
    omega
  · have hheader := hsection.header
    have hinside := hsection.inside
    refine hsame i (by omega) (by unfold InFixedHeader; omega) fun k hk => ?_
    have hapart := hsection.apart
    unfold Tables.classDefAt at *
    omega
  · obtain ⟨hlow, hinside⟩ := hd.classDefAt_le hk
    refine hsame i (by omega) (by unfold InFixedHeader; omega) fun j hj => ?_
    unfold Tables.classDefAt at *
    omega

end Vardoger.Dex
