import Vardoger.Dex.ClassData
import Vardoger.Dex.Rebuilder

/-!
# What the rebuilder appends

The code items stand in the appended bytes at the offsets that are remembered for them. The rebuilt
block of a class is the class data it was read from, with the access flags and code offsets of
the patched methods replaced; these are the native methods with recovered code.
-/

namespace Vardoger.Dex.DexRebuilder

open Bytes Uleb128

/-! ## Code items -/

theorem align4_spec (size : ℕ) (tail : List UInt8) :
    tail <+: align4 size tail ∧ (size + (align4 size tail).length) % 4 = 0 := by
  refine ⟨List.prefix_append _ _, ?_⟩
  simp only [align4, List.length_append, List.length_replicate]
  omega

/-- The appended bytes grow. -/
theorem prefix_appendCode (size : ℕ) (items : List (ℕ × List UInt8)) (tail : List UInt8) :
    tail <+: (appendCode size items tail).1 := by
  induction items generalizing tail with
  | nil => exact List.prefix_rfl
  | cons item items ih =>
    have hgrow := ih (align4 size tail ++ item.2)
    exact ((align4_spec size tail).1.trans (List.prefix_append _ _)).trans hgrow

/-- The position of a code item: aligned in the file, and inside the appended bytes. -/
structure Placed (size : ℕ) (tail : List UInt8) (code : List UInt8) (k : ℕ) : Prop where
  aligned : (size + k) % 4 = 0
  stands : StandsAt tail k code
  inside : k + code.length ≤ tail.length

theorem Placed.mono {size k : ℕ} {tail tail' code : List UInt8} (h : Placed size tail code k)
    (htail : tail <+: tail') : Placed size tail' code k :=
  ⟨h.aligned, h.stands.mono htail, h.inside.trans htail.length_le⟩

/-- A method has an offset if and only if it has a code item, which then stands there. -/
theorem lookup_appendCode (size : ℕ) (items : List (ℕ × List UInt8)) (tail : List UInt8)
    (idx : ℕ) :
    (items.lookup idx = none ∧ (appendCode size items tail).2.lookup idx = none) ∨
      ∃ code k, items.lookup idx = some code ∧
        (appendCode size items tail).2.lookup idx = some ((size + k) % 2 ^ 32) ∧
        Placed size (appendCode size items tail).1 code k := by
  induction items generalizing tail with
  | nil => exact .inl ⟨rfl, rfl⟩
  | cons item items ih =>
    obtain ⟨key, code⟩ := item
    by_cases hkey : idx = key
    · subst hkey
      refine .inr
        ⟨code, (align4 size tail).length, List.lookup_cons_self, List.lookup_cons_self, ?_⟩
      have hplaced : Placed size (align4 size tail ++ code) code (align4 size tail).length := by
        refine ⟨(align4_spec size tail).2, ?_, by rw [List.length_append]⟩
        rw [← List.append_nil (_ ++ code)]
        exact standsAt_of_append _ _ _
      exact hplaced.mono (prefix_appendCode size items _)
    · have hne : (idx == key) = false := by simpa using hkey
      have hrest := ih (align4 size tail ++ code)
      simp only [appendCode, List.lookup_cons, hne]
      exact hrest

/-! ## Class data -/

/-- The new flags and code offset of a method. -/
def patch (newCodeOff : List (ℕ × ℕ)) (m : ℕ × EncodedMethod) : EncodedMethod :=
  let (acc, coff, _) := patchMethod newCodeOff m.1 m.2.access m.2.codeOff
  ⟨m.2.diff, acc, coff⟩

def isPatched (newCodeOff : List (ℕ × ℕ)) (m : ℕ × EncodedMethod) : Bool :=
  (patchMethod newCodeOff m.1 m.2.access m.2.codeOff).2.2

/-- The class data with its methods patched. -/
def patchClass (newCodeOff : List (ℕ × ℕ)) (cd : ClassData) : ClassData :=
  { cd with
    directMethods := (indexed 0 cd.directMethods).map (patch newCodeOff)
    virtualMethods := (indexed 0 cd.virtualMethods).map (patch newCodeOff) }

/-- The number of methods to patch. -/
def patchCount (newCodeOff : List (ℕ × ℕ)) (cd : ClassData) : ℕ :=
  (indexed 0 cd.directMethods).countP (isPatched newCodeOff) +
    (indexed 0 cd.virtualMethods).countP (isPatched newCodeOff)

theorem length_indexed (midx : ℕ) (ms : List EncodedMethod) :
    (indexed midx ms).length = ms.length := by
  induction ms generalizing midx with
  | nil => rfl
  | cons m ms ih => simp only [indexed, List.length_cons, ih]

/-- Patching keeps the differences, so the indices stay. -/
theorem indexed_map_patch (newCodeOff : List (ℕ × ℕ)) (midx : ℕ) (ms : List EncodedMethod) :
    indexed midx ((indexed midx ms).map (patch newCodeOff)) =
      (indexed midx ms).map fun m => (m.1, patch newCodeOff m) := by
  induction ms generalizing midx with
  | nil => rfl
  | cons m ms ih =>
    rw [indexed, List.map_cons, indexed, List.map_cons]
    have hdiff : (patch newCodeOff ((midx + m.diff) % 2 ^ 32, m)).diff = m.diff := rfl
    rw [hdiff, ih]

section Streams

variable {d : List UInt8} {p q cdo stop : ℕ} {vs : List ℕ} {newCodeOff : List (ℕ × ℕ)}

theorem reads_uleb (hq : q < 2 ^ 32) : Stream.Reads 32 5 d q (uleb d) :=
  fun _ _ _ h => h.read_eq (Nat.min_le_right _ _) (by omega)

theorem copyFields_snd (d : List UInt8) (n p : ℕ) :
    (copyFields d n p).2 = skipPairs (uleb d) n p := by
  induction n generalizing p with
  | zero => rfl
  | succ n ih => rw [copyFields, skipPairs, ← ih]

theorem copyFields_of_stream {fs : List EncodedField}
    (h : Stream 32 5 d p (fs.flatMap EncodedField.numbers ++ vs) q) (hq : q < 2 ^ 32) :
    copyFields d fs.length p =
      ((fs.flatMap EncodedField.numbers).flatMap wuleb, skipPairs (uleb d) fs.length p) := by
  induction fs generalizing p with
  | nil => rfl
  | cons f fs ih =>
    obtain ⟨p₁, hdiff, h₁⟩ := reads_uleb hq _ _ _ h
    obtain ⟨p₂, haccess, h₂⟩ := reads_uleb hq _ _ _ h₁
    rw [List.length_cons, copyFields, skipPairs, hdiff]
    dsimp only
    rw [haccess]
    dsimp only
    rw [ih h₂, List.flatMap_cons, List.flatMap_append]
    simp only [EncodedField.numbers, List.flatMap_cons, List.flatMap_nil, List.append_nil]

/-- The rebuilder writes the records it visits, with their patches. -/
theorem copyMethods_eq (newCodeOff : List (ℕ × ℕ)) (d : List UInt8) (n midx p : ℕ) :
    copyMethods newCodeOff d n midx p =
      ((((visits (uleb d) n midx p).1.map (patch newCodeOff)).flatMap
          EncodedMethod.numbers).flatMap wuleb,
        (visits (uleb d) n midx p).1.countP (isPatched newCodeOff),
        (visits (uleb d) n midx p).2) := by
  induction n generalizing midx p with
  | zero => rfl
  | succ n ih =>
    have hflag : ∀ m : ℕ × EncodedMethod,
        ((patchMethod newCodeOff m.1 m.2.access m.2.codeOff).2.2).toNat =
          if isPatched newCodeOff m = true then 1 else 0 := by
      intro m
      change (isPatched newCodeOff m).toNat = _
      cases isPatched newCodeOff m <;> rfl
    rw [copyMethods, visits]
    simp only [ih, List.map_cons, List.flatMap_cons, List.flatMap_append, List.countP_cons, ← hflag,
      patch, EncodedMethod.numbers, List.flatMap_nil, List.append_nil, List.append_assoc]

/-- The rebuilt block of a class and the number of patched methods. -/
theorem rebuildClass_eq {cd : ClassData} (h : cd.StandsIn d cdo stop) (hstop : stop < 2 ^ 32) :
    rebuildClass newCodeOff d cdo =
      ((patchClass newCodeOff cd).numbers.flatMap wuleb, patchCount newCodeOff cd) := by
  have hread := reads_uleb (d := d) hstop
  obtain ⟨p₁, p₂, p₃, p₄, h₁, h₂, h₃, h₄, hs⟩ := h.header hread
  obtain ⟨p₅, p₆, hdirect, hvirtual⟩ := ClassData.StandsIn.records hread hs
  have hstatic := skipPairs_of_stream hread hs
  simp only [rebuildClass, h₁, h₂, h₃, h₄, copyFields_of_stream hs hstop,
    copyFields_of_stream hstatic hstop, copyMethods_eq, hdirect, hvirtual]
  simp only [ClassData.numbers, patchClass, patchCount, List.flatMap_cons, List.flatMap_append,
    List.length_map, length_indexed, List.append_assoc]

end Streams

end Vardoger.Dex.DexRebuilder

namespace Vardoger.Dex

open DexRebuilder

/-! ## Patched methods -/

/-- The method is native and has recovered code. -/
def Recovers (recovered : CodeMap) (m : ℕ × EncodedMethod) : Prop :=
  m.2.access &&& kAccNative ≠ 0 ∧ (recovered.find m.1).isSome

instance (recovered : CodeMap) (m : ℕ × EncodedMethod) : Decidable (Recovers recovered m) :=
  inferInstanceAs (Decidable (_ ∧ _))

/-- Some method of the class has recovered code to install. -/
def ClassData.Affected (recovered : CodeMap) (cd : ClassData) : Prop :=
  ∃ m ∈ indexed 0 cd.directMethods ++ indexed 0 cd.virtualMethods, Recovers recovered m

section Patches

variable {size : ℕ} {m : ℕ × EncodedMethod} {recovered : CodeMap}

/-- A method without code to install is copied as it is. -/
theorem patch_of_not_recovers (size : ℕ) (h : ¬Recovers recovered m) :
    patch (appendCode size recovered.items []).2 m = m.2 ∧
      isPatched (appendCode size recovered.items []).2 m = false := by
  unfold patch isPatched patchMethod
  rcases lookup_appendCode size recovered.items [] m.1 with ⟨-, hnone⟩ | ⟨code, k, hfind, hoff, -⟩
  · rw [hnone]
    exact ⟨rfl, rfl⟩
  · have hnative : ¬ m.2.access &&& kAccNative ≠ 0 := fun hbit =>
      h ⟨hbit, by rw [CodeMap.find, hfind]; rfl⟩
    simp only [hoff, if_neg hnative, and_true]

/-- A method with code to install becomes non-native and gets the place of the code. -/
theorem patch_of_recovers (size : ℕ) (h : Recovers recovered m) :
    ∃ code k, recovered.find m.1 = some code ∧
      patch (appendCode size recovered.items []).2 m =
        ⟨m.2.diff, m.2.access &&& (0xffffffff - kAccNative), (size + k) % 2 ^ 32⟩ ∧
      isPatched (appendCode size recovered.items []).2 m = true ∧
      Placed size (appendCode size recovered.items []).1 code k := by
  obtain ⟨hbit, hsome⟩ := h
  rcases lookup_appendCode size recovered.items [] m.1 with ⟨hnone, -⟩ | ⟨code, k, hfind, hoff, hk⟩
  · rw [CodeMap.find, hnone] at hsome
    cases hsome
  · refine ⟨code, k, hfind, ?_, ?_, hk⟩
    · simp only [patch, patchMethod, hoff, if_pos hbit]
    · simp only [isPatched, patchMethod, hoff, if_pos hbit]

/-- A class is patched if and only if it is affected. -/
theorem patchCount_ne_zero_iff {cd : ClassData} :
    patchCount (appendCode size recovered.items []).2 cd ≠ 0 ↔ cd.Affected recovered := by
  have hiff : ∀ m, isPatched (appendCode size recovered.items []).2 m = true ↔
      Recovers recovered m := by
    intro m
    constructor
    · intro hpatched
      by_contra hnot
      rw [(patch_of_not_recovers size hnot).2] at hpatched
      cases hpatched
    · intro hrecovers
      obtain ⟨code, k, -, -, hpatched, -⟩ := patch_of_recovers size hrecovers
      exact hpatched
  rw [patchCount, ← List.countP_append, ← Nat.pos_iff_ne_zero, List.countP_pos_iff]
  simp only [hiff, ClassData.Affected]

/-- The copy of a class without code to install is the class. -/
theorem patchClass_of_not_affected {cd : ClassData} (h : ¬cd.Affected recovered) :
    patchClass (appendCode size recovered.items []).2 cd = cd := by
  have hsame : ∀ midx ms, (∀ m ∈ indexed midx ms, ¬Recovers recovered m) →
      (indexed midx ms).map (patch (appendCode size recovered.items []).2) = ms := by
    intro midx ms
    induction ms generalizing midx with
    | nil => exact fun _ => rfl
    | cons m ms ih =>
      intro hnot
      rw [indexed, List.map_cons, ih _ fun m' hm' => hnot m' (List.mem_cons_of_mem _ hm'),
        (patch_of_not_recovers size (hnot _ List.mem_cons_self)).1]
  rw [patchClass, hsame _ _ fun m hm hrec => h ⟨m, List.mem_append_left _ hm, hrec⟩,
    hsame _ _ fun m hm hrec => h ⟨m, List.mem_append_right _ hm, hrec⟩]

theorem mem_of_mem_indexed {midx : ℕ} {ms : List EncodedMethod} (h : m ∈ indexed midx ms) :
    m.2 ∈ ms := by
  induction ms generalizing midx with
  | nil => cases h
  | cons m' ms ih =>
    rcases List.mem_cons.mp h with rfl | h
    · exact List.mem_cons_self
    · exact List.mem_cons_of_mem _ (ih h)

/-- Patched methods consist of 32-bit numbers again. -/
theorem patch_numbers_lt (hm : ∀ v ∈ m.2.numbers, v < 2 ^ 32) :
    ∀ v ∈ (patch (appendCode size recovered.items []).2 m).numbers, v < 2 ^ 32 := by
  by_cases h : Recovers recovered m
  · obtain ⟨code, k, -, heq, -⟩ := patch_of_recovers size h
    simp only [heq, EncodedMethod.numbers, List.mem_cons, List.not_mem_nil, or_false,
      forall_eq_or_imp, forall_eq] at hm ⊢
    exact ⟨hm.1, Nat.lt_of_le_of_lt Nat.and_le_left hm.2.1, Nat.mod_lt _ (by decide)⟩
  · rw [(patch_of_not_recovers size h).1]
    exact hm

theorem patchClass_numbers_lt {cd : ClassData} (h : ∀ v ∈ cd.numbers, v < 2 ^ 32) :
    ∀ v ∈ (patchClass (appendCode size recovered.items []).2 cd).numbers, v < 2 ^ 32 := by
  have hmethods : ∀ ms : List EncodedMethod, (∀ v ∈ ms.flatMap EncodedMethod.numbers, v < 2 ^ 32) →
      ∀ v ∈ ((indexed 0 ms).map (patch (appendCode size recovered.items []).2)).flatMap
        EncodedMethod.numbers, v < 2 ^ 32 := by
    intro ms hms v hv
    obtain ⟨m', hm', hv⟩ := List.mem_flatMap.mp hv
    obtain ⟨m, hm, rfl⟩ := List.mem_map.mp hm'
    refine patch_numbers_lt (fun w hw => ?_) v hv
    exact hms w (List.mem_flatMap.mpr ⟨m.2, mem_of_mem_indexed hm, hw⟩)
  simp only [ClassData.numbers, patchClass, List.forall_mem_cons, List.forall_mem_append,
    List.length_map, length_indexed] at h ⊢
  obtain ⟨hs, hi, hdm, hvm, hstatic, hinst, hdirect, hvirtual⟩ := h
  exact ⟨hs, hi, hdm, hvm, hstatic, hinst, hmethods _ hdirect, hmethods _ hvirtual⟩

end Patches

end Vardoger.Dex
