import Vardoger.Dex.WellFormed

/-!
# Class data that runs past the end

A number behind the end of the file reads as zero, and the loops of the parser run for the declared
counts, so class data that ends too early makes up methods. The positions of the parser and its
number of fields are `uint32_t`. This file compares the records that the parser decodes with those
that lie in the file, and says for which class data they are the same.
-/

namespace Vardoger.Dex

open Bytes LittleEndian Uleb128

/-! ## What the parser reads -/

/-- The four counts of class data. -/
structure Declared where
  staticFields : ℕ
  instanceFields : ℕ
  directMethods : ℕ
  virtualMethods : ℕ

/-- The number of declared fields. -/
def Declared.fields (c : Declared) : ℕ := c.staticFields + c.instanceFields

/-- The positions at which a reader starts with each of `n` encoded methods. -/
def recordStarts (uleb : ℕ → ℕ × ℕ) : (n p : ℕ) → List ℕ
  | 0, _ => []
  | n + 1, p => p :: recordStarts uleb n (skipNumbers uleb 3 p)

namespace Tables

variable (t : Tables)

/-- The counts of the class data at an offset, as the parser reads them. -/
def declared (off : ℕ) : Declared :=
  if off = 0 ∨ off ≥ t.data.length then ⟨0, 0, 0, 0⟩
  else
    { staticFields := (uleb t.data off).1
      instanceFields := (uleb t.data (skipNumbers (uleb t.data) 1 off)).1
      directMethods := (uleb t.data (skipNumbers (uleb t.data) 2 off)).1
      virtualMethods := (uleb t.data (skipNumbers (uleb t.data) 3 off)).1 }

/-- The number of fields that the parser skips: a sum of two `uint32_t`. -/
def fieldsSkipped (off : ℕ) : ℕ := (t.declared off).fields % 2 ^ 32

/-- The position of the parser behind the fields. -/
def methodsAt (off : ℕ) : ℕ :=
  t.skipFields (t.fieldsSkipped off) (skipNumbers (uleb t.data) 4 off)

/-- The positions at which the parser starts with the direct and the virtual methods. -/
def recordStartsAt (off : ℕ) : List ℕ × List ℕ :=
  (recordStarts (uleb t.data) (t.declared off).directMethods (t.methodsAt off),
    recordStarts (uleb t.data) (t.declared off).virtualMethods
      (skipNumbers (uleb t.data) (3 * (t.declared off).directMethods) (t.methodsAt off)))

/-- The positions of the bytes that the parser reads for the method record at a position. -/
def recordBytes (p : ℕ) : List ℕ := spans 32 (2 ^ 32) 5 t.data 3 p

/-- The flags and the code offset that the parser reads for the method record at a position. -/
def recordAt (p : ℕ) : ℕ × ℕ :=
  ((uleb t.data (skipNumbers (uleb t.data) 1 p)).1, (uleb t.data (skipNumbers (uleb t.data) 2 p)).1)

theorem skipFields_numbers (n p : ℕ) :
    t.skipFields n p = skipNumbers (uleb t.data) (2 * n) p := by
  induction n generalizing p with
  | zero => rfl
  | succ n ih => rw [skipFields, ih]; rfl

theorem decodeMethods_snd (n midx p : ℕ) :
    (t.decodeMethods n midx p).2 = skipNumbers (uleb t.data) (3 * n) p := by
  induction n generalizing midx p with
  | zero => rfl
  | succ n ih => rw [decodeMethods, decodeMethod]; exact ih _ _

/-- Each method is decoded from the record at its position. -/
theorem decodeMethods_records (n midx p : ℕ) :
    (t.decodeMethods n midx p).1.map (fun m => (m.access, m.codeOff)) =
      (recordStarts (uleb t.data) n p).map t.recordAt := by
  induction n generalizing midx p with
  | zero => rfl
  | succ n ih =>
    rw [decodeMethods, decodeMethod, recordStarts, List.map_cons]
    exact congrArg (List.cons _) (ih _ _)

/-- The methods that the parser reports are those of its records. -/
theorem parseClassData_records (off : ℕ) :
    (t.parseClassData off).1.map (fun m => (m.access, m.codeOff)) =
        (t.recordStartsAt off).1.map t.recordAt ∧
      (t.parseClassData off).2.map (fun m => (m.access, m.codeOff)) =
        (t.recordStartsAt off).2.map t.recordAt := by
  unfold parseClassData recordStartsAt methodsAt fieldsSkipped declared
  split
  next => exact ⟨rfl, rfl⟩
  next =>
    refine ⟨t.decodeMethods_records _ _ _, ?_⟩
    rw [← t.decodeMethods_snd _ 0]
    exact t.decodeMethods_records _ _ _

end Tables

/-! ## What lies in the file -/

/-- The positions of the first records that lie in the file, out of `n` from a position on. -/
def fitting (d : List UInt8) : (n p : ℕ) → List ℕ
  | 0, _ => []
  | n + 1, p =>
      match endAfter 5 d 3 p with
      | none => []
      | some q => p :: fitting d n q

/-- The records of the class data at an offset that lie in the file. -/
def Tables.fittingAt (t : Tables) (off : ℕ) : List ℕ × List ℕ :=
  let c := t.declared off
  ((endAfter 5 t.data (4 + 2 * c.fields) off).elim [] (fitting t.data c.directMethods),
    (endAfter 5 t.data (4 + 2 * c.fields + 3 * c.directMethods) off).elim []
      (fitting t.data c.virtualMethods))

/-- No method of the class is made up. -/
structure Unfabricated (t : Tables) (c : ClassDef) : Prop where
  decoded : ∀ p ∈ (t.recordStartsAt c.classDataOff).1 ++ (t.recordStartsAt c.classDataOff).2,
    ∃ q, endAfter 5 t.data 3 p = some q ∧ t.recordBytes p = List.range' p (q - p)
  fields : t.fieldsSkipped c.classDataOff = (t.declared c.classDataOff).fields
  fit : t.recordStartsAt c.classDataOff = t.fittingAt c.classDataOff
  bound : 3 * (c.directMethods.length + c.virtualMethods.length) ≤ t.data.length

/-- The declared fields can be counted, and if there are declared methods then the class data lies
in the file up to the last one, and in its first 4 GiB. -/
def DataFits (t : Tables) (off : ℕ) : Prop :=
  (t.declared off).fields < 2 ^ 32 ∧
    ((t.declared off).directMethods + (t.declared off).virtualMethods = 0 ∨
      ∃ q ≤ 2 ^ 32, endAfter 5 t.data (4 + 2 * (t.declared off).fields +
        3 * ((t.declared off).directMethods + (t.declared off).virtualMethods)) off = some q)

section Fitting

variable {d : List UInt8} {n p q : ℕ}

theorem length_recordStarts (read : ℕ → ℕ × ℕ) (n p : ℕ) : (recordStarts read n p).length = n := by
  induction n generalizing p with
  | zero => rfl
  | succ n ih => rw [recordStarts, List.length_cons, ih]

theorem endAfter_of_length_fitting (h : (fitting d n p).length = n) :
    ∃ q, endAfter 5 d (3 * n) p = some q := by
  induction n generalizing p with
  | zero => exact ⟨p, rfl⟩
  | succ n ih =>
    rw [fitting] at h
    split at h
    next => cases h
    next q hq =>
      obtain ⟨q', hq'⟩ := ih (by simpa using h)
      refine ⟨q', ?_⟩
      rw [show 3 * (n + 1) = 3 + 3 * n by omega, endAfter_add, hq]
      exact hq'

/-- The records that lie in the file, if all of them do. -/
theorem mem_fitting (h : endAfter 5 d (3 * n) p = some q) {s : ℕ} (hs : s ∈ fitting d n p) :
    ∃ q' ≤ q, endAfter 5 d 3 s = some q' := by
  induction n generalizing p with
  | zero => cases hs
  | succ n ih =>
    rw [show 3 * (n + 1) = 3 + 3 * n by omega, endAfter_add] at h
    obtain ⟨q', hq', hrest⟩ := Option.bind_eq_some_iff.mp h
    rw [fitting, hq'] at hs
    rcases List.mem_cons.mp hs with rfl | hs
    · exact ⟨q', by have := (endAfter_le (by decide) hrest).1; omega, hq'⟩
    · exact ih hrest hs

/-- The last record ends where all of them do. -/
theorem exists_last_fitting (h : endAfter 5 d (3 * (n + 1)) p = some q) :
    ∃ s ∈ fitting d (n + 1) p, endAfter 5 d 3 s = some q := by
  induction n generalizing p with
  | zero =>
    refine ⟨p, ?_, h⟩
    rw [fitting, show endAfter 5 d 3 p = some q from h]
    exact List.mem_cons_self
  | succ n ih =>
    rw [show 3 * (n + 1 + 1) = 3 + 3 * (n + 1) by omega, endAfter_add] at h
    obtain ⟨q', hq', hrest⟩ := Option.bind_eq_some_iff.mp h
    obtain ⟨s, hs, hend⟩ := ih hrest
    refine ⟨s, ?_, hend⟩
    rw [fitting, hq']
    exact List.mem_cons_of_mem _ hs

/-- Records that lie in the file and before the wrap are visited where they lie. -/
theorem recordStarts_eq_fitting (h : endAfter 5 d (3 * n) p = some q) (hq : q ≤ 2 ^ 32) :
    recordStarts (uleb d) n (p % 2 ^ 32) = fitting d n p := by
  induction n generalizing p with
  | zero => rfl
  | succ n ih =>
    rw [show 3 * (n + 1) = 3 + 3 * n by omega, endAfter_add] at h
    obtain ⟨q', hq', hrest⟩ := Option.bind_eq_some_iff.mp h
    have hle := (endAfter_le (by decide) hq').1
    have hle' := (endAfter_le (by decide) hrest).1
    have hskip : skipNumbers (uleb d) 3 (p % 2 ^ 32) = q' % 2 ^ 32 :=
      skipNumbers_of_end (by decide) (by omega) hq'
    rw [recordStarts, hskip, ih hrest, fitting, hq', Nat.mod_eq_of_lt (by omega)]

/-- The positions of the parser are `uint32_t`. -/
theorem skipNumbers_lt (n : ℕ) (hp : p < 2 ^ 32) : skipNumbers (uleb d) n p < 2 ^ 32 := by
  induction n generalizing p with
  | zero => exact hp
  | succ n ih => exact ih (read_lt (by decide) hp)

theorem lt_of_mem_recordStarts (hp : p < 2 ^ 32) {s : ℕ} (hs : s ∈ recordStarts (uleb d) n p) :
    s < 2 ^ 32 := by
  induction n generalizing p with
  | zero => cases hs
  | succ n ih =>
    rcases List.mem_cons.mp hs with rfl | hs
    · exact hp
    · exact ih (skipNumbers_lt 3 hp) hs

end Fitting

section Classes

variable {t : Tables} {off : ℕ}

theorem length_parseClassData (t : Tables) (off : ℕ) :
    (t.parseClassData off).1.length = (t.declared off).directMethods ∧
      (t.parseClassData off).2.length = (t.declared off).virtualMethods := by
  obtain ⟨hdirect, hvirtual⟩ := t.parseClassData_records off
  have hdirect' := congrArg List.length hdirect
  have hvirtual' := congrArg List.length hvirtual
  simp only [List.length_map, Tables.recordStartsAt, length_recordStarts] at hdirect' hvirtual'
  exact ⟨hdirect', hvirtual'⟩

theorem methodsAt_lt (hoff : off < 2 ^ 32) : t.methodsAt off < 2 ^ 32 := by
  rw [Tables.methodsAt, t.skipFields_numbers]
  exact skipNumbers_lt _ (skipNumbers_lt _ hoff)

/-- A record that was decoded from its own bytes ends before the wrap. -/
theorem le_of_recordBytes {s q : ℕ} (hs : s < 2 ^ 32) (hend : endAfter 5 t.data 3 s = some q)
    (hbytes : t.recordBytes s = List.range' s (q - s)) : q ≤ 2 ^ 32 := by
  have hle := (endAfter_le (by decide) hend).1
  have hlast : q - 1 ∈ t.recordBytes s := by
    rw [hbytes, List.mem_range'_1]
    omega
  have hlt := lt_of_mem_spans hs _ hlast
  omega

/-- Records that all fit and were decoded from their own bytes end before the wrap. -/
theorem exists_end_of_decoded {n : ℕ} {start : Option ℕ} {starts : List ℕ}
    (hn : n ≠ 0) (hstarts : starts = start.elim [] (fitting t.data n)) (hlength : starts.length = n)
    (hlt : ∀ s ∈ starts, s < 2 ^ 32)
    (hdecoded : ∀ s ∈ starts, ∃ q, endAfter 5 t.data 3 s = some q ∧
      t.recordBytes s = List.range' s (q - s)) :
    ∃ p q, start = some p ∧ endAfter 5 t.data (3 * n) p = some q ∧ q ≤ 2 ^ 32 := by
  subst hstarts
  cases start with
  | none => exact absurd hlength.symm hn
  | some p =>
    obtain ⟨q, hq⟩ := endAfter_of_length_fitting hlength
    obtain ⟨m, rfl⟩ := Nat.exists_eq_succ_of_ne_zero hn
    obtain ⟨s, hs, hend⟩ := exists_last_fitting hq
    obtain ⟨q', hend', hbytes⟩ := hdecoded s hs
    obtain rfl : q = q' := Option.some.inj (hend.symm.trans hend')
    exact ⟨p, q, rfl, hq, le_of_recordBytes (hlt s hs) hend hbytes⟩

theorem dataFits_of_unfabricated {c : ClassDef} (hoff : c.classDataOff < 2 ^ 32)
    (h : Unfabricated t c) : DataFits t c.classDataOff := by
  have hfields : (t.declared c.classDataOff).fields < 2 ^ 32 := by
    rw [← h.fields]
    exact Nat.mod_lt _ (by decide)
  refine ⟨hfields, ?_⟩
  have hbehind := methodsAt_lt (t := t) hoff
  have hdirect := congrArg Prod.fst h.fit
  have hvirtual := congrArg Prod.snd h.fit
  by_cases hvm : (t.declared c.classDataOff).virtualMethods = 0
  · by_cases hdm : (t.declared c.classDataOff).directMethods = 0
    · exact .inl (by rw [hvm, hdm])
    · obtain ⟨p, q, hp, hq, hle⟩ := exists_end_of_decoded hdm hdirect (length_recordStarts _ _ _)
        (fun s hs => lt_of_mem_recordStarts hbehind hs)
        (fun s hs => h.decoded s (List.mem_append_left _ hs))
      refine .inr ⟨q, hle, ?_⟩
      rw [hvm, Nat.add_zero, endAfter_add, hp]
      exact hq
  · obtain ⟨p, q, hp, hq, hle⟩ := exists_end_of_decoded hvm hvirtual (length_recordStarts _ _ _)
      (fun s hs => lt_of_mem_recordStarts (skipNumbers_lt _ hbehind) hs)
      (fun s hs => h.decoded s (List.mem_append_right _ hs))
    refine .inr ⟨q, hle, ?_⟩
    rw [Nat.mul_add, ← Nat.add_assoc, endAfter_add, hp]
    exact hq

/-- With class data that fits, the parser visits the records that lie in the file. -/
theorem recordStartsAt_eq (hfields : (t.declared off).fields < 2 ^ 32) {q : ℕ} (hq : q ≤ 2 ^ 32)
    (hend : endAfter 5 t.data (4 + 2 * (t.declared off).fields +
      3 * ((t.declared off).directMethods + (t.declared off).virtualMethods)) off = some q) :
    ∃ p p', endAfter 5 t.data (3 * (t.declared off).directMethods) p = some p' ∧
      endAfter 5 t.data (3 * (t.declared off).virtualMethods) p' = some q ∧ p' ≤ q ∧
      t.recordStartsAt off = (fitting t.data (t.declared off).directMethods p,
        fitting t.data (t.declared off).virtualMethods p') ∧
      t.fittingAt off = (fitting t.data (t.declared off).directMethods p,
        fitting t.data (t.declared off).virtualMethods p') := by
  rw [Nat.mul_add, ← Nat.add_assoc, endAfter_add] at hend
  obtain ⟨p', hp', hvirtual⟩ := Option.bind_eq_some_iff.mp hend
  have hp'all := hp'
  rw [endAfter_add] at hp'
  obtain ⟨p, hp, hdirect⟩ := Option.bind_eq_some_iff.mp hp'
  have hle := (endAfter_le (by decide) hp).1
  have hle' := (endAfter_le (by decide) hdirect).1
  have hle'' := (endAfter_le (by decide) hvirtual).1
  have hbehind : t.methodsAt off = p % 2 ^ 32 := by
    rw [Tables.methodsAt, t.skipFields_numbers, ← skipNumbers_add, Tables.fieldsSkipped,
      Nat.mod_eq_of_lt hfields]
    have hskip : skipNumbers (uleb t.data) (4 + 2 * (t.declared off).fields) (off % 2 ^ 32) =
        p % 2 ^ 32 := skipNumbers_of_end (by decide) (by omega) hp
    rwa [Nat.mod_eq_of_lt (show off < 2 ^ 32 by omega)] at hskip
  refine ⟨p, p', hdirect, hvirtual, by omega, ?_, ?_⟩
  · have hskip : skipNumbers (uleb t.data) (3 * (t.declared off).directMethods) (p % 2 ^ 32) =
        p' % 2 ^ 32 := skipNumbers_of_end (by decide) (by omega) hdirect
    rw [Tables.recordStartsAt, hbehind, hskip, recordStarts_eq_fitting hdirect (by omega),
      recordStarts_eq_fitting hvirtual hq]
  · simp only [Tables.fittingAt, hp, hp'all, Option.elim_some]

theorem unfabricated_of_dataFits {c : ClassDef}
    (hmethods : t.parseClassData c.classDataOff = (c.directMethods, c.virtualMethods))
    (h : DataFits t c.classDataOff) : Unfabricated t c := by
  obtain ⟨hfields, hfits⟩ := h
  have hlengths := length_parseClassData t c.classDataOff
  rw [hmethods] at hlengths
  dsimp only at hlengths
  obtain ⟨hdirect, hvirtual⟩ := hlengths
  have hskipped : t.fieldsSkipped c.classDataOff = (t.declared c.classDataOff).fields :=
    Nat.mod_eq_of_lt hfields
  rcases hfits with hzero | ⟨q, hq, hend⟩
  · obtain ⟨hdm, hvm⟩ := Nat.add_eq_zero_iff.mp hzero
    have hnone : ∀ o : Option ℕ, o.elim [] (fitting t.data 0) = [] := by
      intro o
      cases o with
      | none => rfl
      | some p => rfl
    have hstarts : t.recordStartsAt c.classDataOff = ([], []) := by
      rw [Tables.recordStartsAt, hdm, hvm]
      rfl
    have hfitting : t.fittingAt c.classDataOff = ([], []) := by
      simp only [Tables.fittingAt, hdm, hvm, hnone]
    refine ⟨?_, hskipped, hstarts.trans hfitting.symm, by omega⟩
    rw [hstarts]
    exact fun p hp => by cases hp
  · obtain ⟨p, p', hp, hp', hle, hstarts, hfitting⟩ := recordStartsAt_eq hfields hq hend
    refine ⟨?_, hskipped, hstarts.trans hfitting.symm, ?_⟩
    · rw [hstarts]
      intro s hs
      obtain ⟨q', hq', hends⟩ : ∃ q' ≤ q, endAfter 5 t.data 3 s = some q' := by
        rcases List.mem_append.mp hs with hs | hs
        · obtain ⟨q', hq', hends⟩ := mem_fitting hp hs
          exact ⟨q', by omega, hends⟩
        · exact mem_fitting hp' hs
      have hlt := (endAfter_le (by decide) hends).1
      have hbytes : t.recordBytes (s % 2 ^ 32) = List.range' s (q' - s) :=
        spans_of_end (by decide) (by omega) hends
      rw [Nat.mod_eq_of_lt (by omega)] at hbytes
      exact ⟨q', hends, hbytes⟩
    · have hinside := endAfter_le (by decide) hend
      omega

end Classes

/-- The classes of an accepted file. -/
theorem mem_classes {d : List UInt8} {f : DexFile} (h : parse d = .ok f) {c : ClassDef}
    (hc : c ∈ f.classes) : ∃ o, c = f.toTables.parseClassDef o ∧ f.toTables.data = d := by
  unfold parse at h
  split at h
  next => cases h
  next =>
    dsimp only at h
    split at h
    next => cases h
    next =>
      obtain rfl := Except.ok.inj h
      obtain ⟨i, -, rfl⟩ := List.mem_map.mp hc
      exact ⟨_, rfl, rfl⟩

theorem rd32_lt (d : List UInt8) (o : ℕ) : rd32 d o < 2 ^ 32 := by
  unfold rd32
  split
  · decide
  · have hlt := ofBytes_lt ((d.drop o).take 4)
    have hle : ((d.drop o).take 4).length ≤ 4 := List.length_take_le _ _
    have hpow : 256 ^ ((d.drop o).take 4).length ≤ 256 ^ 4 :=
      Nat.pow_le_pow_right (by decide) hle
    exact Nat.lt_of_lt_of_le hlt hpow

/-- For every file the parser accepts, no method is made up if and only if the class data of every
class fits. -/
theorem unfabricated_iff (d : List UInt8) (f : DexFile) (h : parse d = .ok f) :
    (∀ c ∈ f.classes, Unfabricated f.toTables c) ↔
      ∀ c ∈ f.classes, DataFits f.toTables c.classDataOff := by
  refine forall₂_congr fun c hc => ?_
  obtain ⟨o, rfl, -⟩ := mem_classes h hc
  constructor
  · exact dataFits_of_unfabricated (rd32_lt _ _)
  · exact unfabricated_of_dataFits rfl

/-- A file with one class definition and its class data at the end. -/
def shortDex (data : List UInt8) : List UInt8 :=
  ascii "dex\n" ++ List.replicate 92 0 ++ toBytes 4 1 ++ toBytes 4 0x70 ++ List.replicate 8 0 ++
    (List.replicate 24 0 ++ toBytes 4 0x90 ++ List.replicate 4 0) ++ data

theorem parse_shortDex (data : List UInt8) :
    ∃ f, parse (shortDex data) = .ok f ∧ f.toTables = Tables.ofHeader (shortDex data) ∧
      f.classes = [(Tables.ofHeader (shortDex data)).parseClassDef 0x70] := by
  have hlength : (shortDex data).length = 0x90 + data.length := by
    rw [shortDex, List.length_append]
    rfl
  have hword : ∀ o, o + 4 ≤ 0x90 → rd32 (shortDex data) o = rd32 (shortDex []) o := by
    intro o ho
    have happend : shortDex data = shortDex [] ++ data := by
      rw [shortDex, shortDex, List.append_nil]
    have hshort : (shortDex []).length = 0x90 := rfl
    refine rd32_congr (by omega) (by omega) fun i hi hlt => ?_
    rw [happend, List.getElem?_append_left]
    omega
  have hdefs : (Tables.ofHeader (shortDex data)).classDefs = ⟨1, 0x70⟩ := by
    change (⟨rd32 (shortDex data) 0x60, rd32 (shortDex data) 0x64⟩ : Table) = _
    rw [hword 0x60 (by decide), hword 0x64 (by decide)]
    decide +kernel
  have hparse := parse_eq (d := shortDex data) (by omega) rfl
    (by rw [hdefs, hlength]; dsimp only; omega)
  rw [hdefs] at hparse
  exact ⟨_, hparse, rfl, rfl⟩

theorem unfabricated_shortDex :
    ∃ f, parse (shortDex [0, 0, 1, 0, 0, 1, 0]) = .ok f ∧
      ∀ c ∈ f.classes, Unfabricated f.toTables c := by
  obtain ⟨f, hparse, htables, hclasses⟩ := parse_shortDex [0, 0, 1, 0, 0, 1, 0]
  refine ⟨f, hparse, (unfabricated_iff _ _ hparse).mpr ?_⟩
  rw [hclasses, htables, List.forall_mem_singleton]
  exact ⟨by decide +kernel, .inr ⟨0x97, by decide, by decide +kernel⟩⟩

/-- Four bytes of class data at the end of the file become 127 methods. -/
theorem fabricated_shortDex :
    ∃ f, parse (shortDex [0, 0, 127, 0]) = .ok f ∧ f.data.length = 148 ∧
      ∃ c ∈ f.classes, c.directMethods.length = 127 ∧
        f.toTables.fittingAt c.classDataOff = ([], []) := by
  obtain ⟨f, hparse, htables, hclasses⟩ := parse_shortDex [0, 0, 127, 0]
  refine ⟨f, hparse, ?_, _, hclasses ▸ List.mem_singleton_self _, ?_⟩
  · rw [htables]
    decide +kernel
  · rw [htables]
    decide +kernel

end Vardoger.Dex
