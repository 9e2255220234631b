import Vardoger.Dex.DexFile

/-!
# Class data

The fields and methods of a class are a stream of ULEB128 numbers: four counts, the fields of both
kinds and the methods of both kinds, with indices coded as differences. This file says what the
parser makes of such a stream, with the field records it skips and the method indices it
accumulates but does not report.
-/

namespace Vardoger.Dex

open Uleb128

/-- An `encoded_field`. -/
structure EncodedField where
  diff : ℕ
  access : ℕ
  deriving DecidableEq, Repr

/-- An `encoded_method`. -/
structure EncodedMethod where
  diff : ℕ
  access : ℕ
  codeOff : ℕ
  deriving DecidableEq, Repr

/-- A `class_data_item`. -/
structure ClassData where
  staticFields : List EncodedField
  instanceFields : List EncodedField
  directMethods : List EncodedMethod
  virtualMethods : List EncodedMethod
  deriving DecidableEq, Repr

def EncodedField.numbers (f : EncodedField) : List ℕ := [f.diff, f.access]

def EncodedMethod.numbers (m : EncodedMethod) : List ℕ := [m.diff, m.access, m.codeOff]

/-- The numbers of a class, in the order of the file. -/
def ClassData.numbers (cd : ClassData) : List ℕ :=
  cd.staticFields.length :: cd.instanceFields.length :: cd.directMethods.length ::
    cd.virtualMethods.length :: (cd.staticFields.flatMap EncodedField.numbers ++
      (cd.instanceFields.flatMap EncodedField.numbers ++
        (cd.directMethods.flatMap EncodedMethod.numbers ++
          cd.virtualMethods.flatMap EncodedMethod.numbers)))

/-- The class data stands in the file between two offsets, in numbers of at most five bytes. -/
def ClassData.StandsIn (d : List UInt8) (off : ℕ) (cd : ClassData) (stop : ℕ) : Prop :=
  Stream 32 5 d off cd.numbers stop

/-- The methods with the indices that the differences add up to. -/
def indexed : (midx : ℕ) → List EncodedMethod → List (ℕ × EncodedMethod)
  | _, [] => []
  | midx, m :: ms => ((midx + m.diff) % 2 ^ 32, m) :: indexed ((midx + m.diff) % 2 ^ 32) ms

/-- Skip `n` pairs of numbers. -/
def skipPairs (uleb : ℕ → ℕ × ℕ) : (n p : ℕ) → ℕ
  | 0, p => p
  | n + 1, p => skipPairs uleb n (uleb (uleb p).2).2

/-- The records that a loop over `n` encoded methods reads, with the indices it accumulates. -/
def visits (uleb : ℕ → ℕ × ℕ) : (n midx p : ℕ) → List (ℕ × EncodedMethod) × ℕ
  | 0, _, p => ([], p)
  | n + 1, midx, p =>
      let (diff, p) := uleb p
      let (access, p) := uleb p
      let (codeOff, p) := uleb p
      let (ms, p) := visits uleb n ((midx + diff) % 2 ^ 32) p
      (((midx + diff) % 2 ^ 32, ⟨diff, access, codeOff⟩) :: ms, p)

namespace Tables

/-- The method an encoded method stands for. -/
def method (t : Tables) (m : ℕ × EncodedMethod) : Method :=
  { t.methodAt m.1 with access := m.2.access, codeOff := m.2.codeOff }

/-- Read `n` encoded fields. -/
def decodeFields (t : Tables) : (n p : ℕ) → List EncodedField × ℕ
  | 0, p => ([], p)
  | n + 1, p =>
      let (diff, p) := uleb t.data p
      let (access, p) := uleb t.data p
      let (fs, p) := t.decodeFields n p
      (⟨diff, access⟩ :: fs, p)

/-- Read `n` encoded methods. -/
def decodeRecords (t : Tables) : (n p : ℕ) → List EncodedMethod × ℕ
  | 0, p => ([], p)
  | n + 1, p =>
      let (diff, p) := uleb t.data p
      let (access, p) := uleb t.data p
      let (codeOff, p) := uleb t.data p
      let (ms, p) := t.decodeRecords n p
      (⟨diff, access, codeOff⟩ :: ms, p)

/-- Everything that the class data at an offset says, as the readers of the parser see it. -/
def classData (t : Tables) (off : ℕ) : ClassData :=
  if off = 0 ∨ off ≥ t.data.length then ⟨[], [], [], []⟩
  else
    let (staticFields, p) := uleb t.data off
    let (instanceFields, p) := uleb t.data p
    let (directMethods, p) := uleb t.data p
    let (virtualMethods, p) := uleb t.data p
    let (statics, p) := t.decodeFields staticFields p
    let (instances, p) := t.decodeFields instanceFields p
    let (direct, p) := t.decodeRecords directMethods p
    ⟨statics, instances, direct, (t.decodeRecords virtualMethods p).1⟩

end Tables

/-! ## Reading a stream -/

variable {t : Tables} {p q off stop : ℕ} {vs : List ℕ}

section Readers

variable {d : List UInt8} {read : ℕ → ℕ × ℕ}

theorem skipPairs_of_stream {fs : List EncodedField} (hread : Stream.Reads 32 5 d q read)
    (h : Stream 32 5 d p (fs.flatMap EncodedField.numbers ++ vs) q) :
    Stream 32 5 d (skipPairs read fs.length p) vs q := by
  induction fs generalizing p with
  | nil => exact h
  | cons f fs ih =>
    obtain ⟨p₁, hdiff, h₁⟩ := hread _ _ _ h
    obtain ⟨p₂, haccess, h₂⟩ := hread _ _ _ h₁
    rw [List.length_cons, skipPairs, hdiff, haccess]
    exact ih h₂

theorem skipPairs_add (read : ℕ → ℕ × ℕ) (m n p : ℕ) :
    skipPairs read (m + n) p = skipPairs read n (skipPairs read m p) := by
  induction m generalizing p with
  | zero => rw [Nat.zero_add, skipPairs]
  | succ m ih => rw [Nat.succ_add, skipPairs, skipPairs, ih]

/-- The records visited in a stream are those that stand in it. -/
theorem visits_of_stream {ms : List EncodedMethod} (hread : Stream.Reads 32 5 d q read) (midx : ℕ)
    (h : Stream 32 5 d p (ms.flatMap EncodedMethod.numbers ++ vs) q) :
    ∃ p', visits read ms.length midx p = (indexed midx ms, p') ∧ Stream 32 5 d p' vs q := by
  induction ms generalizing p midx with
  | nil => exact ⟨p, rfl, h⟩
  | cons m ms ih =>
    obtain ⟨p₁, hdiff, h₁⟩ := hread _ _ _ h
    obtain ⟨p₂, haccess, h₂⟩ := hread _ _ _ h₁
    obtain ⟨p₃, hcode, h₃⟩ := hread _ _ _ h₂
    obtain ⟨p', hms, h'⟩ := ih ((midx + m.diff) % 2 ^ 32) h₃
    refine ⟨p', ?_, h'⟩
    rw [List.length_cons, visits, hdiff]
    dsimp only
    rw [haccess]
    dsimp only
    rw [hcode]
    dsimp only
    rw [hms, indexed]

end Readers

theorem reads_uleb (hq : q < 2 ^ 32) : Stream.Reads 32 5 t.data q (uleb t.data) :=
  fun _ _ _ h => h.read_eq (by omega) hq

theorem Tables.skipFields_eq (t : Tables) (n p : ℕ) :
    t.skipFields n p = skipPairs (uleb t.data) n p := by
  induction n generalizing p with
  | zero => rfl
  | succ n ih => rw [Tables.skipFields, skipPairs, ih]

/-- The parser reports the methods of the records it visits. -/
theorem Tables.decodeMethods_eq (t : Tables) (n midx p : ℕ) :
    t.decodeMethods n midx p =
      ((visits (uleb t.data) n midx p).1.map t.method, (visits (uleb t.data) n midx p).2) := by
  induction n generalizing midx p with
  | zero => rfl
  | succ n ih =>
    rw [Tables.decodeMethods, visits]
    simp only [Tables.decodeMethod, ih, List.map_cons]
    rfl

/-- The records without their indices. -/
theorem Tables.decodeRecords_eq (t : Tables) (n midx p : ℕ) :
    t.decodeRecords n p =
      ((visits (uleb t.data) n midx p).1.map Prod.snd, (visits (uleb t.data) n midx p).2) := by
  induction n generalizing midx p with
  | zero => rfl
  | succ n ih =>
    rw [Tables.decodeRecords, visits]
    simp only [ih ((midx + (uleb t.data p).1) % 2 ^ 32), List.map_cons]

theorem map_snd_indexed (midx : ℕ) (ms : List EncodedMethod) :
    (indexed midx ms).map Prod.snd = ms := by
  induction ms generalizing midx with
  | nil => rfl
  | cons m ms ih => rw [indexed, List.map_cons, ih]

theorem decodeFields_of_stream {fs : List EncodedField}
    (h : Stream 32 5 t.data p (fs.flatMap EncodedField.numbers ++ vs) q) (hq : q < 2 ^ 32) :
    t.decodeFields fs.length p = (fs, skipPairs (uleb t.data) fs.length p) := by
  induction fs generalizing p with
  | nil => rfl
  | cons f fs ih =>
    obtain ⟨p₁, hdiff, h₁⟩ := reads_uleb hq _ _ _ h
    obtain ⟨p₂, haccess, h₂⟩ := reads_uleb hq _ _ _ h₁
    rw [List.length_cons, Tables.decodeFields, skipPairs, hdiff]
    dsimp only
    rw [haccess]
    dsimp only
    rw [ih h₂]

variable {cd : ClassData}

namespace ClassData.StandsIn

/-- The data is inside the file. -/
theorem le_length {d : List UInt8} (h : cd.StandsIn d off stop) :
    off < d.length ∧ stop ≤ d.length := by
  have hlength := Stream.length_le h
  have hstop := Stream.le_length h (by simp [numbers])
  simp only [numbers, List.length_cons] at hlength
  omega

theorem counts (h : cd.StandsIn t.data off stop) :
    cd.staticFields.length + cd.instanceFields.length < stop := by
  have hlength := Stream.length_le h
  have hfields : ∀ fs : List EncodedField,
      (fs.flatMap EncodedField.numbers).length = 2 * fs.length := by
    intro fs
    induction fs with
    | nil => rfl
    | cons f fs ih =>
      rw [List.flatMap_cons, List.length_append, ih, List.length_cons, Nat.mul_add, Nat.add_comm]
      rfl
  simp only [numbers, List.length_cons, List.length_append, hfields] at hlength
  omega

section Readers

variable {d : List UInt8} {read : ℕ → ℕ × ℕ} (hread : Stream.Reads 32 5 d stop read)

include hread

/-- The four counts are read, and then the fields and methods stand. -/
theorem header (h : cd.StandsIn d off stop) :
    ∃ p₁ p₂ p₃ p₄, read off = (cd.staticFields.length, p₁) ∧
      read p₁ = (cd.instanceFields.length, p₂) ∧ read p₂ = (cd.directMethods.length, p₃) ∧
      read p₃ = (cd.virtualMethods.length, p₄) ∧
      Stream 32 5 d p₄ (cd.staticFields.flatMap EncodedField.numbers ++
        (cd.instanceFields.flatMap EncodedField.numbers ++
          (cd.directMethods.flatMap EncodedMethod.numbers ++
            cd.virtualMethods.flatMap EncodedMethod.numbers))) stop := by
  obtain ⟨p₁, h₁, hs₁⟩ := hread _ _ _ h
  obtain ⟨p₂, h₂, hs₂⟩ := hread _ _ _ hs₁
  obtain ⟨p₃, h₃, hs₃⟩ := hread _ _ _ hs₂
  obtain ⟨p₄, h₄, hs₄⟩ := hread _ _ _ hs₃
  exact ⟨p₁, p₂, p₃, p₄, h₁, h₂, h₃, h₄, hs₄⟩

/-- The records of the two lists of methods are visited behind the fields. -/
theorem records
    (hs : Stream 32 5 d p (cd.staticFields.flatMap EncodedField.numbers ++
        (cd.instanceFields.flatMap EncodedField.numbers ++
          (cd.directMethods.flatMap EncodedMethod.numbers ++
            cd.virtualMethods.flatMap EncodedMethod.numbers))) stop) :
    ∃ p₅ p₆, visits read cd.directMethods.length 0 (skipPairs read cd.instanceFields.length
        (skipPairs read cd.staticFields.length p)) = (indexed 0 cd.directMethods, p₅) ∧
      visits read cd.virtualMethods.length 0 p₅ = (indexed 0 cd.virtualMethods, p₆) := by
  have hfields := skipPairs_of_stream hread (skipPairs_of_stream hread hs)
  obtain ⟨p₅, hdirect, hs₅⟩ := visits_of_stream hread 0 hfields
  rw [← List.append_nil (cd.virtualMethods.flatMap _)] at hs₅
  obtain ⟨p₆, hvirtual, -⟩ := visits_of_stream hread 0 hs₅
  exact ⟨p₅, p₆, hdirect, hvirtual⟩

end Readers

/-- Reading the data gives it back. -/
theorem classData_eq (h : cd.StandsIn t.data off stop) (hoff : off ≠ 0) (hstop : stop < 2 ^ 32) :
    t.classData off = cd := by
  obtain ⟨p₁, p₂, p₃, p₄, h₁, h₂, h₃, h₄, hs⟩ := header (reads_uleb hstop) h
  obtain ⟨p₅, p₆, hdirect, hvirtual⟩ := records (reads_uleb hstop) hs
  have hstatic := skipPairs_of_stream (reads_uleb hstop) hs
  rw [Tables.classData, if_neg (by have := h.le_length; omega)]
  simp only [h₁, h₂, h₃, h₄, decodeFields_of_stream hs hstop, decodeFields_of_stream hstatic hstop,
    t.decodeRecords_eq _ 0, hdirect, hvirtual, map_snd_indexed]

/-- The parser reports the methods of the data. -/
theorem parseClassData_eq (h : cd.StandsIn t.data off stop) (hoff : off ≠ 0)
    (hstop : stop < 2 ^ 32) :
    t.parseClassData off =
      ((indexed 0 cd.directMethods).map t.method, (indexed 0 cd.virtualMethods).map t.method) := by
  obtain ⟨p₁, p₂, p₃, p₄, h₁, h₂, h₃, h₄, hs⟩ := header (reads_uleb hstop) h
  obtain ⟨p₅, p₆, hdirect, hvirtual⟩ := records (reads_uleb hstop) hs
  have hcounts := h.counts
  rw [Tables.parseClassData, if_neg (by have := h.le_length; omega)]
  simp only [h₁, h₂, h₃, h₄]
  rw [Nat.mod_eq_of_lt (by omega), t.skipFields_eq, skipPairs_add, t.decodeMethods_eq, hdirect]
  dsimp only
  rw [t.decodeMethods_eq, hvirtual]

end ClassData.StandsIn

end Vardoger.Dex
