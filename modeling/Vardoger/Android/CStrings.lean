import Vardoger.Android.StringStubs

/-!
# The string stubs against C

For each stub, what C says about its result, and for which arguments the stub agrees. The stubs see
the first 4096 bytes of each string. So `strlen` and the copies are right for strings up to that
length only, a search is right as long as what it should find lies in the copy, and a comparison as
long as the copies differ or the strings are equal.
-/

namespace Vardoger

open Words Patches Stateful

/-- The stubs. -/
inductive StrStub
  | strlen | strchr | strrchr | strcpy | strcat | strcpyChk | strcmp
  deriving DecidableEq, Repr

namespace StrStub

def run : StrStub → MemM Unit
  | strlen => Stubs.strlen
  | strchr => Stubs.strchr
  | strrchr => Stubs.strrchr
  | strcpy => Stubs.strcpy
  | strcat => Stubs.strcat
  | strcpyChk => Stubs.strcpyChk
  | strcmp => Stubs.strcmp

/-- The character argument of a search. -/
def char (e : Engine) : UInt8 := UInt8.ofNat (e.arg 1)

/-- The ranges from `a` and from `b` on do not overlap. -/
def Apart (a n b k : ℕ) : Prop := a + n ≤ b ∨ b + k ≤ a

/-- What C asks of a call: `s` is the string at the first argument and `t` the one at the second,
where the function reads them, and the destination has room and overlaps no source. -/
def Given (e : Engine) (s t : List UInt8) : StrStub → Prop
  | strlen | strchr | strrchr => e.IsCstr (e.arg 0) s
  | strcmp => e.IsCstr (e.arg 0) s ∧ e.IsCstr (e.arg 1) t
  | strcpy | strcpyChk =>
      e.IsCstr (e.arg 1) t ∧ e.Accessible (e.arg 0) (t.length + 1) ∧
        Apart (e.arg 0) (t.length + 1) (e.arg 1) (t.length + 1)
  | strcat =>
      e.IsCstr (e.arg 0) s ∧ e.IsCstr (e.arg 1) t ∧
        e.Accessible (e.arg 0) (s.length + t.length + 1) ∧
        Apart (e.arg 0) (s.length + t.length + 1) (e.arg 1) (t.length + 1)

/-- The index is the first one of the byte. -/
def IsFirst (c : UInt8) (x : List UInt8) (i : ℕ) : Prop :=
  x[i]? = some c ∧ ∀ j < i, x[j]? ≠ some c

/-- The index is the last one of the byte. -/
def IsLast (c : UInt8) (x : List UInt8) (i : ℕ) : Prop :=
  x[i]? = some c ∧ ∀ j, i < j → x[j]? ≠ some c

/-- The address of the index that is sought, or null if the byte does not occur. -/
def Located (sought : UInt8 → List UInt8 → ℕ → Prop) (a : ℕ) (c : UInt8) (x : List UInt8)
    (result : ℕ) : Prop :=
  (∃ i, sought c x i ∧ result = a + i) ∨ (c ∉ x ∧ result = 0)

/-- What C says about the state `e'` after a call in the state `e`. -/
def Result (e e' : Engine) (s t : List UInt8) : StrStub → Prop
  | strlen => e'.ret = s.length
  | strchr => Located IsFirst (e.arg 0) (char e) (s ++ [0]) e'.ret
  | strrchr => Located IsLast (e.arg 0) (char e) (s ++ [0]) e'.ret
  | strcpy | strcpyChk => e'.Holds (e.arg 0) (t ++ [0])
  | strcat => e'.Holds (e.arg 0) (s ++ t ++ [0])
  | strcmp => (e'.retInt < 0 ↔ s < t) ∧ (e'.retInt = 0 ↔ s = t) ∧ (0 < e'.retInt ↔ t < s)

/-- The stub returns, and with what C says. -/
def MeetsC (f : StrStub) (m : Memory) (s t : List UInt8) : Prop :=
  ∃ m', f.run m = .ok () m' ∧ f.Result m.engine m'.engine s t

/-- The limit of the copies does not matter to the call. -/
def WithinLimit (c : UInt8) (s t : List UInt8) : StrStub → Prop
  | strlen => s.length ≤ kCstrMax
  | strchr => s.length ≤ kCstrMax ∨ c ∈ s.take kCstrMax ∨ (c ≠ 0 ∧ c ∉ s)
  | strrchr => s.length ≤ kCstrMax ∨ (c ≠ 0 ∧ c ∉ s.drop kCstrMax)
  | strcpy | strcpyChk => t.length ≤ kCstrMax
  | strcat => s.length ≤ kCstrMax ∧ t.length ≤ kCstrMax
  | strcmp => s = t ∨ s.take kCstrMax ≠ t.take kCstrMax

end StrStub

/-! ## What the stubs compute -/

namespace Stubs

open Memory

variable {m : Memory} {s t : List UInt8}

/-- Every stub reads its first argument first, and throws where there is no register for it. -/
theorem run_x86 (f : StrStub) (h : m.engine.abi = .x86) : ∃ err, f.run m = .error err m := by
  obtain ⟨err, herr⟩ := readReg_x86 (m := m) (.inl rfl) h
  refine ⟨err, ?_⟩
  cases f with
  | strlen => exact bind_error herr
  | strchr => exact bind_error herr
  | strrchr => exact bind_error herr
  | strcpy => exact bind_error herr
  | strcat => exact bind_error herr
  | strcpyChk => exact bind_error herr
  | strcmp => exact bind_error herr

theorem strlen_eq (habi : m.engine.abi ≠ .x86) (hs : m.engine.IsCstr (m.engine.arg 0) s) :
    strlen m = .ok () (m.setRet (s.take kCstrMax).length) := by
  rw [strlen, bind_ok (readReg_a0 habi), bind_ok (readCstr_eq hs), writeReg_ret0]

/-- The value a search returns for what it found. -/
def foundAt (a : ℕ) : Option ℕ → ℕ
  | some i => add64 a i
  | none => 0

theorem strchr_eq (habi : m.engine.abi ≠ .x86) (hs : m.engine.IsCstr (m.engine.arg 0) s) :
    strchr m = .ok () (m.setRet (foundAt (m.engine.arg 0)
      ((s.take kCstrMax ++ [0]).findIdx? (· = StrStub.char m.engine)))) := by
  rw [strchr, bind_ok (readReg_a0 habi), bind_ok (readReg_a1 habi), bind_ok (readCstr_eq hs)]
  change (match List.findIdx? (fun b => decide (b = StrStub.char m.engine))
    (s.take kCstrMax ++ [0]) with
    | some i => writeReg .ret0 (add64 (m.engine.arg 0) i)
    | none => writeReg .ret0 0) m = _
  cases List.findIdx? (fun b => decide (b = StrStub.char m.engine)) (s.take kCstrMax ++ [0]) with
  | none => exact writeReg_ret0 _ m
  | some i => exact writeReg_ret0 _ m

theorem strrchr_eq (habi : m.engine.abi ≠ .x86) (hs : m.engine.IsCstr (m.engine.arg 0) s) :
    strrchr m = .ok () (m.setRet (foundAt (m.engine.arg 0)
      (lastIndex (StrStub.char m.engine) (s.take kCstrMax ++ [0])
        ((s.take kCstrMax).length + 1)))) := by
  rw [strrchr, bind_ok (readReg_a0 habi), bind_ok (readReg_a1 habi), bind_ok (readCstr_eq hs)]
  change (match lastIndex (StrStub.char m.engine) (s.take kCstrMax ++ [0])
    ((s.take kCstrMax).length + 1) with
    | some i => writeReg .ret0 (add64 (m.engine.arg 0) i)
    | none => writeReg .ret0 0) m = _
  cases lastIndex (StrStub.char m.engine) (s.take kCstrMax ++ [0])
    ((s.take kCstrMax).length + 1) with
  | none => exact writeReg_ret0 _ m
  | some i => exact writeReg_ret0 _ m

theorem strcmp_eq (habi : m.engine.abi ≠ .x86) (hs : m.engine.IsCstr (m.engine.arg 0) s)
    (ht : m.engine.IsCstr (m.engine.arg 1) t) :
    strcmp m = .ok () (m.setRet
      (compare (s.take kCstrMax) (t.take kCstrMax) % 2 ^ 64).toNat) := by
  rw [strcmp, bind_ok (readReg_a0 habi), bind_ok (readCstr_eq hs), bind_ok (readReg_a1 habi),
    bind_ok (readCstr_eq ht), writeReg_ret0]

/-- Writing the copy of a string and a terminator. -/
theorem writeCopy {a : ℕ} {x : List UInt8} (h : m.engine.Accessible a (x.length + 1)) :
    (do write a x; write (add64 a x.length) [0]) m =
      .ok () ((m.setBytes a x).setBytes (a + x.length) [0]) := by
  have hnext : add64 a x.length = a + x.length := by
    have hfits := h.1
    exact add64_of_lt (by omega)
  have hlast : m.engine.Accessible (a + x.length) 1 := by
    simpa using (Engine.accessible_add.mp h).2
  rw [bind_ok (write_eq (h.mono (by omega))), hnext]
  exact write_eq (m := m.setBytes a x) hlast

theorem strcpy_eq (habi : m.engine.abi ≠ .x86) (ht : m.engine.IsCstr (m.engine.arg 1) t)
    (hroom : m.engine.Accessible (m.engine.arg 0) (t.length + 1)) :
    strcpy m = .ok () (((m.setBytes (m.engine.arg 0) (t.take kCstrMax)).setBytes
      (m.engine.arg 0 + (t.take kCstrMax).length) [0]).setRet (m.engine.arg 0)) := by
  have hcopy := writeCopy (x := t.take kCstrMax) (hroom.mono (by simp))
  rw [strcpy, bind_ok (readReg_a0 habi), bind_ok (readReg_a1 habi), bind_ok (readCstr_eq ht),
    ← bind_assoc, bind_ok hcopy, writeReg_ret0]

theorem strcat_eq (habi : m.engine.abi ≠ .x86) (hs : m.engine.IsCstr (m.engine.arg 0) s)
    (ht : m.engine.IsCstr (m.engine.arg 1) t)
    (hroom : m.engine.Accessible (m.engine.arg 0) (s.length + t.length + 1)) :
    strcat m = .ok () (((m.setBytes (m.engine.arg 0 + (s.take kCstrMax).length)
      (t.take kCstrMax)).setBytes (m.engine.arg 0 + (s.take kCstrMax).length +
        (t.take kCstrMax).length) [0]).setRet (m.engine.arg 0)) := by
  have hlengths : (s.take kCstrMax).length + ((t.take kCstrMax).length + 1) ≤
      s.length + t.length + 1 := by
    simp only [List.length_take]
    omega
  have hfits := hroom.1
  have hstart : add64 (m.engine.arg 0) (s.take kCstrMax).length =
      m.engine.arg 0 + (s.take kCstrMax).length := add64_of_lt (by omega)
  have hbehind : m.engine.Accessible (m.engine.arg 0 + (s.take kCstrMax).length)
      ((t.take kCstrMax).length + 1) := by
    simpa using (Engine.accessible_add.mp (hroom.mono hlengths)).2
  rw [strcat, bind_ok (readReg_a0 habi), bind_ok (readCstr_eq hs), bind_ok (readReg_a1 habi),
    bind_ok (readCstr_eq ht), ← bind_assoc, hstart, bind_ok (writeCopy hbehind), writeReg_ret0]

end Stubs

/-! ## Searching -/

namespace StrStub

variable {c : UInt8} {s t x : List UInt8} {a i : ℕ}

theorem isFirst_findIdx? (h : x.findIdx? (· = c) = some i) : IsFirst c x i := by
  obtain ⟨hi, hc, hbefore⟩ := List.findIdx?_eq_some_iff_getElem.mp h
  refine ⟨?_, fun j hj hget => ?_⟩
  · rw [List.getElem?_eq_getElem hi, of_decide_eq_true hc]
  · obtain ⟨hjlt, hjc⟩ := List.getElem?_eq_some_iff.mp hget
    simpa [hjc] using hbefore j hj

theorem findIdx?_eq_none (h : x.findIdx? (· = c) = none) : c ∉ x := by
  simpa using List.findIdx?_eq_none_iff.mp h c

/-- The search from the end finds the last index below its start. -/
theorem lastIndex_eq_some {n : ℕ} (h : Stubs.lastIndex c x n = some i) :
    i < n ∧ x[i]? = some c ∧ ∀ j, i < j → j < n → x[j]? ≠ some c := by
  induction n with
  | zero => cases h
  | succ n ih =>
    rw [Stubs.lastIndex] at h
    split at h
    next hn =>
      cases h
      exact ⟨by omega, hn, fun j hj hlt => by omega⟩
    next hn =>
      obtain ⟨hlt, hc, hbehind⟩ := ih h
      refine ⟨by omega, hc, fun j hj hjn => ?_⟩
      by_cases hjlast : j = n
      · rwa [hjlast]
      · exact hbehind j hj (by omega)

theorem lastIndex_eq_none {n : ℕ} (h : Stubs.lastIndex c x n = none) :
    ∀ j < n, x[j]? ≠ some c := by
  induction n with
  | zero => intro j hj; omega
  | succ n ih =>
    rw [Stubs.lastIndex] at h
    split at h
    next hn => cases h
    next hn =>
      intro j hj
      by_cases hjlast : j = n
      · rwa [hjlast]
      · exact ih h j (by omega)

theorem isLast_lastIndex (h : Stubs.lastIndex c x x.length = some i) : IsLast c x i := by
  obtain ⟨-, hc, hbehind⟩ := lastIndex_eq_some h
  refine ⟨hc, fun j hj hget => ?_⟩
  exact hbehind j hj (List.getElem?_eq_some_iff.mp hget).1 hget

theorem not_mem_of_lastIndex (h : Stubs.lastIndex c x x.length = none) : c ∉ x := by
  intro hmem
  obtain ⟨j, hj, hget⟩ := List.mem_iff_getElem.mp hmem
  exact lastIndex_eq_none h j hj (by rw [List.getElem?_eq_getElem hj, hget])

/-- Below the limit a string and its copy agree. -/
theorem getElem?_copy {k : ℕ} (hk : k < s.length) (hi : i < k) :
    (s.take k ++ [0])[i]? = (s ++ [0])[i]? := by
  rw [List.getElem?_append_left (by simp; omega), List.getElem?_take_of_lt hi,
    List.getElem?_append_left (by omega)]

/-- At the limit the copy ends. -/
theorem getElem?_copy_end {k : ℕ} (hk : k < s.length) : (s.take k ++ [0])[k]? = some 0 := by
  rw [List.getElem?_append_right (by simp), List.length_take, Nat.min_eq_left hk.le]
  simp

theorem mem_take_of_getElem? {k : ℕ} (hk : k < s.length) (hi : i < k)
    (h : (s ++ [0])[i]? = some c) : c ∈ s.take k := by
  rw [List.getElem?_append_left (by omega), ← List.getElem?_take_of_lt hi] at h
  exact List.mem_of_getElem? h

/-- The terminator is the only NUL of a C string. -/
theorem eq_length_of_getElem? (hs : 0 ∉ s) (h : (s ++ [0])[i]? = some 0) : i = s.length := by
  obtain ⟨hlt, -⟩ := List.getElem?_eq_some_iff.mp h
  rw [List.length_append, List.length_singleton] at hlt
  by_contra hne
  rw [List.getElem?_append_left (by omega)] at h
  exact hs (List.mem_of_getElem? h)

theorem foundAt_some (hfits : a + s.length < 2 ^ 64) (hi : i ≤ s.length) :
    Stubs.foundAt a (some i) = a + i := add64_of_lt (by omega)

/-- The search of a copy that is the whole string. -/
theorem located_foundAt {sought : UInt8 → List UInt8 → ℕ → Prop} {found : Option ℕ}
    (hfits : a + s.length < 2 ^ 64) (hsome : ∀ i, found = some i → sought c (s ++ [0]) i)
    (hbound : ∀ i, found = some i → i ≤ s.length) (hnone : found = none → c ∉ s ++ [0]) :
    Located sought a c (s ++ [0]) (Stubs.foundAt a found) := by
  cases found with
  | none => exact .inr ⟨hnone rfl, rfl⟩
  | some i => exact .inl ⟨i, hsome i rfl, foundAt_some hfits (hbound i rfl)⟩

theorem index_le (h : (s ++ [0])[i]? = some c) : i ≤ s.length := by
  obtain ⟨hlt, -⟩ := List.getElem?_eq_some_iff.mp h
  rw [List.length_append, List.length_singleton] at hlt
  omega

/-- The copy of a string that is too long has its first NUL too early. -/
theorem strchr_nul_wrong {k : ℕ} (hs : 0 ∉ s) (hk : k < s.length)
    {sought : UInt8 → List UInt8 → ℕ → Prop}
    (hget : ∀ i, sought 0 (s ++ [0]) i → (s ++ [0])[i]? = some 0) :
    ¬Located sought a 0 (s ++ [0]) (a + k) := by
  rintro (⟨i, hi, hresult⟩ | ⟨hnot, -⟩)
  · have := eq_length_of_getElem? hs (hget i hi)
    omega
  · exact hnot (by simp)

/-- The forward search in a copy is right exactly if the limit does not matter. -/
theorem located_first_iff {k : ℕ} (hk : 0 < k) (hs : 0 ∉ s) (hfits : a + s.length < 2 ^ 64) :
    Located IsFirst a c (s ++ [0])
        (Stubs.foundAt a ((s.take k ++ [0]).findIdx? (· = c))) ↔
      s.length ≤ k ∨ c ∈ s.take k ∨ (c ≠ 0 ∧ c ∉ s) := by
  by_cases hle : s.length ≤ k
  · rw [List.take_of_length_le hle]
    refine iff_of_true (located_foundAt hfits ?_ ?_ ?_) (.inl hle)
    · exact fun i hi => isFirst_findIdx? hi
    · exact fun i hi => index_le (isFirst_findIdx? hi).1
    · exact fun hnone => findIdx?_eq_none hnone
  · have hlong : k < s.length := not_le.mp hle
    cases hfind : (s.take k ++ [0]).findIdx? (· = c) with
    | none =>
      have hnot := findIdx?_eq_none hfind
      simp only [List.mem_append, List.mem_singleton, not_or] at hnot
      simp only [hle, hnot.1, false_or, ne_eq, hnot.2, not_false_eq_true, true_and]
      constructor
      · rintro (⟨i, hi, hresult⟩ | ⟨hfree, -⟩)
        · -- A null result is no address of an index behind the limit.
          have hbehind : ¬i < k := fun h => hnot.1 (mem_take_of_getElem? hlong h hi.1)
          simp only [Stubs.foundAt] at hresult
          omega
        · exact fun hmem => hfree (by simp [hmem])
      · intro hfree
        exact .inr ⟨by simp [hfree, hnot.2], rfl⟩
    | some i =>
      have hfirst := isFirst_findIdx? hfind
      by_cases hi : i < k
      · have hget : (s ++ [0])[i]? = some c := by rw [← getElem?_copy hlong hi, hfirst.1]
        refine iff_of_true (.inl ⟨i, ⟨hget, fun j hj => ?_⟩, foundAt_some hfits (by omega)⟩)
          (.inr (.inl (mem_take_of_getElem? hlong hi hget)))
        rw [← getElem?_copy hlong (by omega)]
        exact hfirst.2 j hj
      · -- Only the terminator of the copy is left.
        have hik : i = k := by
          obtain ⟨hlt, -⟩ := List.getElem?_eq_some_iff.mp hfirst.1
          simp only [List.length_append, List.length_take, List.length_singleton] at hlt
          omega
        subst hik
        have hzero : c = 0 := by
          have hend := hfirst.1
          rw [getElem?_copy_end hlong] at hend
          exact (Option.some.inj hend).symm
        subst hzero
        rw [foundAt_some hfits hlong.le]
        refine iff_of_false (strchr_nul_wrong hs hlong fun _ h => h.1) ?_
        rintro (h | h | h)
        · exact hle h
        · exact hs (List.mem_of_mem_take h)
        · exact h.1 rfl

/-- A byte other than NUL is found in a copy below the limit only. -/
theorem lt_limit_of_copy {k : ℕ} (hk : k < s.length) (hc : c ≠ 0)
    (h : (s.take k ++ [0])[i]? = some c) : i < k := by
  have hle := index_le h
  simp only [List.length_take] at hle
  by_contra hge
  rw [show i = k by omega, getElem?_copy_end hk] at h
  exact hc (Option.some.inj h).symm

/-- A byte other than NUL that occurs at or behind the limit is one that the copy misses. -/
theorem mem_drop_of_getElem? {k : ℕ} (hc : c ≠ 0) (hi : k ≤ i) (h : (s ++ [0])[i]? = some c) :
    c ∈ s.drop k := by
  have hlt : i < s.length := by
    have hle := index_le h
    by_contra hend
    rw [show i = s.length by omega, List.getElem?_append_right le_rfl] at h
    exact hc (by simpa using h.symm)
  rw [List.getElem?_append_left hlt] at h
  refine List.mem_of_getElem? (i := i - k) ?_
  rw [List.getElem?_drop, Nat.add_sub_cancel' hi, h]

/-- The backward search misses a byte behind the limit. -/
theorem not_located_last {k : ℕ} (hk : 0 < k) (hlong : k < s.length) (hc : c ≠ 0)
    (hfits : a + s.length < 2 ^ 64) (hmem : c ∈ s.drop k) :
    ¬Located IsLast a c (s ++ [0])
      (Stubs.foundAt a (Stubs.lastIndex c (s.take k ++ [0]) (s.take k ++ [0]).length)) := by
  obtain ⟨j, hj⟩ := List.mem_iff_getElem?.mp hmem
  rw [List.getElem?_drop] at hj
  have hjs : (s ++ [0])[k + j]? = some c := by
    rw [List.getElem?_append_left (List.getElem?_eq_some_iff.mp hj).1, hj]
  rintro (⟨i, hi, hresult⟩ | ⟨hfree, -⟩)
  · have hij : k + j ≤ i := by
      by_contra hlt
      exact hi.2 (k + j) (by omega) hjs
    cases hfind : Stubs.lastIndex c (s.take k ++ [0]) (s.take k ++ [0]).length with
    | none =>
      rw [hfind, Stubs.foundAt] at hresult
      omega
    | some i' =>
      have hi' := lt_limit_of_copy hlong hc (isLast_lastIndex hfind).1
      rw [hfind, foundAt_some hfits (by omega)] at hresult
      omega
  · exact hfree (List.mem_of_getElem? hjs)

/-- The backward search is right if it misses nothing. -/
theorem located_last {k : ℕ} (hlong : k < s.length) (hc : c ≠ 0)
    (hfits : a + s.length < 2 ^ 64) (hfree : c ∉ s.drop k) :
    Located IsLast a c (s ++ [0])
      (Stubs.foundAt a (Stubs.lastIndex c (s.take k ++ [0]) (s.take k ++ [0]).length)) := by
  refine located_foundAt hfits ?_ ?_ ?_
  · intro i hi
    have hlast := isLast_lastIndex hi
    have hik := lt_limit_of_copy hlong hc hlast.1
    refine ⟨by rw [← getElem?_copy hlong hik, hlast.1], fun j hj hget => ?_⟩
    by_cases hjk : j < k
    · exact hlast.2 j hj (by rw [getElem?_copy hlong hjk, hget])
    · exact hfree (mem_drop_of_getElem? hc (not_lt.mp hjk) hget)
  · intro i hi
    have hik := lt_limit_of_copy hlong hc (isLast_lastIndex hi).1
    omega
  · intro hnone hmem
    obtain ⟨j, hj⟩ := List.mem_iff_getElem?.mp hmem
    by_cases hjk : j < k
    · exact not_mem_of_lastIndex hnone (by simp [mem_take_of_getElem? hlong hjk hj])
    · exact hfree (mem_drop_of_getElem? hc (not_lt.mp hjk) hj)

/-- The backward search in a copy is right exactly if the limit does not matter. -/
theorem located_last_iff {k : ℕ} (hk : 0 < k) (hs : 0 ∉ s) (hfits : a + s.length < 2 ^ 64) :
    Located IsLast a c (s ++ [0])
        (Stubs.foundAt a (Stubs.lastIndex c (s.take k ++ [0]) ((s.take k).length + 1))) ↔
      s.length ≤ k ∨ (c ≠ 0 ∧ c ∉ s.drop k) := by
  have hlength : (s.take k).length + 1 = (s.take k ++ [0]).length := by simp
  rw [hlength]
  by_cases hle : s.length ≤ k
  · rw [List.take_of_length_le hle]
    refine iff_of_true (located_foundAt hfits ?_ ?_ ?_) (.inl hle)
    · exact fun i hi => isLast_lastIndex hi
    · exact fun i hi => index_le (isLast_lastIndex hi).1
    · exact fun hnone => not_mem_of_lastIndex hnone
  · have hlong : k < s.length := not_le.mp hle
    by_cases hzero : c = 0
    · -- The copy ends in a NUL of its own.
      subst hzero
      cases hfind : Stubs.lastIndex 0 (s.take k ++ [0]) (s.take k ++ [0]).length with
      | none => exact absurd (by simp) (not_mem_of_lastIndex hfind)
      | some i =>
        have hnot : (0 : UInt8) ∉ s.take k := fun h => hs (List.mem_of_mem_take h)
        have hik := eq_length_of_getElem? hnot (isLast_lastIndex hfind).1
        rw [List.length_take, Nat.min_eq_left hlong.le] at hik
        rw [hik, foundAt_some hfits hlong.le]
        refine iff_of_false (strchr_nul_wrong hs hlong fun _ h => h.1) ?_
        rintro (h | h)
        · exact hle h
        · exact h.1 rfl
    · simp only [hle, false_or, ne_eq, hzero, not_false_eq_true, true_and]
      constructor
      · exact fun hlocated hmem => not_located_last hk hlong hzero hfits hmem hlocated
      · exact fun hfree => located_last hlong hzero hfits hfree

/-! ## Comparing -/

theorem lt_iff_take_lt {k : ℕ} (h : s.take k ≠ t.take k) : s < t ↔ s.take k < t.take k := by
  induction k generalizing s t with
  | zero => simp at h
  | succ k ih =>
    cases s with
    | nil =>
      cases t with
      | nil => simp at h
      | cons b t => simp
    | cons b s =>
      cases t with
      | nil => simp
      | cons b' t =>
        simp only [List.take_succ_cons, List.cons_lt_cons_iff]
        by_cases hb : b = b'
        · subst hb
          have htail : s.take k ≠ t.take k := fun heq => h (by simp [heq])
          simp [ih htail]
        · simp [hb]

/-- Byte strings are totally ordered. -/
theorem lt_or_eq_or_gt (x y : List UInt8) : x < y ∨ x = y ∨ y < x := by
  induction x generalizing y with
  | nil =>
    cases y with
    | nil => simp
    | cons b y => simp
  | cons b x ih =>
    cases y with
    | nil => simp
    | cons b' y =>
      simp only [List.cons_lt_cons_iff, List.cons.injEq]
      rcases UInt8.lt_or_le b b' with hb | hb
      · exact .inl (.inl hb)
      · by_cases heq : b = b'
        · subst heq
          simpa using ih y
        · exact .inr (.inr (.inl (UInt8.lt_of_le_of_ne hb (Ne.symm heq))))

theorem not_gt_of_lt {x y : List UInt8} (h : x < y) : ¬y < x := by
  induction x generalizing y with
  | nil => simp
  | cons b x ih =>
    cases y with
    | nil => simp at h
    | cons b' y =>
      simp only [List.cons_lt_cons_iff] at h ⊢
      rintro (hb | ⟨rfl, htail⟩)
      · rcases h with h | ⟨rfl, -⟩
        · exact UInt8.lt_asymm h hb
        · exact UInt8.lt_irrefl _ hb
      · rcases h with h | ⟨-, h⟩
        · exact UInt8.lt_irrefl _ h
        · exact ih h htail

theorem ne_of_lt {x y : List UInt8} (h : x < y) : x ≠ y := by
  rintro rfl
  exact not_gt_of_lt h h

/-- The result of the comparison, as a number and as a C `int`. -/
theorem retInt_setRet (e : Engine) {z : ℤ} (hz : z = -1 ∨ z = 0 ∨ z = 1) :
    (e.setRet (z % 2 ^ 64).toNat).retInt = z := by
  have habi : (e.setRet (z % 2 ^ 64).toNat).ret = (z % 2 ^ 64).toNat % 2 ^ e.abi.bits :=
    Engine.ret_setRet e _
  rw [Engine.retInt, habi]
  cases e.abi with
  | arm64 => rcases hz with rfl | rfl | rfl <;> rfl
  | arm32 => rcases hz with rfl | rfl | rfl <;> rfl
  | x86 => rcases hz with rfl | rfl | rfl <;> rfl
  | x8664 => rcases hz with rfl | rfl | rfl <;> rfl

theorem compare_cases (x y : List UInt8) :
    (Stubs.compare x y = -1 ∧ x < y) ∨ (Stubs.compare x y = 0 ∧ x = y) ∨
      (Stubs.compare x y = 1 ∧ y < x) := by
  unfold Stubs.compare
  rcases lt_or_eq_or_gt x y with h | h | h
  · exact .inl ⟨if_pos h, h⟩
  · subst h
    exact .inr (.inl ⟨by simp, rfl⟩)
  · refine .inr (.inr ⟨?_, h⟩)
    rw [if_neg (not_gt_of_lt h), if_neg (ne_of_lt h).symm]

/-- Comparing copies gives the order of the strings unless only the copies are equal. -/
theorem compare_take_iff {k : ℕ} {z : ℤ} (hz : z = Stubs.compare (s.take k) (t.take k)) :
    ((z < 0 ↔ s < t) ∧ (z = 0 ↔ s = t) ∧ (0 < z ↔ t < s)) ↔
      (s = t ∨ s.take k ≠ t.take k) := by
  by_cases heq : s.take k = t.take k
  · have hzero : z = 0 := by simp [hz, heq, Stubs.compare]
    simp only [heq, ne_eq, not_true_eq_false, or_false]
    constructor
    · exact fun h => h.2.1.mp hzero
    · rintro rfl
      simp [hzero]
  · have hlt := lt_iff_take_lt heq
    have hgt := lt_iff_take_lt (Ne.symm heq)
    refine iff_of_true ?_ (.inr heq)
    rcases compare_cases (s.take k) (t.take k) with ⟨hc, h⟩ | ⟨-, h⟩ | ⟨hc, h⟩
    · have hst := hlt.mpr h
      simp only [hz, hc, hst, ne_of_lt hst, not_gt_of_lt hst]
      decide
    · exact absurd h heq
    · have hts := hgt.mpr h
      simp only [hz, hc, hts, (ne_of_lt hts).symm, not_gt_of_lt hts]
      decide

/-! ## The stubs -/

variable {m m' : Memory}

/-- A stub that returns meets C if its one final state does. -/
theorem meetsC_iff (f : StrStub) (h : f.run m = .ok () m') :
    f.MeetsC m s t ↔ f.Result m.engine m'.engine s t := by
  constructor
  · rintro ⟨m'', hrun, hresult⟩
    obtain ⟨-, rfl⟩ := EStateM.Result.ok.inj (h.symm.trans hrun)
    exact hresult
  · exact fun hresult => ⟨m', h, hresult⟩

theorem fits_64 {e : Engine} (hs : e.IsCstr a s) : a + s.length < 2 ^ 64 := by
  have hfits := hs.fits
  have hbits : 2 ^ e.abi.bits ≤ 2 ^ 64 := by
    cases e.abi with
    | arm64 => decide
    | arm32 => decide
    | x86 => decide
    | x8664 => decide
  omega

theorem ret_setRet_of_lt {v : ℕ} (hv : v < 2 ^ m.engine.abi.bits) : (m.setRet v).engine.ret = v :=
  (Engine.ret_setRet m.engine v).trans (Nat.mod_eq_of_lt hv)

/-- What a search returns fits the result register. -/
theorem foundAt_lt {e : Engine} (hs : e.IsCstr a s) {found : Option ℕ}
    (hfound : ∀ i, found = some i → i ≤ s.length) : Stubs.foundAt a found < 2 ^ e.abi.bits := by
  have hfits := hs.fits
  cases found with
  | none => exact Nat.two_pow_pos _
  | some i =>
    have hi := hfound i rfl
    rw [foundAt_some (fits_64 hs) hi]
    omega

theorem strlen_meetsC_iff (habi : m.engine.abi ≠ .x86) (h : strlen.Given m.engine s t) :
    strlen.MeetsC m s t ↔ s.length ≤ kCstrMax := by
  have hfits := Engine.IsCstr.fits h
  have hlength : (s.take kCstrMax).length ≤ s.length := by simp
  rw [meetsC_iff strlen (Stubs.strlen_eq habi h)]
  simp only [Result]
  rw [ret_setRet_of_lt (by omega), List.length_take]
  omega

theorem strchr_meetsC_iff (habi : m.engine.abi ≠ .x86) (h : strchr.Given m.engine s t) :
    strchr.MeetsC m s t ↔ strchr.WithinLimit (char m.engine) s t := by
  rw [meetsC_iff strchr (Stubs.strchr_eq habi h)]
  simp only [Result, WithinLimit]
  rw [ret_setRet_of_lt (foundAt_lt h fun i hi => ?_)]
  · exact located_first_iff (by decide) h.nonzero (fits_64 h)
  · have hle := index_le (isFirst_findIdx? hi).1
    simp only [List.length_take] at hle
    omega

theorem strrchr_meetsC_iff (habi : m.engine.abi ≠ .x86) (h : strrchr.Given m.engine s t) :
    strrchr.MeetsC m s t ↔ strrchr.WithinLimit (char m.engine) s t := by
  rw [meetsC_iff strrchr (Stubs.strrchr_eq habi h)]
  simp only [Result, WithinLimit]
  rw [ret_setRet_of_lt (foundAt_lt h fun i hi => ?_)]
  · exact located_last_iff (by decide) h.nonzero (fits_64 h)
  · have hlt := (lastIndex_eq_some hi).1
    simp only [List.length_take] at hlt
    omega

/-- A destination holds the C result if the copies are the strings. -/
theorem holds_copies_iff {e : Engine} (hs : 0 ∉ s) (ht : 0 ∉ t)
    (h : e.Holds a (s.take kCstrMax ++ t.take kCstrMax ++ [0])) :
    e.Holds a (s ++ t ++ [0]) ↔ s.length ≤ kCstrMax ∧ t.length ≤ kCstrMax := by
  have hboth : 0 ∉ s ++ t := by simp [hs, ht]
  have hcopies : 0 ∉ s.take kCstrMax ++ t.take kCstrMax := by
    rw [List.mem_append, not_or]
    exact ⟨fun hmem => hs (List.mem_of_mem_take hmem), fun hmem => ht (List.mem_of_mem_take hmem)⟩
  constructor
  · intro hresult
    have heq := congrArg List.length (hresult.cstr_unique h hboth hcopies)
    simp only [List.length_append, List.length_take] at heq
    omega
  · rintro ⟨hs, ht⟩
    rwa [List.take_of_length_le hs, List.take_of_length_le ht] at h

theorem strcpy_meetsC_iff (habi : m.engine.abi ≠ .x86) (h : strcpy.Given m.engine s t) :
    strcpy.MeetsC m s t ↔ t.length ≤ kCstrMax := by
  obtain ⟨ht, hroom, -⟩ := h
  have hnil : m.engine.Holds (m.engine.arg 0) [] := ⟨hroom.mono (Nat.zero_le _), rfl⟩
  have hcopy := hnil.append_cstr (x := t.take kCstrMax) (hroom.mono (by simp))
  have hiff := holds_copies_iff (s := []) (by simp) ht.nonzero hcopy
  rw [meetsC_iff strcpy (Stubs.strcpy_eq habi ht hroom)]
  exact hiff.trans (and_iff_right (Nat.zero_le _))

theorem strcat_meetsC_iff (habi : m.engine.abi ≠ .x86) (h : strcat.Given m.engine s t) :
    strcat.MeetsC m s t ↔ s.length ≤ kCstrMax ∧ t.length ≤ kCstrMax := by
  obtain ⟨hs, ht, hroom, -⟩ := h
  have hfront : m.engine.Holds (m.engine.arg 0) (s.take kCstrMax) :=
    ((Engine.holds_append (by simp)).mp hs.holds).1.take kCstrMax
  have hcopy := hfront.append_cstr (x := t.take kCstrMax)
    (hroom.mono (by simp only [List.length_take]; omega))
  rw [meetsC_iff strcat (Stubs.strcat_eq habi hs ht hroom)]
  exact holds_copies_iff hs.nonzero ht.nonzero hcopy

theorem strcmp_meetsC_iff (habi : m.engine.abi ≠ .x86) (h : strcmp.Given m.engine s t) :
    strcmp.MeetsC m s t ↔ strcmp.WithinLimit (char m.engine) s t := by
  rw [meetsC_iff strcmp (Stubs.strcmp_eq habi h.1 h.2)]
  refine compare_take_iff (retInt_setRet m.engine ?_)
  rcases compare_cases (s.take kCstrMax) (t.take kCstrMax) with ⟨hc, -⟩ | ⟨hc, -⟩ | ⟨hc, -⟩
  · exact .inl hc
  · exact .inr (.inl hc)
  · exact .inr (.inr hc)

/-- A stub does what C says exactly if the guest passes arguments in registers and the limit of
4096 bytes does not matter to the call. -/
theorem run_meetsC_iff (f : StrStub) (m : Memory) (s t : List UInt8) (h : f.Given m.engine s t) :
    f.MeetsC m s t ↔ m.engine.abi ≠ .x86 ∧ f.WithinLimit (char m.engine) s t := by
  by_cases habi : m.engine.abi = .x86
  · obtain ⟨err, hrun⟩ := Stubs.run_x86 f habi
    refine iff_of_false ?_ fun hboth => hboth.1 habi
    rintro ⟨m', hok, -⟩
    cases hrun.symm.trans hok
  · rw [and_iff_right habi]
    cases f with
    | strlen => exact strlen_meetsC_iff habi h
    | strchr => exact strchr_meetsC_iff habi h
    | strrchr => exact strrchr_meetsC_iff habi h
    | strcpy => exact strcpy_meetsC_iff habi h
    | strcat => exact strcat_meetsC_iff habi h
    | strcpyChk => exact strcpy_meetsC_iff (s := s) habi h
    | strcmp => exact strcmp_meetsC_iff habi h

/-- A guest with `n` bytes `a` and a NUL behind them at its first argument. -/
def longMemory (n : ℕ) : Memory :=
  { Memory.init .arm64 false false with
    engine :=
      { abi := .arm64
        prot := fun _ => some ucProtRw
        byte := fun a => if 0x1000 ≤ a ∧ a < 0x1000 + n then 97 else 0
        reg := fun _ => 0x1000 } }

theorem isCstr_longMemory {n : ℕ} (hn : n < 2 ^ 32) :
    (longMemory n).engine.IsCstr 0x1000 (List.replicate n 97) := by
  refine ⟨fun h => ?_, ⟨⟨?_, fun i _ => rfl⟩, ?_⟩, ?_⟩
  · exact absurd (List.eq_of_mem_replicate h) (by decide)
  · rw [List.length_append, List.length_replicate, List.length_singleton]
    omega
  · refine List.ext_getElem (by rw [length_slice]) fun i hi hi' => ?_
    rw [length_slice, List.length_append, List.length_replicate, List.length_singleton] at hi
    simp only [slice, List.getElem_map, List.getElem_range, longMemory, List.getElem_append,
      List.length_replicate, List.getElem_replicate, List.getElem_singleton]
    by_cases hlt : i < n
    · rw [if_pos (by omega), dif_pos hlt]
    · rw [if_neg (by omega), dif_neg hlt]
  · rw [List.length_replicate]
    change _ < 2 ^ 64
    omega

/-- `strlen` of a string of 4097 bytes is not its length. -/
theorem strlen_of_long_string :
    strlen.Given (longMemory 4097).engine (List.replicate 4097 97) [] ∧
      ¬strlen.MeetsC (longMemory 4097) (List.replicate 4097 97) [] := by
  have hcstr := isCstr_longMemory (n := 4097) (by decide)
  refine ⟨hcstr, fun hmeets => ?_⟩
  have hle := (strlen_meetsC_iff (t := []) (by decide) hcstr).mp hmeets
  rw [List.length_replicate] at hle
  exact absurd hle (by decide)

/-- A guest with the string `hi` at both arguments. -/
def hiMemory : Memory :=
  { Memory.init .arm64 false false with
    engine :=
      { abi := .arm64
        prot := fun p => if p = 1 then some ucProtRw else none
        byte := fun a => if a = 0x1000 then 104 else if a = 0x1001 then 105 else 0
        reg := fun _ => 0x1000 } }

/-- The comparison of a string with itself. -/
theorem run_meetsC_iff_hi : strcmp.MeetsC hiMemory [104, 105] [104, 105] :=
  (run_meetsC_iff strcmp hiMemory [104, 105] [104, 105] ⟨by decide, by decide⟩).mpr
    ⟨by decide, .inl rfl⟩

end StrStub

end Vardoger
