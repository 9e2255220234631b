import Vardoger.Elf.GuestMemory

/-!
# Truncated files

Of the offsets and sizes in a file the loader checks only the program headers, in arithmetic that
wraps. The bytes of a segment are copied unchecked, and the name of a section is read up to the
next NUL wherever that is. We say what a file must be like for the loader to throw before it copies
a byte from outside of the data, and for the names of the sections to lie inside.
-/

namespace Vardoger.Elf

open Words Stateful LittleEndian Bytes

variable {τ : Type}

/-! ## Truncated files -/

/-- The file header. -/
def fileEhdr (b : Buffer) (c : ElfClass) : Ehdr := Ehdr.decode (b.data.take c.ehdrSize) c

/-- Where a program header is in the file. -/
def phdrPos (eh : Ehdr) (i : ℕ) : ℕ := eh.phoff + i * eh.phentsize

/-- The program header lies inside the data. -/
def HeaderInside (b : Buffer) (c : ElfClass) (i : ℕ) : Prop :=
  phdrPos (fileEhdr b c) i + c.phdrSize ≤ b.data.length

/-- A program header that lies inside the data. -/
def filePhdr (b : Buffer) (c : ElfClass) (i : ℕ) : Phdr :=
  Phdr.decode ((b.data.drop (phdrPos (fileEhdr b c) i)).take c.phdrSize) c

/-- The file range of a segment has a byte that is not in the data. -/
def Phdr.SticksOut (ph : Phdr) (b : Buffer) : Prop :=
  0 < ph.filesz ∧ b.data.length < ph.offset + ph.filesz

/-- A program header or the file range of a `PT_LOAD` does not lie inside the data. -/
inductive Truncated (b : Buffer) (c : ElfClass) : Prop
  | header {i : ℕ} (hi : i < (fileEhdr b c).phnum) (h : ¬HeaderInside b c i)
  | segment {i : ℕ} (hi : i < (fileEhdr b c).phnum) (h : HeaderInside b c i)
      (hload : (filePhdr b c i).type = ptLoad) (hout : (filePhdr b c i).SticksOut b)

/-- The loader gets as far as writing a segment. -/
def SegmentWritten (c : ElfClass) (b : Buffer) (name : String) (s : LoadState τ) (ph : Phdr) :
    Prop :=
  ∃ eh headers before after im s₁ s₂, readHeaders c b = .ok (eh, headers) ∧
    loadsOf headers = before ++ ph :: after ∧
    place c name (loadsOf headers) s = .ok im s₁ ∧
    (before ++ [ph]).forM (writeSegment b im.bias) s₁ = .ok ⟨⟩ s₂

/-- A byte from outside of the data is written to guest memory. -/
def WritesOutside (c : ElfClass) (b : Buffer) (name : String) (s : LoadState τ) : Prop :=
  ∃ ph, SegmentWritten c b name s ph ∧ ∃ i < ph.filesz, b.data.length ≤ add64 ph.offset i

section Property

variable (resolveImport : Option (List UInt8 → LoadM τ ℕ)) (b : Buffer) (name : String)
  (s : LoadState τ)

/-- A truncated file is rejected before a byte from outside of it is used. -/
def RejectsTruncated : Prop :=
  ∀ c, identify b.data name = .ok c → c.ehdrSize ≤ b.data.length → Truncated b c →
    (∃ err s', loadBytes resolveImport b name s = .error (.thrown err) s') ∧
      ¬WritesOutside c b name s

/-- The names of the recorded sections are C strings inside the data. -/
def NamesInside : Prop :=
  ∀ so s', loadBytes resolveImport b name s = .ok so s' →
    ∀ nm sec, so.sections nm = some sec → ∃ off, StandsAt b.data off (nm ++ [0])

/-- The sums for the program headers do not wrap. -/
def HeadersFit : Prop :=
  ∀ c, identify b.data name = .ok c → ∀ i < (fileEhdr b c).phnum,
    phdrPos (fileEhdr b c) i + c.phdrSize < 2 ^ 64

/-- With all program headers inside the data, a segment that sticks out cannot be written: there is
no place for the image, or the guest range of the segment or of one before it is not mapped. -/
def SegmentsGuarded : Prop :=
  ∀ c eh headers, identify b.data name = .ok c → readHeaders c b = .ok (eh, headers) →
    ∀ before ph after, loadsOf headers = before ++ ph :: after → ph.SticksOut b →
      ∀ im s₁, place c name (loadsOf headers) s = .ok im s₁ →
        ∃ q ∈ before ++ [ph], ¬s₁.Accessible (add64 im.bias q.vaddr) q.filesz

/-- The name of each section that the loader reads, if it starts inside the data, ends there. -/
def NamesTerminated : Prop :=
  ∀ c eh headers, identify b.data name = .ok c → readHeaders c b = .ok (eh, headers) →
    ∀ shstr, readShdr c b eh eh.shstrndx = .ok shstr →
      ∀ i < eh.shnum, ∀ sh, readShdr c b eh i = .ok sh →
        c.add shstr.offset sh.name < b.data.length →
          0 ∈ b.data.drop (c.add shstr.offset sh.name)

end Property

/-! ## Reads of the file -/

section Reads

variable {b : Buffer} {c : ElfClass} {off n i : ℕ}

theorem Buffer.bytes_eq (h : off + n ≤ b.data.length) :
    b.bytes off n = (b.data.drop off).take n := by
  have hfits := b.fits
  apply List.ext_getElem?
  intro i
  by_cases hi : i < n
  · rw [List.getElem?_take_of_lt hi, List.getElem?_drop, Buffer.bytes, List.getElem?_map,
      List.getElem?_range hi, Option.map_some, add64_of_lt (by omega), Buffer.byte,
      List.getD_eq_getElem _ _ (by omega), List.getElem?_eq_getElem (by omega)]
  · rw [List.getElem?_take_eq_none (by omega), List.getElem?_eq_none]
    simp only [Buffer.bytes, List.length_map, List.length_range]
    omega

theorem Buffer.readAt_eq (h : off + n ≤ b.data.length) :
    b.readAt n off = .ok ((b.data.drop off).take n) := by
  have hfits := b.fits
  rw [Buffer.readAt, add64_of_lt (by omega), if_neg (by omega), Buffer.bytes_eq h]

theorem Buffer.readAt_error (h : b.data.length < off + n) (hwrap : off + n < 2 ^ 64) :
    b.readAt n off = .error (.runtime "ELF: read past end of file") := by
  rw [Buffer.readAt, add64_of_lt hwrap, if_pos h]

/-- The header table is read as it stands in the file if it does not wrap. -/
theorem readPhdr_eq (hwrap : phdrPos (fileEhdr b c) i + c.phdrSize < 2 ^ 64)
    (h : HeaderInside b c i) : readPhdr c b (fileEhdr b c) i = .ok (filePhdr b c i) := by
  have hpos : add64 (fileEhdr b c).phoff (i * (fileEhdr b c).phentsize) =
      phdrPos (fileEhdr b c) i := add64_of_lt (Nat.lt_of_le_of_lt (Nat.le_add_right _ _) hwrap)
  rw [readPhdr, hpos, Buffer.readAt_eq h]
  rfl

theorem readPhdr_error (hwrap : phdrPos (fileEhdr b c) i + c.phdrSize < 2 ^ 64)
    (h : ¬HeaderInside b c i) :
    readPhdr c b (fileEhdr b c) i = .error (.runtime "ELF: read past end of file") := by
  have hpos : add64 (fileEhdr b c).phoff (i * (fileEhdr b c).phentsize) =
      phdrPos (fileEhdr b c) i := add64_of_lt (Nat.lt_of_le_of_lt (Nat.le_add_right _ _) hwrap)
  rw [readPhdr, hpos, Buffer.readAt_error (not_le.mp h) hwrap]
  rfl

theorem readHeaders_eq (hsize : c.ehdrSize ≤ b.data.length) :
    readHeaders c b = (fun headers => (fileEhdr b c, headers)) <$>
      (List.range (fileEhdr b c).phnum).mapM (readPhdr c b (fileEhdr b c)) := by
  have hread : b.readAt c.ehdrSize 0 = .ok (b.data.take c.ehdrSize) :=
    Buffer.readAt_eq (by omega)
  rw [readHeaders, hread]
  rfl

/-- With all headers inside the data, the loader has the headers of the file. -/
theorem readHeaders_ok (hsize : c.ehdrSize ≤ b.data.length)
    (hfit : ∀ i < (fileEhdr b c).phnum, phdrPos (fileEhdr b c) i + c.phdrSize < 2 ^ 64)
    (h : ∀ i < (fileEhdr b c).phnum, HeaderInside b c i) :
    readHeaders c b =
      .ok (fileEhdr b c, (List.range (fileEhdr b c).phnum).map (filePhdr b c)) := by
  have hloop : (List.range (fileEhdr b c).phnum).mapM (readPhdr c b (fileEhdr b c)) =
      .ok ((List.range (fileEhdr b c).phnum).map (filePhdr b c)) := by
    apply mapM_ok
    intro i hi
    have hi := List.mem_range.mp hi
    exact readPhdr_eq (hfit i hi) (h i hi)
  rw [readHeaders_eq hsize, hloop]
  rfl

/-- Otherwise it throws. -/
theorem readHeaders_error (hsize : c.ehdrSize ≤ b.data.length)
    (hwrap : phdrPos (fileEhdr b c) i + c.phdrSize < 2 ^ 64) (hi : i < (fileEhdr b c).phnum)
    (h : ¬HeaderInside b c i) : ∃ err, readHeaders c b = .error err := by
  cases hloop : (List.range (fileEhdr b c).phnum).mapM (readPhdr c b (fileEhdr b c)) with
  | error err =>
    refine ⟨err, ?_⟩
    rw [readHeaders_eq hsize, hloop]
    rfl
  | ok headers =>
    exfalso
    obtain ⟨ph, -, hph⟩ := (of_mapM_ok hloop).1 i (List.mem_range.mpr hi)
    cases (readPhdr_error hwrap h).symm.trans hph

/-- The string at an offset inside the data ends at the next NUL of the data. -/
theorem Buffer.standsAt_cstr (hoff : off < b.data.length) (hnul : 0 ∈ b.data.drop off) :
    StandsAt b.data off (b.cstr off ++ [0]) := by
  have hfits := b.fits
  have hbytes : b.bytes off (b.data.length + b.nul - off) =
      b.data.drop off ++ (List.range b.nul).map fun i => b.byte (add64 b.data.length i) := by
    have hsplit : b.data.length + b.nul - off = (b.data.length - off) + b.nul := by omega
    have hfront : b.bytes off (b.data.length - off) = _ := Buffer.bytes_eq (by omega)
    rw [List.take_of_length_le (by rw [List.length_drop])] at hfront
    rw [Buffer.bytes, hsplit, List.range_add, List.map_append, List.map_map, ← hfront]
    congr 1
    apply List.map_congr_left
    intro i _
    simp only [Function.comp_apply, add64]
    congr 2
    omega
  obtain ⟨nm, rest, hsplit, hnm⟩ := List.eq_append_cons_of_mem hnul
  have hcstr : b.cstr off = nm := by
    rw [Buffer.cstr, hbytes, hsplit, List.append_assoc, List.takeWhile_append_of_pos]
    · simp
    · intro x hx
      simpa using ne_of_mem_of_not_mem hx hnm
  rw [hcstr, StandsAt, hsplit]
  exact ⟨rest, by simp⟩

end Reads

/-! ## Stages of a load -/

section Stages

variable {b : Buffer} {c : ElfClass} {name : String} {s s' : LoadState τ}
  {resolveImport : Option (List UInt8 → LoadM τ ℕ)} {eh : Ehdr} {headers : List Phdr} {bias : ℕ}

theorem loadBytes_eq (h : identify b.data name = .ok c) :
    loadBytes resolveImport b name s = loadImpl c resolveImport b name s := by
  have hlift : (liftExcept (identify b.data name) : LoadM τ _) s = .ok c s := by
    rw [h]
    rfl
  exact bind_ok hlift

theorem loadImpl_of_headers_error {err : Failure} (h : readHeaders c b = .error err) :
    loadImpl c resolveImport b name s = .error (.thrown err) s := by
  have hlift : (liftExcept (readHeaders c b) : LoadM τ _) s = .error (.thrown err) s := by
    rw [h]
    rfl
  exact bind_error hlift

/-- A segment is written if its guest range is mapped. -/
theorem writeSegment_cases (bias : ℕ) (ph : Phdr) (s : LoadState τ) :
    (s.Accessible (add64 bias ph.vaddr) ph.filesz ∧
        ∃ f, writeSegment b bias ph s = .ok () (s.withBytes f)) ∨
      ¬s.Accessible (add64 bias ph.vaddr) ph.filesz ∧
        ∃ err, writeSegment b bias ph s = .error (.thrown err) s := by
  have hlength : (b.bytes ph.offset ph.filesz).length = ph.filesz := by simp [Buffer.bytes]
  by_cases h : s.Accessible (add64 bias ph.vaddr) ph.filesz
  · left
    refine ⟨h, (s.mem.engine.setBytes (add64 bias ph.vaddr) (b.bytes ph.offset ph.filesz)).byte, ?_⟩
    have hwrite : s.mem.engine.Accessible (add64 bias ph.vaddr)
        (b.bytes ph.offset ph.filesz).length := by rwa [hlength]
    simp only [writeSegment, onEngine, onMem, Memory.onEngine, Engine.write_eq hwrite]
    rfl
  · right
    refine ⟨h, .engine "uc_mem_write", ?_⟩
    have hwrite : ¬s.mem.engine.Accessible (add64 bias ph.vaddr)
        (b.bytes ph.offset ph.filesz).length := by rwa [hlength]
    simp only [writeSegment, onEngine, onMem, Memory.onEngine, Engine.write, if_neg hwrite]

/-- Segments are written one after the other if the guest ranges of all are mapped. -/
theorem writeSegments_cases (bias : ℕ) (segments : List Phdr) (s : LoadState τ) :
    ((∀ q ∈ segments, s.Accessible (add64 bias q.vaddr) q.filesz) ∧
        ∃ f, segments.forM (writeSegment b bias) s = .ok ⟨⟩ (s.withBytes f)) ∨
      (∃ q ∈ segments, ¬s.Accessible (add64 bias q.vaddr) q.filesz) ∧
        ∃ err s', segments.forM (writeSegment b bias) s = .error (.thrown err) s' := by
  induction segments generalizing s with
  | nil => exact .inl ⟨by simp, s.byte, rfl⟩
  | cons ph segments ih =>
    rw [forM_cons_apply]
    rcases writeSegment_cases (b := b) bias ph s with ⟨hph, f, hrun⟩ | ⟨hph, err, hrun⟩
    · rw [bind_ok hrun]
      rcases ih (s.withBytes f) with ⟨hall, g, hrest⟩ | ⟨⟨q, hq, hnot⟩, err, s', hrest⟩
      · left
        refine ⟨?_, g, hrest⟩
        rw [List.forall_mem_cons]
        exact ⟨hph, hall⟩
      · right
        exact ⟨⟨q, List.mem_cons_of_mem _ hq, hnot⟩, err, s', hrest⟩
    · right
      rw [bind_error hrun]
      exact ⟨⟨ph, List.mem_cons_self, hph⟩, err, s, rfl⟩

theorem place_cases (c : ElfClass) (name : String) (loads : List Phdr) (s : LoadState τ) :
    (∃ im s₁, place c name loads s = .ok im s₁) ∨
      ∃ err s', place c name loads s = .error (.thrown err) s' := by
  by_cases h : s.mem.engine.Mappable s.mem.libNext (pageAlignUp (spanOf c loads))
  · exact .inl ⟨_, _, place_eq h⟩
  · exact .inr ⟨_, _, place_error h⟩

theorem loadImpl_eq (h : readHeaders c b = .ok (eh, headers)) (hloads : loadsOf headers ≠ []) :
    loadImpl c resolveImport b name s = loadImage c resolveImport b name eh headers s := by
  have hlift : (liftExcept (readHeaders c b) : LoadM τ _) s = .ok (eh, headers) s := by
    rw [h]
    rfl
  rw [loadImpl, bind_ok hlift]
  dsimp only
  rw [if_neg hloads]

/-- A load whose segments cannot all be written throws. -/
theorem loadImage_of_segment_error
    (hblocked : ∀ im s₁, place c name (loadsOf headers) s = .ok im s₁ →
      ∃ q ∈ loadsOf headers, ¬s₁.Accessible (add64 im.bias q.vaddr) q.filesz) :
    ∃ err s', loadImage c resolveImport b name eh headers s = .error (.thrown err) s' := by
  rw [loadImage]
  rcases place_cases c name (loadsOf headers) s with ⟨im, s₁, hplace⟩ | ⟨err, s', hplace⟩
  · obtain ⟨q, hq, hnot⟩ := hblocked im s₁ hplace
    rcases writeSegments_cases (b := b) im.bias (loadsOf headers) s₁ with
      ⟨hall, -⟩ | ⟨-, err, s', hwrite⟩
    · exact absurd (hall q hq) hnot
    · rw [bind_ok hplace, bind_error hwrite]
      exact ⟨err, s', rfl⟩
  · rw [bind_error hplace]
    exact ⟨err, s', rfl⟩

/-- The sections of a library that was loaded. -/
theorem sections_of_loadImpl {so : SoInfo} (h : loadImpl c resolveImport b name s = .ok so s') :
    ∃ eh headers bias, readHeaders c b = .ok (eh, headers) ∧
      collectSections c b eh bias = .ok so.sections := by
  obtain ⟨⟨eh, headers⟩, s₁, hlift, h⟩ := of_bind_ok h
  have hheaders : readHeaders c b = .ok (eh, headers) := by
    cases hread : readHeaders c b with
    | ok r =>
      rw [hread] at hlift
      obtain ⟨rfl, -⟩ := EStateM.Result.ok.inj hlift
      rfl
    | error err =>
      rw [hread] at hlift
      cases hlift
  dsimp only at h
  split at h
  · cases h
  · obtain ⟨im, s₂, -, h⟩ := of_bind_ok h
    obtain ⟨⟨⟩, s₃, -, h⟩ := of_bind_ok h
    obtain ⟨so', s₄, -, h⟩ := of_bind_ok h
    obtain ⟨⟨⟩, s₅, -, h⟩ := of_bind_ok h
    obtain ⟨sections, s₆, hsections, h⟩ := of_bind_ok h
    obtain ⟨rfl, -⟩ := EStateM.Result.ok.inj h
    refine ⟨eh, headers, im.bias, hheaders, ?_⟩
    cases hcollect : collectSections c b eh im.bias with
    | ok r =>
      rw [hcollect] at hsections
      obtain ⟨rfl, -⟩ := EStateM.Result.ok.inj hsections
      rfl
    | error err =>
      rw [hcollect] at hsections
      cases hsections

end Stages

/-! ## Section names -/

section Names

variable {b : Buffer} {c : ElfClass} {bias : ℕ}

/-- The names in a map are C strings inside the data. -/
def Inside (b : Buffer) (sections : NameMap Section) : Prop :=
  ∀ nm sec, sections nm = some sec → ∃ off, StandsAt b.data off (nm ++ [0])

theorem Inside.addSection {shstr sh : Shdr} {sections : NameMap Section} (h : Inside b sections)
    (hname : c.add shstr.offset sh.name < b.data.length →
      0 ∈ b.data.drop (c.add shstr.offset sh.name)) :
    Inside b (addSection c b bias shstr sh sections) := by
  unfold Elf.addSection
  dsimp only
  split
  · exact h
  next hoff =>
    split
    · exact h
    next hne =>
      have hoff := not_le.mp hoff
      have hstands := Buffer.standsAt_cstr hoff (hname hoff)
      intro nm sec hsec
      by_cases hnm : nm = b.cstr (c.add shstr.offset sh.name)
      · rw [hnm]
        exact ⟨_, hstands⟩
      · rw [Function.update_of_ne hnm] at hsec
        exact h nm sec hsec

theorem Inside.foldl_addSection {shstr : Shdr} {headers : List Shdr} {sections : NameMap Section}
    (h : Inside b sections)
    (hnames : ∀ sh ∈ headers, c.add shstr.offset sh.name < b.data.length →
      0 ∈ b.data.drop (c.add shstr.offset sh.name)) :
    Inside b (headers.foldl (fun sections sh => Elf.addSection c b bias shstr sh sections)
      sections) := by
  induction headers generalizing sections with
  | nil => exact h
  | cons sh headers ih =>
    rw [List.foldl_cons]
    apply ih
    · exact h.addSection (hnames sh List.mem_cons_self)
    · intro sh' hsh'
      exact hnames sh' (List.mem_cons_of_mem _ hsh')

theorem inside_collectSections {eh : Ehdr} {sections : NameMap Section}
    (hnames : ∀ shstr, readShdr c b eh eh.shstrndx = .ok shstr →
      ∀ i < eh.shnum, ∀ sh, readShdr c b eh i = .ok sh →
        c.add shstr.offset sh.name < b.data.length →
          0 ∈ b.data.drop (c.add shstr.offset sh.name))
    (h : collectSections c b eh bias = .ok sections) : Inside b sections := by
  have hempty : Inside b fun _ => none := by
    intro nm sec hsec
    cases hsec
  rw [collectSections] at h
  split at h
  · cases hshstr : readShdr c b eh eh.shstrndx with
    | error err =>
      rw [hshstr] at h
      cases h
    | ok shstr =>
      cases hheaders : (List.range eh.shnum).mapM (readShdr c b eh) with
      | error err =>
        rw [hshstr, hheaders] at h
        cases h
      | ok headers =>
        rw [hshstr, hheaders] at h
        obtain rfl := Except.ok.inj h
        apply hempty.foldl_addSection
        intro sh hsh
        obtain ⟨i, hi, hread⟩ := (of_mapM_ok hheaders).2 sh hsh
        exact hnames shstr hshstr i (List.mem_range.mp hi) sh hread
  · obtain rfl := Except.ok.inj h
    exact hempty

end Names

/-! ## The result -/

variable {b : Buffer} {c : ElfClass} {name : String} {s : LoadState τ}
  {resolveImport : Option (List UInt8 → LoadM τ ℕ)}

theorem identify_of_loadBytes {so : SoInfo} {s' : LoadState τ}
    (h : loadBytes resolveImport b name s = .ok so s') : ∃ c, identify b.data name = .ok c := by
  cases hc : identify b.data name with
  | ok c => exact ⟨c, rfl⟩
  | error err =>
    have hlift : (liftExcept (identify b.data name) : LoadM τ _) s = .error (.thrown err) s := by
      rw [hc]
      rfl
    rw [loadBytes, bind_error hlift] at h
    cases h

theorem namesInside_of_terminated (h : NamesTerminated b name) :
    NamesInside resolveImport b name s := by
  intro so s' hload
  obtain ⟨c, hc⟩ := identify_of_loadBytes hload
  rw [loadBytes_eq hc] at hload
  obtain ⟨eh, headers, bias, hheaders, hsections⟩ := sections_of_loadImpl hload
  exact inside_collectSections (h c eh headers hc hheaders) hsections

/-- The offset of a segment is a word. -/
theorem Phdr.offset_lt (x : List UInt8) (c : ElfClass) : (Phdr.decode x c).offset < 2 ^ 64 := by
  have hword : ∀ n ≤ 8, ∀ p, wordAt n x p < 2 ^ 64 := by
    intro n hn p
    have hlt := ofBytes_lt ((x.drop p).take n)
    have hlength : ((x.drop p).take n).length ≤ 8 := by
      rw [List.length_take]
      omega
    have hpow : 256 ^ ((x.drop p).take n).length ≤ 256 ^ 8 :=
      Nat.pow_le_pow_right (by decide) hlength
    exact Nat.lt_of_lt_of_le hlt hpow
  cases c with
  | elf32 => exact hword 4 (by decide) _
  | elf64 => exact hword 8 (by decide) _

/-- A segment sticks out exactly if it has a byte from outside of the data. -/
theorem sticksOut_iff {ph : Phdr} (hoffset : ph.offset < 2 ^ 64) :
    ph.SticksOut b ↔ ∃ i < ph.filesz, b.data.length ≤ add64 ph.offset i := by
  have hfits := b.fits
  constructor
  · rintro ⟨hpos, hout⟩
    by_cases hstart : b.data.length ≤ ph.offset
    · exact ⟨0, hpos, by rw [add64_of_lt (by omega)]; omega⟩
    · refine ⟨b.data.length - ph.offset, by omega, ?_⟩
      rw [add64_of_lt (by omega)]
      omega
  · rintro ⟨i, hi, hlength⟩
    have hle : add64 ph.offset i ≤ ph.offset + i := Nat.mod_le _ _
    exact ⟨by omega, by omega⟩

/-- Headers that were read are those of the file, entry by entry. -/
theorem of_readHeaders_ok {eh : Ehdr} {headers : List Phdr}
    (h : readHeaders c b = .ok (eh, headers)) :
    c.ehdrSize ≤ b.data.length ∧ eh = fileEhdr b c ∧
      (List.range (fileEhdr b c).phnum).mapM (readPhdr c b (fileEhdr b c)) = .ok headers := by
  have hsize : c.ehdrSize ≤ b.data.length := by
    by_contra hsmall
    have hfits : 0 + c.ehdrSize < 2 ^ 64 := by cases c <;> decide
    rw [readHeaders, Buffer.readAt_error (by omega) hfits] at h
    cases h
  rw [readHeaders_eq hsize] at h
  cases hloop : (List.range (fileEhdr b c).phnum).mapM (readPhdr c b (fileEhdr b c)) with
  | error err =>
    rw [hloop] at h
    cases h
  | ok headers' =>
    rw [hloop] at h
    obtain ⟨rfl, rfl⟩ := Prod.mk.inj (Except.ok.inj h)
    exact ⟨hsize, rfl, rfl⟩

theorem readPhdr_of_mem_loads {eh : Ehdr} {headers : List Phdr} {ph : Phdr}
    (h : readHeaders c b = .ok (eh, headers)) (hph : ph ∈ loadsOf headers) :
    ph.type = ptLoad ∧
      ∃ i < (fileEhdr b c).phnum, readPhdr c b (fileEhdr b c) i = .ok ph := by
  obtain ⟨hmem, hload⟩ := List.mem_filter.mp hph
  obtain ⟨i, hi, hread⟩ := (of_mapM_ok (of_readHeaders_ok h).2.2).2 ph hmem
  exact ⟨of_decide_eq_true hload, i, List.mem_range.mp hi, hread⟩

theorem offset_lt_of_readPhdr {eh : Ehdr} {i : ℕ} {ph : Phdr} (h : readPhdr c b eh i = .ok ph) :
    ph.offset < 2 ^ 64 := by
  rw [readPhdr] at h
  cases hread : b.readAt c.phdrSize (add64 eh.phoff (i * eh.phentsize)) with
  | error err =>
    rw [hread] at h
    cases h
  | ok x =>
    rw [hread] at h
    obtain rfl := Except.ok.inj h
    exact Phdr.offset_lt x c

/-- What is written comes from the data if no segment that sticks out can be written. -/
theorem not_writesOutside (hc : identify b.data name = .ok c) (h : SegmentsGuarded b name s) :
    ¬WritesOutside c b name s := by
  rintro ⟨ph, ⟨eh, headers, before, after, im, s₁, s₂, hheaders, hloads, hplace, hwrite⟩, hout⟩
  have hph : ph ∈ loadsOf headers := by
    rw [hloads]
    simp
  obtain ⟨-, i, -, hread⟩ := readPhdr_of_mem_loads hheaders hph
  have hsticks := (sticksOut_iff (offset_lt_of_readPhdr hread)).mpr hout
  obtain ⟨q, hq, hnot⟩ := h c eh headers hc hheaders before ph after hloads hsticks im s₁ hplace
  rcases writeSegments_cases (b := b) im.bias (before ++ [ph]) s₁ with
    ⟨hall, -⟩ | ⟨-, err, s', herror⟩
  · exact hnot (hall q hq)
  · cases hwrite.symm.trans herror

/-- With headers that fit, a truncated file is rejected exactly if no segment that sticks out can be
written. -/
theorem rejectsTruncated_iff (hfit : HeadersFit b name) :
    RejectsTruncated resolveImport b name s ↔ SegmentsGuarded b name s := by
  constructor
  · intro h c eh headers hc hheaders before ph after hloads hsticks im s₁ hplace
    by_contra hnone
    have hph : ph ∈ loadsOf headers := by
      rw [hloads]
      simp
    obtain ⟨hload, i, hi, hread⟩ := readPhdr_of_mem_loads hheaders hph
    have hinside : HeaderInside b c i := by
      by_contra hnot
      cases (readPhdr_error (hfit c hc i hi) hnot).symm.trans hread
    obtain rfl := Except.ok.inj ((readPhdr_eq (hfit c hc i hi) hinside).symm.trans hread)
    apply (h c hc (of_readHeaders_ok hheaders).1 (.segment hi hinside hload hsticks)).2
    rcases writeSegments_cases (b := b) im.bias (before ++ [filePhdr b c i]) s₁ with
      ⟨-, f, hwrite⟩ | ⟨hblocked, -⟩
    · refine ⟨filePhdr b c i, ?_, (sticksOut_iff (offset_lt_of_readPhdr hread)).mp hsticks⟩
      exact ⟨eh, headers, before, after, im, s₁, _, hheaders, hloads, hplace, hwrite⟩
    · exact absurd hblocked hnone
  · intro h c hc hsize htruncated
    refine ⟨?_, not_writesOutside hc h⟩
    rw [loadBytes_eq hc]
    by_cases hall : ∀ i < (fileEhdr b c).phnum, HeaderInside b c i
    · have hheaders := readHeaders_ok hsize (hfit c hc) hall
      cases htruncated with
      | header hi hnot => exact absurd (hall _ hi) hnot
      | @segment i hi hinside hload hsticks =>
        have hph : filePhdr b c i ∈
            loadsOf ((List.range (fileEhdr b c).phnum).map (filePhdr b c)) :=
          List.mem_filter.mpr ⟨List.mem_map_of_mem (List.mem_range.mpr hi), by simpa using hload⟩
        obtain ⟨before, after, hloads⟩ := List.append_of_mem hph
        rw [loadImpl_eq hheaders (List.ne_nil_of_mem hph)]
        apply loadImage_of_segment_error
        intro im s₁ hplace
        obtain ⟨q, hq, hnot⟩ :=
          h c _ _ hc hheaders before _ after hloads hsticks im s₁ hplace
        refine ⟨q, ?_, hnot⟩
        rw [hloads]
        simp only [List.mem_append, List.mem_cons, List.not_mem_nil, or_false] at hq ⊢
        tauto
    · simp only [not_forall] at hall
      obtain ⟨i, hi, hnot⟩ := hall
      obtain ⟨err, herror⟩ := readHeaders_error hsize (hfit c hc i hi) hi hnot
      exact ⟨err, s, loadImpl_of_headers_error herror⟩

/-- The name at an offset is terminated inside the data exactly if there is a NUL behind it. -/
theorem standsAt_cstr_iff {off : ℕ} (hoff : off < b.data.length) :
    StandsAt b.data off (b.cstr off ++ [0]) ↔ 0 ∈ b.data.drop off := by
  constructor
  · intro h
    exact h.subset (by simp)
  · exact Buffer.standsAt_cstr hoff

/-- A file of 120 bytes with one segment of a page. -/
def truncatedFile : Buffer where
  data := [0x7f, 0x45, 0x4c, 0x46, 2, 1] ++ List.replicate 10 0 ++ toBytes 2 3 ++ toBytes 2 183 ++
    List.replicate 12 0 ++ toBytes 8 64 ++ List.replicate 14 0 ++ toBytes 2 56 ++ toBytes 2 1 ++
    List.replicate 6 0 ++
    toBytes 4 1 ++ toBytes 4 5 ++ List.replicate 24 0 ++ toBytes 8 0x1000 ++ toBytes 8 0x1000 ++
    toBytes 8 0x1000
  outside := fun _ => 0
  fits := by decide
  nul := 0
  outside_nul := rfl

end Vardoger.Elf
