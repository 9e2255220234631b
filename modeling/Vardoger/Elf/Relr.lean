import Vardoger.Elf.GuestMemory

/-!
# Compressed relative relocations

A `RELR` stream lists the words to which the load bias is added: an even entry lists its own
address, and the odd entries behind it are bitmaps of 63 words each. The loader keeps a cursor. We
compare it with the closed form of the listed addresses and show that each listed word is biased
once.
-/

namespace Vardoger.Elf

open Words Stateful LittleEndian Patches

/-! ## Images -/

/-- Where an image stands: guest memory from `base` on is the image from the file address `vmin`
on. -/
structure Window where
  base : ℕ
  vmin : ℕ
  size : ℕ
  base_aligned : 4096 ∣ base
  vmin_aligned : 4096 ∣ vmin
  base_fits : base + size ≤ 2 ^ 64
  vmin_fits : vmin + size ≤ 2 ^ 64

namespace Window

variable (w : Window)

def bias : ℕ := sub64 w.base w.vmin

/-- A range of `n` bytes at a file address lies in the image. -/
def Has (v n : ℕ) : Prop := w.vmin ≤ v ∧ v + n ≤ w.vmin + w.size

/-- The guest address of a file address. -/
def addr (v : ℕ) : ℕ := w.base + (v - w.vmin)

variable {w}

theorem add64_bias {v n : ℕ} (h : w.Has v n) (hn : 0 < n) : add64 w.bias v = w.addr v := by
  have hbase := w.base_fits
  have hvmin := w.vmin_fits
  have hlow := h.1
  have hhigh := h.2
  unfold bias addr add64 sub64
  omega

theorem Has.accessible {τ : Type} {s : LoadState τ} {v n : ℕ} (h : w.Has v n)
    (hs : s.Accessible w.base w.size) : s.Accessible (w.addr v) n := by
  have hlow := h.1
  have hhigh := h.2
  apply hs.part
  · unfold addr
    omega
  · unfold addr
    omega

/-- Different aligned words of the file are separate words of the image. -/
theorem separate_addr {u v : ℕ} (hu : w.Has u 8) (hv : w.Has v 8) (hau : 8 ∣ u) (hav : 8 ∣ v)
    (hne : u ≠ v) : Separate 8 (w.addr u) (w.addr v) := by
  have hlowu := hu.1
  have hlowv := hv.1
  unfold Separate addr
  omega

end Window

/-! ## The listed words -/

/-- The addresses that the rest of a stream lists behind the address `a` and `k` bitmaps. Bit `i` of
the next bitmap is for the word number `63 * k + (i - 1)` behind that of `a`. -/
def listedFrom (a k : ℕ) : List ℕ → List ℕ
  | [] => []
  | e :: es =>
      if e % 2 = 0 then e :: listedFrom e 0 es
      else ((List.range' 1 63).filter e.testBit).map (fun i => a + 8 + 8 * (63 * k + (i - 1))) ++
        listedFrom a (k + 1) es

/-- The addresses that a stream lists; its first entry is an address. -/
def relrListed (stream : List ℕ) : List ℕ := listedFrom 0 0 stream

variable {τ : Type} {s : LoadState τ} {bias : ℕ}

/-- The words stand in a table in guest memory. -/
structure HoldsWords (s : LoadState τ) (table : ℕ) (words : List ℕ) : Prop where
  accessible : s.Accessible table (8 * words.length)
  word : ∀ i e, words[i]? = some e → wordOf s.byte 8 (table + 8 * i) = e

theorem slice_updated_of_separate {n q : ℕ} {step : List UInt8 → List UInt8}
    (hstep : ∀ x : List UInt8, x.length = n → (step x).length = n) {ps : List ℕ}
    (h : ∀ p ∈ ps, Separate n p q) (f : ℕ → UInt8) :
    slice (updated step n f ps) q n = slice f q n := by
  induction ps generalizing f with
  | nil => rfl
  | cons p ps ih =>
    have hrest := ih (fun p hp => h p (List.mem_cons_of_mem _ hp)) (update step n f p)
    rw [update, slice_put_of_separate (h p List.mem_cons_self)
      (hstep _ (length_slice _ _ _))] at hrest
    exact hrest

/-- Words beside the biased slots stay. -/
theorem HoldsWords.updated {table : ℕ} {words slots : List ℕ} (h : HoldsWords s table words)
    (hslots : ∀ a ∈ slots, a + 8 ≤ table ∨ table + 8 * words.length ≤ a) :
    HoldsWords (s.withBytes (updated (biased bias) 8 s.byte slots)) table words := by
  refine ⟨h.accessible, fun i e he => ?_⟩
  have hi : i < words.length := (List.getElem?_eq_some_iff.mp he).1
  rw [LoadState.byte_withBytes, wordOf,
    slice_updated_of_separate (fun x _ => length_biased bias x) ?_ s.byte]
  · exact h.word i e he
  · intro a ha
    have hapart := hslots a ha
    unfold Separate
    omega

theorem HoldsWords.readWord_head {table e : ℕ} {words : List ℕ}
    (h : HoldsWords s table (e :: words)) : readWord 8 table s = .ok e s := by
  have haccessible : s.Accessible table 8 := by
    apply h.accessible.part (Nat.le_refl _)
    rw [List.length_cons]
    omega
  have hvalue : wordOf s.byte 8 table = e := h.word 0 e rfl
  rw [readWord_eq haccessible, hvalue]

theorem HoldsWords.tail {table e : ℕ} {words : List ℕ} (h : HoldsWords s table (e :: words)) :
    HoldsWords s (table + 8) words := by
  constructor
  · apply h.accessible.part
    · omega
    · rw [List.length_cons]
      omega
  · intro i e' he'
    rw [← h.word (i + 1) e' he']
    congr 1
    omega

/-! ## The cursor -/

/-- The slots of a bitmap, for a cursor at its first word. -/
def bitmapSlots (start e : ℕ) : List ℕ :=
  ((List.range' 1 63).filter e.testBit).map fun i => add64 start ((i - 1) * 8)

theorem bitmapSlots_eq (start e : ℕ) :
    bitmapSlots start e = ((List.range 63).filter (e / 2).testBit).map fun i =>
      add64 start (i * 8) := by
  have hrange : List.range' 1 63 = (List.range 63).map (· + 1) := by decide
  have hbits : e.testBit ∘ (· + 1) = (e / 2).testBit := by
    funext i
    exact Nat.testBit_succ ..
  rw [bitmapSlots, hrange, List.filter_map, List.map_map, hbits]
  rfl

/-- The bits of a bitmap bias its slots. -/
theorem relrBits_eq {start e : ℕ} (h : ∀ a ∈ bitmapSlots start e, s.Accessible a 8) :
    relrBits bias start (e / 2) s =
      .ok () (s.withBytes (updated (biased bias) 8 s.byte (bitmapSlots start e))) := by
  have hloop : relrBits bias start (e / 2) s = (bitmapSlots start e).forM (biasSlot bias) s := by
    rw [bitmapSlots_eq, forM_map_apply]
    exact forM_filter_apply _ _ _ _
  rw [hloop, forM_biasSlot_eq h]

/-- The last address and the number of bitmaps since then, behind an entry. -/
def relrAdvance (a k e : ℕ) : ℕ × ℕ := if e % 2 = 0 then (e, 0) else (a, k + 1)

theorem listedFrom_cons (a k e : ℕ) (es : List ℕ) :
    listedFrom a k (e :: es) =
      listedFrom a k [e] ++ listedFrom (relrAdvance a k e).1 (relrAdvance a k e).2 es := by
  by_cases heven : e % 2 = 0
  · simp only [listedFrom, relrAdvance, if_pos heven, List.cons_append, List.nil_append]
  · simp only [listedFrom, relrAdvance, if_neg heven, List.append_nil]

/-- The cursor of the loader: the word behind an address, or the first one of the next bitmap. -/
def relrCursor (bias a k : ℕ) : ℕ := add64 bias (a + 8 + 8 * (63 * k))

/-- An entry biases the words that it lists and moves the cursor on. -/
theorem relrEntry_eq {a k e : ℕ} (h : ∀ v ∈ listedFrom a k [e], s.Accessible (add64 bias v) 8) :
    relrEntry bias (relrCursor bias a k) e s =
      .ok (relrCursor bias (relrAdvance a k e).1 (relrAdvance a k e).2)
        (s.withBytes (updated (biased bias) 8 s.byte ((listedFrom a k [e]).map (add64 bias)))) := by
  by_cases heven : e % 2 = 0
  · have hlisted : listedFrom a k [e] = [e] := by rw [listedFrom, if_pos heven, listedFrom]
    have hslot := h e (by rw [hlisted]; exact List.mem_singleton_self e)
    have hcursor : add64 (add64 bias e) 8 = relrCursor bias e 0 := by
      unfold relrCursor add64
      omega
    rw [hlisted, relrAdvance, if_pos heven, relrEntry, if_pos heven, bind_ok (biasSlot_eq hslot),
      hcursor]
    rfl
  · have hlisted : (listedFrom a k [e]).map (add64 bias) =
        bitmapSlots (relrCursor bias a k) e := by
      rw [listedFrom, if_neg heven, listedFrom, List.append_nil, List.map_map, bitmapSlots]
      apply List.map_congr_left
      intro i _
      simp only [Function.comp_apply, relrCursor, add64]
      omega
    have hslots : ∀ b ∈ bitmapSlots (relrCursor bias a k) e, s.Accessible b 8 := by
      intro b hb
      rw [← hlisted] at hb
      obtain ⟨v, hv, rfl⟩ := List.mem_map.mp hb
      exact h v hv
    have hcursor : add64 (relrCursor bias a k) (63 * 8) = relrCursor bias a (k + 1) := by
      unfold relrCursor add64
      omega
    rw [hlisted, relrAdvance, if_neg heven, relrEntry, if_neg heven, bind_ok (relrBits_eq hslots),
      hcursor]
    rfl

/-- The loop biases the listed words. The induction is on the rest of the stream; the cursor is
where the closed form puts the next bitmap, and the table is not among the slots. -/
theorem relrLoop_eq {table j a k : ℕ} {es : List ℕ}
    (hfits : table + 8 * (j + es.length) ≤ 2 ^ 64)
    (hwords : HoldsWords s (table + 8 * j) es)
    (haccess : ∀ v ∈ listedFrom a k es, s.Accessible (add64 bias v) 8)
    (hapart : ∀ v ∈ listedFrom a k es,
      add64 bias v + 8 ≤ table + 8 * j ∨ table + 8 * (j + es.length) ≤ add64 bias v) :
    relrLoop bias table ((List.range' j es.length).map (· * 8)) (relrCursor bias a k) s =
      .ok () (s.withBytes (updated (biased bias) 8 s.byte
        ((listedFrom a k es).map (add64 bias)))) := by
  induction es generalizing s j a k with
  | nil => rfl
  | cons e es ih =>
    rw [List.length_cons] at hfits hapart
    have hword : readWord 8 (add64 table (j * 8)) s = .ok e s := by
      have haddr : add64 table (j * 8) = table + 8 * j := by
        rw [add64_of_lt (by omega)]
        omega
      rw [haddr]
      exact hwords.readWord_head
    rw [listedFrom_cons] at haccess hapart ⊢
    simp only [List.mem_append] at haccess hapart
    have hentry := relrEntry_eq fun v hv => haccess v (.inl hv)
    obtain ⟨s₁, hs₁⟩ : ∃ s₁, s₁ = s.withBytes (updated (biased bias) 8 s.byte
      ((listedFrom a k [e]).map (add64 bias))) := ⟨_, rfl⟩
    have hwords₁ : HoldsWords s₁ (table + 8 * (j + 1)) es := by
      have hkept : HoldsWords s₁ (table + 8 * j) (e :: es) := by
        rw [hs₁]
        apply hwords.updated
        intro b hb
        obtain ⟨v, hv, rfl⟩ := List.mem_map.mp hb
        have hv := hapart v (.inl hv)
        rw [List.length_cons]
        omega
      exact hkept.tail
    have hrest := ih (s := s₁) (j := j + 1) (by omega) hwords₁
      (fun v hv => by rw [hs₁]; exact haccess v (.inr hv))
      (fun v hv => by have hv := hapart v (.inr hv); omega)
    rw [← hs₁] at hentry
    rw [List.length_cons, List.range'_succ, List.map_cons, relrLoop, bind_ok hword,
      bind_ok hentry, hrest, List.map_append, updated_append, hs₁]
    rfl

/-- The first entry is an address, so it does not matter where the cursor starts. -/
theorem relrLoop_start {table cursor : ℕ} {es : List ℕ} (offsets : List ℕ)
    (hfirst : ∀ e, es.head? = some e → e % 2 = 0) (hlength : offsets.length = es.length)
    (hread : ∀ o e, offsets.head? = some o → es.head? = some e →
      readWord 8 (add64 table o) s = .ok e s) :
    relrLoop bias table offsets cursor s = relrLoop bias table offsets (relrCursor bias 0 0) s := by
  cases offsets with
  | nil => rfl
  | cons o offsets =>
    cases es with
    | nil => cases hlength
    | cons e es =>
      have heven := hfirst e rfl
      have hword := hread o e rfl rfl
      rw [relrLoop, relrLoop, bind_ok hword, bind_ok hword, relrEntry, relrEntry, if_pos heven,
        if_pos heven]

theorem applyRelr_eq {table bytes : ℕ} {stream : List ℕ}
    (hfirst : ∀ e, stream.head? = some e → e % 2 = 0) (hbytes : bytes / 8 = stream.length)
    (htable : HoldsWords s table stream)
    (haccess : ∀ v ∈ relrListed stream, s.Accessible (add64 bias v) 8)
    (hapart : ∀ v ∈ relrListed stream,
      add64 bias v + 8 ≤ table ∨ table + 8 * stream.length ≤ add64 bias v) :
    applyRelr bias table bytes s = .ok () (s.withBytes (updated (biased bias) 8 s.byte
      ((relrListed stream).map (add64 bias)))) := by
  have hfits := htable.accessible.1
  have hloop : relrLoop bias table ((List.range' 0 stream.length).map (· * 8))
      (relrCursor bias 0 0) s = _ :=
    relrLoop_eq (j := 0) (by omega) (by simpa using htable) haccess fun v hv => by
      simpa using hapart v hv
  rw [applyRelr, entryOffsets, hbytes, List.range_eq_range', relrLoop_start _ hfirst (by simp),
    hloop]
  · rfl
  · intro o e ho he
    cases stream with
    | nil => cases he
    | cons e' es =>
      obtain rfl := Option.some.inj he
      obtain rfl : 0 = o := by simpa [List.range'_succ] using ho
      have haddr : add64 table 0 = table := by
        rw [List.length_cons] at hfits
        exact add64_of_lt (by omega)
      rw [haddr]
      exact htable.readWord_head

/-- A stream biases each word that it lists once, and changes nothing else. -/
theorem applyRelr_biases_once {w : Window} {table bytes : ℕ} {stream : List ℕ}
    (hfirst : ∀ e, stream.head? = some e → e % 2 = 0)
    (hbytes : bytes / 8 = stream.length)
    (htable : HoldsWords s table stream)
    (himage : s.Accessible w.base w.size)
    (hdistinct : (relrListed stream).Nodup)
    (haligned : ∀ v ∈ relrListed stream, 8 ∣ v)
    (hinside : ∀ v ∈ relrListed stream, w.Has v 8)
    (hapart : ∀ v ∈ relrListed stream,
      w.addr v + 8 ≤ table ∨ table + 8 * stream.length ≤ w.addr v) :
    ∃ f, applyRelr w.bias table bytes s = .ok () (s.withBytes f) ∧
      (∀ v ∈ relrListed stream,
        wordOf f 8 (w.addr v) = (wordOf s.byte 8 (w.addr v) + w.bias) % 2 ^ 64) ∧
      ∀ a, (∀ v ∈ relrListed stream, ¬(w.addr v ≤ a ∧ a < w.addr v + 8)) → f a = s.byte a := by
  have hslot : ∀ v ∈ relrListed stream, add64 w.bias v = w.addr v :=
    fun v hv => Window.add64_bias (hinside v hv) (by decide)
  have hslots : (relrListed stream).map (add64 w.bias) = (relrListed stream).map w.addr :=
    List.map_congr_left hslot
  have hrun := applyRelr_eq hfirst hbytes htable
    (fun v hv => by rw [hslot v hv]; exact (hinside v hv).accessible himage)
    (fun v hv => by rw [hslot v hv]; exact hapart v hv)
  have hseparate : ((relrListed stream).map w.addr).Pairwise (Separate 8) := by
    apply List.pairwise_map.mpr
    apply hdistinct.imp_of_mem
    intro u v hu hv hne
    exact Window.separate_addr (hinside u hu) (hinside v hv) (haligned u hu) (haligned v hv) hne
  have hlength : ∀ x : List UInt8, x.length = 8 → (biased w.bias x).length = 8 :=
    fun x _ => length_biased w.bias x
  rw [hslots, updated_eq_patched hlength _ hseparate] at hrun
  refine ⟨_, hrun, ?_, ?_⟩
  · intro v hv
    have hmem : (⟨w.addr v, biased w.bias (slice s.byte (w.addr v) 8)⟩ : Patch UInt8) ∈
        updates (biased w.bias) 8 s.byte ((relrListed stream).map w.addr) :=
      List.mem_map_of_mem (List.mem_map_of_mem hv)
    have hslice := slice_patched s.byte (pairwise_apart_updates hlength s.byte hseparate) hmem
    rw [length_biased] at hslice
    rw [wordOf, hslice, biased, ofBytes_toBytes, wordOf, add64]
    exact Nat.mod_mod _ _
  · intro a ha
    apply patched_of_not_covers
    intro p hp
    obtain ⟨b, hb, rfl⟩ := List.mem_map.mp hp
    obtain ⟨v, hv, rfl⟩ := List.mem_map.mp hb
    rw [Patch.Covers, length_biased]
    exact ha v hv

/-- An image of two pages with a table of two words in its second page. -/
def relrWindow : Window where
  base := 0x10000
  vmin := 0
  size := 0x2000
  base_aligned := by decide
  vmin_aligned := by decide
  base_fits := by decide
  vmin_fits := by decide

def relrState : LoadState Unit where
  mem := { Memory.init .arm64 false false with
    engine := ((Engine.fresh .arm64).mapPages 0x10000 0x2000 ucProtAll).setBytes 0x11000
      (toBytes 8 0x10 ++ toBytes 8 7) }
  env := ()

theorem accessible_relrState : relrState.Accessible relrWindow.base relrWindow.size := by
  have hmappable : (Engine.fresh .arm64).Mappable 0x10000 0x2000 := by decide +kernel
  exact hmappable.accessible (Nat.le_refl _) ucProtAll

/-- An address and a bitmap with two bits bias three words. -/
theorem applyRelr_biases_three : relrListed [0x10, 7] = [0x10, 0x18, 0x20] ∧
    ∃ f, applyRelr relrWindow.bias 0x11000 16 relrState = .ok () (relrState.withBytes f) ∧
      (∀ v ∈ relrListed [0x10, 7], wordOf f 8 (relrWindow.addr v) =
        (wordOf relrState.byte 8 (relrWindow.addr v) + relrWindow.bias) % 2 ^ 64) ∧
      ∀ a, (∀ v ∈ relrListed [0x10, 7],
        ¬(relrWindow.addr v ≤ a ∧ a < relrWindow.addr v + 8)) → f a = relrState.byte a := by
  have hlisted : relrListed [0x10, 7] = [0x10, 0x18, 0x20] := by decide +kernel
  have htable : HoldsWords relrState 0x11000 [0x10, 7] := by
    constructor
    · exact accessible_relrState.part (by decide) (by decide)
    · intro i e he
      rcases i with _ | _ | i
      · obtain rfl := Option.some.inj he
        decide +kernel
      · obtain rfl := Option.some.inj he
        decide +kernel
      · cases he
  refine ⟨hlisted, applyRelr_biases_once ?_ rfl htable accessible_relrState ?_ ?_ ?_ ?_⟩
  · intro e he
    obtain rfl := Option.some.inj he
    rfl
  · rw [hlisted]
    decide
  · rw [hlisted]
    decide
  · rw [hlisted]
    simp [Window.Has, relrWindow]
  · rw [hlisted]
    decide

end Vardoger.Elf
