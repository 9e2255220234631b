import Vardoger.Engine.Placement

/-!
# What `protect` does to the pages of a range

`Memory::protect` gives a range of pages a protection and maps the pages of it that are missing. It
asks the region table which ones are missing. The table has no answer for a region that
reaches the top of the address space, whose pages are then mapped a second time, which the engine
refuses; and a range that ends at the top is not looked through at all.
-/

namespace Vardoger.Memory

open Stateful Words

variable {m m' : Memory} {addr len prot : ℕ}

/-- The first and the last page border of a range. -/
def rangeStart (addr : ℕ) : ℕ := addr / kPageSize * kPageSize
def rangeEnd (addr len : ℕ) : ℕ := roundUp (addr + len) kPageSize

/-- The protection that a page gets: a page that is mapped for a range without access is readable
and writable. -/
def pageProt (prot : ℕ) (before : Option ℕ) : ℕ :=
  if before = none ∧ prot = 0 then ucProtRw else prot

/-- The pages from number `first` up to `last` are mapped with the protection. Those that were
mapped keep their contents, the new ones are zero, and all others are as before. -/
structure Reprotects (first last prot : ℕ) (e e' : Engine) : Prop where
  prot : ∀ p, e'.prot p =
    if first ≤ p ∧ p < last then some (pageProt prot (e.prot p)) else e.prot p
  byte : ∀ a, e'.byte a =
    if (first ≤ a / kPageSize ∧ a / kPageSize < last) ∧ e.prot (a / kPageSize) = none then 0
    else e.byte a

/-- The call returns, and does to the pages of the range what it should. -/
def ProtectsRange (m : Memory) (addr len prot : ℕ) : Prop :=
  ∃ m', protect addr len prot m = .ok () m' ∧
    Reprotects (rangeStart addr / kPageSize) (rangeEnd addr len / kPageSize) prot m.engine
      m'.engine

/-- No region that reaches the top of the address space meets the range from `low` to `high`. -/
def BelowTop (m : Memory) (low high : ℕ) : Prop :=
  ∀ r ∈ m.regions, r.base + r.size = 2 ^ 64 → ∀ a, low ≤ a → a < high → ¬Holds r a

/-- The range ends below the top and meets no region that reaches it, or it ends at the top and is
mapped throughout; the whole address space must have the protection already. -/
def Protectable (m : Memory) (addr len prot : ℕ) : Prop :=
  (rangeEnd addr len < 2 ^ 64 ∧ m.BelowTop (rangeStart addr) (rangeEnd addr len)) ∨
  (rangeEnd addr len = 2 ^ 64 ∧
    if rangeStart addr = 0 then ∀ p < 2 ^ 52, m.engine.prot p = some prot
    else ∀ a, rangeStart addr ≤ a → a < 2 ^ 64 → m.engine.Mapped a)

/-! ## One page -/

theorem Reprotects.refl (first prot : ℕ) (e : Engine) : Reprotects first first prot e e where
  prot := by
    intro p
    rw [if_neg (by omega)]
  byte := by
    intro a
    rw [if_neg (by omega)]

/-- A range of pages and the page behind it. -/
theorem Reprotects.succ {first last : ℕ} {e e' e'' : Engine} (hle : first ≤ last)
    (h : Reprotects first last prot e e') (hnext : Reprotects last (last + 1) prot e' e'') :
    Reprotects first (last + 1) prot e e'' := by
  have hsame : e'.prot last = e.prot last := by
    rw [h.prot, if_neg (by omega)]
  constructor
  · intro p
    by_cases hp : p = last
    · subst hp
      rw [hnext.prot, if_pos (by omega), hsame, if_pos (by omega)]
    · rw [hnext.prot, if_neg (by omega), h.prot]
      by_cases hin : first ≤ p ∧ p < last
      · rw [if_pos hin, if_pos (by omega)]
      · rw [if_neg hin, if_neg (by omega)]
  · intro a
    rw [hnext.byte, h.byte]
    generalize a / kPageSize = p
    by_cases hp : p = last
    · subst hp
      rw [hsame]
      by_cases hnone : e.prot p = none
      · rw [if_pos ⟨by omega, hnone⟩, if_pos ⟨by omega, hnone⟩]
      · rw [if_neg fun hin => hnone hin.2, if_neg (by omega), if_neg fun hin => hnone hin.2]
    · rw [if_neg (by omega)]
      have hiff : (first ≤ p ∧ p < last) ∧ e.prot p = none ↔
          (first ≤ p ∧ p < last + 1) ∧ e.prot p = none := by
        constructor
        · rintro ⟨hin, hnone⟩
          exact ⟨by omega, hnone⟩
        · rintro ⟨hin, hnone⟩
          exact ⟨by omega, hnone⟩
      simp only [hiff]

/-- Pages that are mapped get the protection. -/
theorem reprotects_setProt {e : Engine} {base size : ℕ} (hbase : base % kPageSize = 0)
    (hmapped : ∀ a, base ≤ a → a < base + size → e.Mapped a) :
    Reprotects (base / kPageSize) ((base + size) / kPageSize) prot e
      (e.setProt base size (some prot)) := by
  have hpages : ∀ p, base / kPageSize ≤ p → p < (base + size) / kPageSize →
      (e.prot p).isSome = true := by
    intro p hlow hhigh
    have hp := hmapped (p * kPageSize)
    rw [Engine.Mapped, Nat.mul_div_cancel p (by decide)] at hp
    rw [kPageSize] at *
    exact hp (by omega) (by omega)
  constructor
  · intro p
    by_cases hin : base / kPageSize ≤ p ∧ p < (base + size) / kPageSize
    · have hsome := hpages p hin.1 hin.2
      have hprot : pageProt prot (e.prot p) = prot := by
        rw [pageProt, if_neg]
        rintro ⟨hnone, -⟩
        rw [hnone] at hsome
        cases hsome
      rw [if_pos hin, hprot]
      exact if_pos hin
    · rw [if_neg hin]
      exact if_neg hin
  · intro a
    rw [if_neg]
    · rfl
    · rintro ⟨hin, hnone⟩
      have hsome := hpages _ hin.1 hin.2
      rw [hnone] at hsome
      cases hsome

/-- A page that is not mapped is mapped. -/
theorem reprotects_mapPages {e : Engine} {p : ℕ} (hp : p % kPageSize = 0) (hfree : ¬e.Mapped p) :
    Reprotects (p / kPageSize) (p / kPageSize + 1) prot e
      (e.mapPages p 0x1000 (if prot = 0 then ucProtRw else prot)) := by
  have hnone : e.prot (p / kPageSize) = none := by
    rw [Engine.Mapped] at hfree
    simpa using hfree
  have hlast : (p + 0x1000) / kPageSize = p / kPageSize + 1 := by
    rw [kPageSize]
    omega
  constructor
  · intro q
    have hset : (e.mapPages p 0x1000 (if prot = 0 then ucProtRw else prot)).prot q =
        if p / kPageSize ≤ q ∧ q < (p + 0x1000) / kPageSize then
          some (if prot = 0 then ucProtRw else prot) else e.prot q := rfl
    rw [hset, hlast]
    by_cases hq : p / kPageSize ≤ q ∧ q < p / kPageSize + 1
    · obtain rfl : q = p / kPageSize := by omega
      rw [if_pos hq, if_pos hq, pageProt, hnone]
      simp only [true_and]
    · rw [if_neg hq, if_neg hq]
  · intro a
    have hset : (e.mapPages p 0x1000 (if prot = 0 then ucProtRw else prot)).byte a =
        if p ≤ a ∧ a < p + 0x1000 then 0 else e.byte a := rfl
    rw [hset]
    by_cases ha : p ≤ a ∧ a < p + 0x1000
    · have hpage : a / kPageSize = p / kPageSize := by
        rw [kPageSize] at *
        omega
      rw [if_pos ha, if_pos ⟨by omega, by rw [hpage, hnone]⟩]
    · rw [if_neg ha, if_neg]
      rintro ⟨hin, -⟩
      rw [kPageSize] at *
      omega

/-- Below the top, the region table knows what is mapped. -/
theorem isMapped_iff (hm : Tracked m) {low high a : ℕ} (htop : m.BelowTop low high) (hlow : low ≤ a)
    (hhigh : a < high) : isMapped m.regions a = true ↔ m.engine.Mapped a := by
  rw [isMapped, isSome_regionOf hm, hm.union]
  refine exists_congr fun r => and_congr_right fun hr => ?_
  constructor
  · intro hholds
    exact hholds.1
  · intro hholds
    refine ⟨hholds, lt_of_le_of_ne (hm.pages r hr).2.2.2 fun hend => ?_⟩
    exact htop r hr hend a hlow hhigh hholds

theorem protect_ok (prot : ℕ) {e : Engine} {base size : ℕ} (hbase : base % kPageSize = 0)
    (hsize : size % kPageSize = 0) (hfits : base + size ≤ 2 ^ 64)
    (hmapped : ∀ a, base ≤ a → a < base + size → e.Mapped a) :
    ∃ e', e.protect base size prot = .ok e' ∧
      Reprotects (base / kPageSize) ((base + size) / kPageSize) prot e e' ∧
      ∀ a, e'.Mapped a ↔ e.Mapped a := by
  by_cases hzero : size = 0
  · subst hzero
    refine ⟨e, ?_, Reprotects.refl _ _ _, fun a => Iff.rfl⟩
    rw [Engine.protect, if_pos rfl]
  · have hfull : e.FullyMapped base size := by
      refine ⟨hbase, hsize, hfits, fun p hp => ?_⟩
      have hpage := hmapped (base + p * kPageSize)
      rw [Engine.Mapped, Nat.add_mul_div_right _ _ (by decide)] at hpage
      rw [kPageSize] at *
      exact hpage (by omega) (by omega)
    have hrun : e.protect base size prot = .ok (e.setProt base size (some prot)) := by
      rw [Engine.protect, if_neg hzero, if_pos hfull]
    exact ⟨_, hrun, reprotects_setProt hbase hmapped, fun a => Engine.mapped_protect hrun⟩

/-- One page of a range below the top. -/
theorem protectPage_ok (prot : ℕ) (hm : Tracked m) {low high p : ℕ}
    (htop : m.BelowTop low high) (hp : p % kPageSize = 0) (hlow : low ≤ p)
    (hhigh : p + 0x1000 ≤ high) (hfits : high < 2 ^ 64) :
    ∃ m', protectPage prot p m = .ok () m' ∧ Tracked m' ∧ m'.BelowTop low high ∧
      Reprotects (p / kPageSize) (p / kPageSize + 1) prot m.engine m'.engine := by
  have hlast : (p + 0x1000) / kPageSize = p / kPageSize + 1 := by
    rw [kPageSize]
    omega
  have hlookup := isMapped_iff hm htop hlow (by omega : p < high)
  have htracked := protectPage_keeps prot p m hm
  by_cases hmapped : m.engine.Mapped p
  · have hpage : ∀ a, p ≤ a → a < p + 0x1000 → m.engine.Mapped a := by
      intro a ha ha'
      have hsame : a / kPageSize = p / kPageSize := by
        rw [kPageSize] at *
        omega
      rw [Engine.Mapped, hsame]
      exact hmapped
    obtain ⟨e', hrun, heffect, -⟩ := protect_ok prot hp rfl (by omega) hpage
    have hstep : protectPage prot p m = .ok () { m with engine := e' } := by
      rw [protectPage, get_bind, if_pos (hlookup.mpr hmapped)]
      simp only [onEngine, hrun]
    rw [hstep] at htracked
    rw [hlast] at heffect
    exact ⟨_, hstep, htracked, htop, heffect⟩
  · have hstep : protectPage prot p m = .ok () (m.addRegion
        ⟨p, 0x1000, if prot = 0 then ucProtRw else prot, .other, "mprotect-fill"⟩) := by
      rw [protectPage, get_bind, if_neg fun h => hmapped (hlookup.mp h)]
      exact bind_ok (mapFixed_free hm hp (by omega) hmapped)
    rw [hstep] at htracked
    refine ⟨_, hstep, htracked, ?_, reprotects_mapPages hp hmapped⟩
    intro r hr hend
    obtain rfl | hr := (List.mem_orderedInsert _).mp hr
    · simp only at hend
      omega
    · exact htop r hr hend

/-! ## A range of pages -/

/-- The pages of a range below the top, one after the other. -/
theorem protectPages_ok (prot n : ℕ) (hm : Tracked m) {base high : ℕ}
    (htop : m.BelowTop base high) (hbase : base % kPageSize = 0)
    (hhigh : base + n * 0x1000 ≤ high) (hfits : high < 2 ^ 64) :
    ∃ m', ((List.range n).map fun i => base + i * 0x1000).forM (protectPage prot) m = .ok () m' ∧
      Tracked m' ∧ m'.BelowTop base high ∧
      Reprotects (base / kPageSize) (base / kPageSize + n) prot m.engine m'.engine := by
  induction n with
  | zero =>
    rw [Nat.add_zero]
    exact ⟨m, rfl, hm, htop, Reprotects.refl _ _ _⟩
  | succ n ih =>
    rw [Nat.succ_mul, ← Nat.add_assoc] at hhigh
    obtain ⟨m₁, hrun, hm₁, htop₁, heffect⟩ := ih (Nat.le_of_add_right_le hhigh)
    have hpage : (base + n * 0x1000) % kPageSize = 0 := by
      rw [kPageSize] at *
      omega
    have hnumber : (base + n * 0x1000) / kPageSize = base / kPageSize + n := by
      rw [kPageSize]
      omega
    obtain ⟨m₂, hnext, hm₂, htop₂, heffect₂⟩ := protectPage_ok prot hm₁ htop₁ hpage
      (Nat.le_add_right _ _) hhigh hfits
    rw [hnumber] at heffect₂
    refine ⟨m₂, ?_, hm₂, htop₂, heffect.succ (Nat.le_add_right _ _) heffect₂⟩
    rw [List.range_succ, List.map_append, forM_append_ok hrun]
    exact bind_ok hnext

/-! ## Where the region table has no answer -/

/-- A page of a region that reaches the top is not found. -/
theorem isMapped_top (hm : Tracked m) {r : Region} {p : ℕ} (hr : r ∈ m.regions)
    (hend : r.base + r.size = 2 ^ 64) (hholds : Holds r p) : isMapped m.regions p = false := by
  rw [isMapped, Bool.eq_false_iff]
  intro hfound
  obtain ⟨r', hr', hholds', hbelow⟩ := (isSome_regionOf hm).mp hfound
  obtain rfl := hm.separated.unique hr hr' hholds hholds'
  omega

/-- A page that is mapped is not mapped again. -/
theorem mapFixed_throws (len prot : ℕ) (kind : Kind) (label : String) {p : ℕ}
    (hp : p % kPageSize = 0) (hfits : p < 2 ^ 64) (hmapped : m.engine.Mapped p) :
    ∃ err, mapFixed p len prot kind label m = .error err m := by
  have hp' : p % 4096 = 0 := hp
  have hbase : pageAlignDown p = p := by
    rw [pageAlignDown_eq hfits]
    omega
  rw [mapFixed, get_bind]
  simp only [hbase]
  cases hfind : m.regions.find? (Region.clashes p (pageAlignUp (add64 p len))) with
  | some r => exact ⟨_, rfl⟩
  | none =>
    generalize sub64 (pageAlignUp (add64 p len)) p = size
    have hrefused : ¬m.engine.Mappable p size := by
      intro hok
      exact hok.not_mapped ⟨le_rfl, Nat.lt_add_of_pos_right hok.1⟩ hmapped
    have hmap := mapRegion_apply ⟨p, size, prot, kind, label⟩ m
    rw [if_neg (by exact hrefused)] at hmap
    exact ⟨_, bind_error hmap⟩

/-- The table loses no region to an allocation. -/
theorem primitive_mem (r : Region) : Primitive (Preserves fun m => r ∈ m.regions) where
  mapRegion := by
    intro r' m hr
    rw [mapRegion_apply]
    split
    · exact (List.mem_orderedInsert _).mpr (.inr hr)
    · exact hr
  onEngine := by
    intro f _ m hr
    unfold onEngine
    split
    · exact hr
    · exact hr
  moveCursor := by
    intro f hf
    apply moves_modify
    intro m hr
    rw [(hf m).2.1]
    exact hr

theorem protectPage_mem (r : Region) (prot p : ℕ) :
    Moves (Preserves fun m => r ∈ m.regions) (protectPage prot p) := by
  refine moves_bind moves_get fun m => moves_ite ?_ ?_
  · intro m hr
    unfold onEngine
    split
    · exact hr
    · exact hr
  · exact moves_bind (mapFixed_moves (primitive_mem r).toMapping _ _ _ _ _) fun _ => moves_pure _

/-- A loop over pages, one of which lies in a region that reaches the top, throws. -/
theorem protectPages_throw (hm : Tracked m) {r : Region} {p : ℕ} {pages : List ℕ}
    (hr : r ∈ m.regions) (hend : r.base + r.size = 2 ^ 64) (hholds : Holds r p)
    (haligned : p % kPageSize = 0) (hp : p ∈ pages) :
    pages.forM (protectPage prot) m ≠ .ok () m' := by
  intro hrun
  obtain ⟨t, t', ⟨ht, hrt⟩, hpage⟩ := forM_ok_at (I := fun t => Tracked t ∧ r ∈ t.regions)
    (fun q t ht => ⟨protectPage_keeps prot q t ht.1, protectPage_mem r prot q t ht.2⟩) ⟨hm, hr⟩
    hrun hp
  have hfits : p < 2 ^ 64 := by
    simp only [Holds, Intervals.Contains] at hholds
    omega
  obtain ⟨err, hthrows⟩ := mapFixed_throws 0x1000 (if prot = 0 then ucProtRw else prot) .other
    "mprotect-fill" haligned hfits ((ht.union p).mpr ⟨r, hrt, hholds⟩)
  rw [protectPage, get_bind, if_neg (by rw [isMapped_top ht hrt hend hholds]; decide),
    bind_error hthrows] at hpage
  cases hpage

/-! ## The whole range -/

theorem rangeStart_eq (haddr : addr < 2 ^ 64) : pageAlignDown addr = rangeStart addr :=
  pageAlignDown_eq haddr

theorem rangeStart_le (addr len : ℕ) : rangeStart addr ≤ rangeEnd addr len := by
  simp only [rangeEnd, rangeStart, roundUp, kPageSize]
  omega

theorem rangeStart_mod (addr : ℕ) : rangeStart addr % kPageSize = 0 := Nat.mul_mod_left _ _

theorem rangeEnd_mod (addr len : ℕ) : rangeEnd addr len % kPageSize = 0 := Nat.mul_mod_left _ _

/-- The size of a range that ends below the top. -/
theorem rangeSize_eq (hend : rangeEnd addr len < 2 ^ 64) :
    sub64 (pageAlignUp (add64 addr len)) (rangeStart addr) =
      rangeEnd addr len - rangeStart addr := by
  simp only [rangeEnd, rangeStart, roundUp, kPageSize] at *
  rw [add64_of_lt (by omega), pageAlignUp_eq (by omega), sub64_of_le (by omega) (by omega)]

/-- The size of a range that ends at the top, in 64 bits. -/
theorem rangeSize_top (haddr : addr < 2 ^ 64) (hend : rangeEnd addr len = 2 ^ 64) :
    sub64 (pageAlignUp (add64 addr len)) (rangeStart addr) =
      (2 ^ 64 - rangeStart addr) % 2 ^ 64 := by
  have hstart : rangeStart addr < 2 ^ 64 := lt_of_le_of_lt (Nat.div_mul_le_self _ _) haddr
  have hlast : 2 ^ 64 - 4096 < addr + len ∧ addr + len ≤ 2 ^ 64 := by
    simp only [rangeEnd, roundUp, kPageSize] at hend
    omega
  have hzero : pageAlignUp (add64 addr len) = 0 := by
    by_cases htop : addr + len = 2 ^ 64
    · have hsum : add64 addr len = 0 := by rw [add64, htop, Nat.mod_self]
      rw [hsum, pageAlignUp_eq (by decide)]
    · have hsum : add64 (add64 addr len) (kPageSize - 1) < 4096 := by
        simp only [add64, kPageSize]
        omega
      have hdown := pageAlignDown_eq (a := add64 (add64 addr len) (kPageSize - 1)) (by omega)
      rw [Nat.div_eq_of_lt hsum, Nat.zero_mul] at hdown
      exact hdown
  rw [hzero, sub64, Nat.zero_add, Nat.mod_eq_of_lt hstart]

/-- Looking through the pages of a range of `size` bytes below the top. -/
theorem pagesOf_eq {base size : ℕ} (hsize : size % kPageSize = 0) (hfits : base + size < 2 ^ 64) :
    pagesOf base size = (List.range (size / 0x1000)).map fun i => base + i * 0x1000 := by
  have hcount : (add64 base size - base + 0xfff) / 0x1000 = size / 0x1000 := by
    rw [add64_of_lt hfits]
    rw [kPageSize] at hsize
    omega
  rw [pagesOf, hcount]

/-- A range that ends at the top is not looked through. -/
theorem pagesOf_top {base size : ℕ} (htop : add64 base size = 0) : pagesOf base size = [] := by
  rw [pagesOf, htop, Nat.zero_sub]
  rfl

/-- The call, with its range in the terms of this file. -/
theorem protect_eq (haddr : addr < 2 ^ 64) {size : ℕ}
    (hsize : sub64 (pageAlignUp (add64 addr len)) (rangeStart addr) = size) :
    protect addr len prot m =
      if (pagesOf (rangeStart addr) size).all fun p => isMapped m.regions p then
        (onEngine (·.protect (rangeStart addr) size prot) >>= fun _ => modify fun m =>
          { m with regions := markProt (rangeStart addr) size prot m.regions }) m
      else
        ((pagesOf (rangeStart addr) size).forM (protectPage prot) >>= fun _ => modify fun m =>
          { m with regions := markProt (rangeStart addr) size prot m.regions }) m := by
  rw [protect, rangeStart_eq haddr, hsize, get_bind]
  split
  · rfl
  · rfl

/-- A range that is mapped throughout gets its protection from the engine. -/
theorem protectEngine_ok (prot : ℕ) {base size : ℕ} (hbase : base % kPageSize = 0)
    (hsize : size % kPageSize = 0) (hfits : base + size ≤ 2 ^ 64)
    (hmapped : ∀ a, base ≤ a → a < base + size → m.engine.Mapped a) :
    ∃ m', (onEngine (·.protect base size prot) >>= fun _ => modify fun m : Memory =>
        { m with regions := markProt base size prot m.regions }) m = .ok () m' ∧
      Reprotects (base / kPageSize) ((base + size) / kPageSize) prot m.engine m'.engine := by
  obtain ⟨e', hrun, heffect, -⟩ := protect_ok prot hbase hsize hfits hmapped
  have hengine : onEngine (·.protect base size prot) m = .ok () { m with engine := e' } := by
    simp only [onEngine, hrun]
  exact ⟨_, bind_ok hengine, heffect⟩

/-- A call that only asks the engine returns when the engine accepts the range. -/
theorem protectEngine_returns {base size : ℕ}
    (hrun : (onEngine (·.protect base size prot) >>= fun _ => modify fun m : Memory =>
      { m with regions := markProt base size prot m.regions }) m = .ok () m') :
    m.engine.protect base size prot = .ok m'.engine := by
  obtain ⟨u, t, hengine, hmark⟩ := of_bind_ok hrun
  obtain ⟨-, rfl⟩ := EStateM.Result.ok.inj hmark
  cases hprotect : m.engine.protect base size prot with
  | error err =>
    simp only [onEngine, hprotect] at hengine
    cases hengine
  | ok e =>
    simp only [onEngine, hprotect] at hengine
    obtain ⟨-, rfl⟩ := EStateM.Result.ok.inj hengine
    rfl

theorem rangeSize_mod (addr len : ℕ) : (rangeEnd addr len - rangeStart addr) % kPageSize = 0 := by
  have hstart := rangeStart_mod addr
  have hend := rangeEnd_mod addr len
  rw [kPageSize] at *
  omega

/-- The page of an address in the range. -/
theorem page_mem {base size a : ℕ} (hbase : base % kPageSize = 0) (hlow : base ≤ a)
    (hhigh : a < base + size) (hsize : size % kPageSize = 0) :
    a / kPageSize * kPageSize ∈ (List.range (size / 0x1000)).map fun i => base + i * 0x1000 := by
  refine List.mem_map.mpr ⟨(a - base) / 0x1000, List.mem_range.mpr ?_, ?_⟩
  · rw [kPageSize] at *
    omega
  · rw [kPageSize] at *
    omega

theorem mapped_page (e : Engine) (a : ℕ) : e.Mapped (a / kPageSize * kPageSize) ↔ e.Mapped a := by
  rw [Engine.Mapped, Engine.Mapped, Nat.mul_div_cancel _ (by decide)]

/-- A range below the top that meets no region that reaches the top. -/
theorem protectsRange_of_belowTop (hm : Tracked m) (haddr : addr < 2 ^ 64)
    (hend : rangeEnd addr len < 2 ^ 64) (htop : m.BelowTop (rangeStart addr) (rangeEnd addr len)) :
    m.ProtectsRange addr len prot := by
  have hle := rangeStart_le addr len
  have hstart := rangeStart_mod addr
  have hsize := rangeSize_mod addr len
  have hpages := pagesOf_eq hsize (by omega : rangeStart addr + _ < 2 ^ 64)
  rw [ProtectsRange, protect_eq haddr (rangeSize_eq hend), hpages]
  by_cases hall : ((List.range ((rangeEnd addr len - rangeStart addr) / 0x1000)).map
      fun i => rangeStart addr + i * 0x1000).all (fun p => isMapped m.regions p) = true
  · rw [if_pos hall]
    have hmapped : ∀ a, rangeStart addr ≤ a →
        a < rangeStart addr + (rangeEnd addr len - rangeStart addr) → m.engine.Mapped a := by
      intro a hlow hhigh
      have hfound := List.all_eq_true.mp hall _ (page_mem hstart hlow hhigh hsize)
      rw [← mapped_page]
      apply (isMapped_iff hm htop _ _).mp hfound
      · rw [kPageSize] at *
        omega
      · rw [kPageSize] at *
        omega
    have hrun := protectEngine_ok prot hstart hsize (by omega) hmapped
    rwa [Nat.add_sub_cancel' hle] at hrun
  · rw [if_neg hall]
    obtain ⟨m', hrun, -, -, heffect⟩ := protectPages_ok prot
      ((rangeEnd addr len - rangeStart addr) / 0x1000) hm htop hstart (by omega) hend
    refine ⟨_, bind_ok hrun, ?_⟩
    have hlast : rangeStart addr / kPageSize + (rangeEnd addr len - rangeStart addr) / 0x1000 =
        rangeEnd addr len / kPageSize := by
      rw [kPageSize] at *
      omega
    rwa [hlast] at heffect

/-- A range below the top that meets a region that reaches the top makes the call throw. -/
theorem belowTop_of_protectsRange (hm : Tracked m) (haddr : addr < 2 ^ 64)
    (hend : rangeEnd addr len < 2 ^ 64) (h : m.ProtectsRange addr len prot) :
    m.BelowTop (rangeStart addr) (rangeEnd addr len) := by
  intro r hr htop a hlow hhigh hholds
  obtain ⟨m', hrun, -⟩ := h
  have hsize := rangeSize_mod addr len
  have hle := rangeStart_le addr len
  have hpages := pagesOf_eq hsize (by omega : rangeStart addr + _ < 2 ^ 64)
  have hmem := page_mem (rangeStart_mod addr) hlow (by omega) hsize
  have hpage : Holds r (a / kPageSize * kPageSize) := by
    obtain ⟨-, hbase, -, -⟩ := hm.pages r hr
    simp only [Holds, Intervals.Contains, kPageSize] at *
    omega
  have hhole : ¬((List.range ((rangeEnd addr len - rangeStart addr) / 0x1000)).map
      fun i => rangeStart addr + i * 0x1000).all (fun p => isMapped m.regions p) = true := by
    intro hall
    have hfound := List.all_eq_true.mp hall _ hmem
    rw [isMapped_top hm hr htop hpage] at hfound
    cases hfound
  rw [protect_eq haddr (rangeSize_eq hend), hpages, if_neg hhole] at hrun
  obtain ⟨u, t, hloop, -⟩ := of_bind_ok hrun
  exact protectPages_throw hm hr htop hpage (Nat.mul_mod_left _ _) hmem hloop

/-- A range that ends at the top is left to the engine. -/
theorem protect_top_eq (haddr : addr < 2 ^ 64) (hend : rangeEnd addr len = 2 ^ 64) :
    protect addr len prot m =
      (onEngine (·.protect (rangeStart addr) ((2 ^ 64 - rangeStart addr) % 2 ^ 64) prot) >>=
        fun _ => modify fun m => { m with
          regions := markProt (rangeStart addr) ((2 ^ 64 - rangeStart addr) % 2 ^ 64) prot
            m.regions }) m := by
  have hstart : rangeStart addr < 2 ^ 64 := lt_of_le_of_lt (Nat.div_mul_le_self _ _) haddr
  have hpages : pagesOf (rangeStart addr) ((2 ^ 64 - rangeStart addr) % 2 ^ 64) = [] := by
    apply pagesOf_top
    rw [add64]
    omega
  rw [protect_eq haddr (rangeSize_top haddr hend), hpages]
  rfl

/-- The whole address space is not touched at all: its size is 0 in 64 bits. -/
theorem protectsRange_all_iff (haddr : addr < 2 ^ 64) (hstart : rangeStart addr = 0)
    (hend : rangeEnd addr len = 2 ^ 64) :
    m.ProtectsRange addr len prot ↔ ∀ p < 2 ^ 52, m.engine.prot p = some prot := by
  have hlast : 2 ^ 64 / kPageSize = 2 ^ 52 := by decide
  have hnothing (e : Engine) : e.protect 0 ((2 ^ 64 - 0) % 2 ^ 64) prot = .ok e := if_pos rfl
  rw [ProtectsRange, protect_top_eq haddr hend, hend, hstart, Nat.zero_div, hlast]
  constructor
  · rintro ⟨m', hrun, heffect⟩ p hp
    have hsame := (hnothing m.engine).symm.trans (protectEngine_returns hrun)
    obtain heq := Except.ok.inj hsame
    have hprot := heffect.prot p
    rw [← heq, if_pos ⟨Nat.zero_le p, hp⟩] at hprot
    rw [hprot, pageProt, if_neg]
    rintro ⟨hnone, -⟩
    rw [hprot] at hnone
    cases hnone
  · intro hall
    have hengine : onEngine (·.protect 0 ((2 ^ 64 - 0) % 2 ^ 64) prot) m = .ok () m := by
      simp only [onEngine, hnothing]
    have hkeeps : Reprotects 0 (2 ^ 52) prot m.engine m.engine := by
      constructor
      · intro p
        by_cases hp : 0 ≤ p ∧ p < 2 ^ 52
        · rw [if_pos hp, hall p hp.2, pageProt, if_neg (by rintro ⟨⟨⟩, -⟩)]
        · rw [if_neg hp]
      · intro a
        rw [if_neg]
        rintro ⟨hin, hnone⟩
        rw [hall _ hin.2] at hnone
        cases hnone
    exact ⟨_, bind_ok hengine, hkeeps⟩

/-- Any other range that ends at the top must be mapped. -/
theorem protectsRange_top_iff (haddr : addr < 2 ^ 64) (hstart : rangeStart addr ≠ 0)
    (hend : rangeEnd addr len = 2 ^ 64) :
    m.ProtectsRange addr len prot ↔
      ∀ a, rangeStart addr ≤ a → a < 2 ^ 64 → m.engine.Mapped a := by
  have hlt : rangeStart addr < 2 ^ 64 := lt_of_le_of_lt (Nat.div_mul_le_self _ _) haddr
  have haligned := rangeStart_mod addr
  have hsize : (2 ^ 64 - rangeStart addr) % 2 ^ 64 = 2 ^ 64 - rangeStart addr :=
    Nat.mod_eq_of_lt (by omega)
  rw [ProtectsRange, protect_top_eq haddr hend, hend, hsize]
  constructor
  · rintro ⟨m', hrun, -⟩ a hlow hhigh
    have hreturns := protectEngine_returns hrun
    have hfull : m.engine.FullyMapped (rangeStart addr) (2 ^ 64 - rangeStart addr) := by
      by_contra hnot
      rw [Engine.protect, if_neg (by omega), if_neg hnot] at hreturns
      cases hreturns
    have hpage := hfull.2.2.2 (a / kPageSize - rangeStart addr / kPageSize)
    rw [Nat.add_sub_cancel' (Nat.div_le_div_right hlow)] at hpage
    apply hpage
    rw [kPageSize] at *
    omega
  · intro hmapped
    have hsize : (2 ^ 64 - rangeStart addr) % kPageSize = 0 := by
      rw [kPageSize] at *
      omega
    have hrun := protectEngine_ok prot haligned hsize (by omega)
      (fun a hlow hhigh => hmapped a hlow (by omega))
    rwa [Nat.add_sub_cancel' hlt.le] at hrun

/-- For every reachable state and every range that does not pass the top of the address space: the
call returns and does what it should if and only if the range ends below the top and meets no
region that reaches it, or ends at the top and is mapped, where the whole address space must have
the protection already. -/
theorem protect_protectsRange_iff (m : Memory) (addr len prot : ℕ) (hm : Reachable m)
    (haddr : addr < 2 ^ 64) (hwraps : rangeEnd addr len ≤ 2 ^ 64) :
    m.ProtectsRange addr len prot ↔ m.Protectable addr len prot := by
  have htracked := hm.tracked
  obtain hend | hend := Nat.lt_or_eq_of_le hwraps
  · rw [Protectable, or_iff_left (by omega), and_iff_right hend]
    exact ⟨belowTop_of_protectsRange htracked haddr hend,
      protectsRange_of_belowTop htracked haddr hend⟩
  · rw [Protectable, or_iff_right (by omega), and_iff_right hend]
    by_cases hstart : rangeStart addr = 0
    · rw [if_pos hstart]
      exact protectsRange_all_iff haddr hstart hend
    · rw [if_neg hstart]
      exact protectsRange_top_iff haddr hstart hend

/-- Two pages of which none is mapped, in the fresh state. -/
theorem protect_protectsRange_fresh :
    ProtectsRange (init .arm64 false false) 0x70000123 0x1000 0 :=
  (protect_protectsRange_iff (init .arm64 false false) 0x70000123 0x1000 0
    (.init .arm64 false false) (by decide) (by decide)).mpr
      (.inl ⟨by decide, fun r hr => by cases hr⟩)

/-- The last two pages of the address space are one region: the protection of the first of them
cannot be changed. -/
theorem protect_below_topPage :
    ¬ ProtectsRange (runCalls (init .arm64 false false)
      [.mapFixed 0xffffffffffffe000 0x2000 ucProtRw .other "top"])
      0xffffffffffffe000 0x1000 ucProtRead := by
  have hm : Reachable (runCalls (init .arm64 false false)
      [.mapFixed 0xffffffffffffe000 0x2000 ucProtRw .other "top"]) :=
    reachable_runCalls (.init .arm64 false false) _
  intro hprotects
  have htop := belowTop_of_protectsRange hm.tracked (by decide) (by decide) hprotects
  exact htop ⟨0xffffffffffffe000, 0x2000, ucProtRw, .other, "top"⟩ (by decide) (by decide)
    0xffffffffffffe000 (by decide) (by decide) ⟨le_rfl, by decide⟩

end Vardoger.Memory
