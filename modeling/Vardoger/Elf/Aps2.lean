import Mathlib.Data.List.TakeWhile
import Vardoger.Elf.Relr

/-!
# Packed relocations

The packed format `APS2` is a stream of signed numbers: relocations in groups, with offsets and
addends relative to those before them, and with what a whole group has in common in its head. We
describe an encoding by its groups, give the list of relocations that they stand for, and show that
the decoder of the loader applies this list in order. A plain table of the same list has the same
effect as long as its relocations do not write to the table while it is read.
-/

namespace Vardoger.Elf

open Words Stateful LittleEndian Patches Bytes Sleb128

/-- The relocation types that the loader knows. -/
def Supported (kinds : RelocKinds) (r : Rela) : Prop :=
  relType r.info .elf64 ∈ [kinds.relative, kinds.globDat, kinds.jumpSlot, kinds.abs]

instance (kinds : RelocKinds) (r : Rela) : Decidable (Supported kinds r) :=
  inferInstanceAs (Decidable (_ ∈ _))

namespace Aps2

/-! ## Encodings -/

/-- The numbers of a relocation. Those that its group has in common are not written. -/
structure Entry where
  delta : ℤ
  info : ℤ
  addend : ℤ
  deriving DecidableEq, Repr

/-- A group, with or without each grouping and with or without addends. -/
structure Group where
  byInfo : Bool
  byDelta : Bool
  byAddend : Bool
  hasAddend : Bool
  delta : ℤ
  info : ℤ
  addend : ℤ
  entries : List Entry
  deriving DecidableEq, Repr

/-- The running offset and addend. -/
structure Cursor where
  offset : ℤ
  addend : ℤ
  deriving DecidableEq, Repr

/-- The flags of a group as a number. -/
def flagNumber (byInfo byDelta byAddend hasAddend : Bool) : ℤ :=
  (if byInfo then 1 else 0) + (if byDelta then 2 else 0) + (if byAddend then 4 else 0) +
    (if hasAddend then 8 else 0)

namespace Group

variable (g : Group)

def flags : ℤ := flagNumber g.byInfo g.byDelta g.byAddend g.hasAddend

/-- The numbers that are written for a relocation. -/
def entryNumbers (e : Entry) : List ℤ :=
  (if g.byDelta then [] else [e.delta]) ++ ((if g.byInfo then [] else [e.info]) ++
    if g.hasAddend && !g.byAddend then [e.addend] else [])

/-- The numbers of a group. -/
def numbers : List ℤ :=
  g.entries.length :: g.flags :: ((if g.byDelta then [g.delta] else []) ++
    ((if g.byInfo then [g.info] else []) ++
      ((if g.byAddend && g.hasAddend then [g.addend] else []) ++
        g.entries.flatMap g.entryNumbers)))

/-- The cursor in front of the relocations of a group. -/
def start (c : Cursor) : Cursor :=
  ⟨c.offset, c.addend + if g.byAddend && g.hasAddend then g.addend else 0⟩

/-- The cursor at a relocation. -/
def step (c : Cursor) (e : Entry) : Cursor :=
  ⟨c.offset + if g.byDelta then g.delta else e.delta,
    c.addend + if g.hasAddend && !g.byAddend then e.addend else 0⟩

/-- The cursor behind a group; a group without addends resets the addend. -/
def stop (c : Cursor) : Cursor :=
  let c := g.entries.foldl g.step (g.start c)
  if g.hasAddend then c else ⟨c.offset, 0⟩

/-- The relocation at a cursor. -/
def rela (c : Cursor) (e : Entry) : Rela :=
  ⟨word 64 c.offset, word 64 (if g.byInfo then g.info else e.info),
    if g.hasAddend then word 64 c.addend else 0⟩

def relasFrom : Cursor → List Entry → List Rela
  | _, [] => []
  | c, e :: es => g.rela (g.step c e) e :: relasFrom (g.step c e) es

end Group

/-- The relocations that groups stand for. -/
def relas : Cursor → List Group → List Rela
  | _, [] => []
  | c, g :: gs => g.relasFrom (g.start c) g.entries ++ relas (g.stop c) gs

/-- The bytes are an encoding of the relocations: the magic, and then the number of relocations, the
first offset and the groups as numbers of at most ten bytes each. -/
structure Packs (buf : List UInt8) (rs : List Rela) : Prop where
  magic : buf.take 4 = ascii "APS2"
  count : rs.length < 2 ^ 63
  groups : ∃ offset gs stop,
    Stream 10 buf 4 (rs.length :: offset :: List.flatMap Group.numbers gs) stop ∧
      relas ⟨offset, 0⟩ gs = rs

/-! ## The decoder -/

/-- The variables of the loader at a position and a cursor. -/
def stateAt (p : ℕ) (c : Cursor) : PackedState := ⟨p, word 64 c.offset, word 64 c.addend⟩

/-- The variables of the loader for a group. -/
def Group.packed (g : Group) : PackedGroup :=
  ⟨word 64 g.flags, if g.byDelta then word 64 g.delta else 0,
    if g.byInfo then word 64 g.info else 0⟩

theorem and_flagNumber : ∀ byInfo byDelta byAddend hasAddend : Bool,
    decide (word 64 (flagNumber byInfo byDelta byAddend hasAddend) &&& groupedByInfo ≠ 0) =
        byInfo ∧
      decide (word 64 (flagNumber byInfo byDelta byAddend hasAddend) &&& groupedByDelta ≠ 0) =
        byDelta ∧
      decide (word 64 (flagNumber byInfo byDelta byAddend hasAddend) &&& groupedByAddend ≠ 0) =
        byAddend ∧
      decide (word 64 (flagNumber byInfo byDelta byAddend hasAddend) &&& groupHasAddend ≠ 0) =
        hasAddend := by
  decide

/-- The loader finds the flags of a group. -/
theorem has_packed (g : Group) : g.packed.has groupedByInfo = g.byInfo ∧
    g.packed.has groupedByDelta = g.byDelta ∧ g.packed.has groupedByAddend = g.byAddend ∧
    g.packed.has groupHasAddend = g.hasAddend :=
  and_flagNumber g.byInfo g.byDelta g.byAddend g.hasAddend

theorem add64_word (a b : ℤ) : add64 (word 64 a) (word 64 b) = word 64 (a + b) := by
  unfold add64 word
  omega

variable {τ : Type} {buf : List UInt8} {p q : ℕ} {v : ℤ} {vs : List ℤ}

theorem sleb_eq (h : Stream 10 buf p (v :: vs) q) :
    ∃ p', Stream 10 buf p' vs q ∧ (sleb buf p : LoadM τ (ℕ × ℕ)) = pure (word 64 v, p') := by
  obtain ⟨p', hread, hrest⟩ := h.read_eq 64
  refine ⟨p', hrest, ?_⟩
  rw [sleb, hread]

/-- A number that is only there under a condition. -/
theorem sleb_optional {b : Bool} (x : ℕ) (h : Stream 10 buf p ((if b then [v] else []) ++ vs) q) :
    ∃ p', Stream 10 buf p' vs q ∧
      (if b then sleb buf p else pure (x, p) : LoadM τ (ℕ × ℕ)) =
        pure (if b then word 64 v else x, p') := by
  cases b with
  | false => exact ⟨p, h, rfl⟩
  | true => exact sleb_eq h

/-- A number that is not there if the group has it. -/
theorem sleb_grouped {b : Bool} (x : ℕ) (h : Stream 10 buf p ((if b then [] else [v]) ++ vs) q) :
    ∃ p', Stream 10 buf p' vs q ∧
      (if b then pure (x, p) else sleb buf p : LoadM τ (ℕ × ℕ)) =
        pure (if b then x else word 64 v, p') := by
  cases b with
  | true => exact ⟨p, h, rfl⟩
  | false => exact sleb_eq h

/-- Decoding a relocation of a group. -/
theorem packedEntry_eq {g : Group} {e : Entry} (c : Cursor)
    (h : Stream 10 buf p (g.entryNumbers e ++ vs) q) :
    ∃ p', Stream 10 buf p' vs q ∧
      (packedEntry buf g.packed (stateAt p c) : LoadM τ (Rela × PackedState)) =
        pure (g.rela (g.step c e) e, stateAt p' (g.step c e)) := by
  obtain ⟨hinfo, hdelta, hbyAddend, hhas⟩ := has_packed g
  rw [Group.entryNumbers, List.append_assoc, List.append_assoc] at h
  obtain ⟨p₁, h₁, hread₁⟩ := sleb_grouped (τ := τ) g.packed.delta h
  obtain ⟨p₂, h₂, hread₂⟩ := sleb_grouped (τ := τ) g.packed.info h₁
  obtain ⟨p₃, h₃, hread₃⟩ := sleb_optional (τ := τ) 0 h₂
  refine ⟨p₃, h₃, ?_⟩
  have hoffset : add64 (word 64 c.offset) (if g.byDelta then g.packed.delta else word 64 e.delta) =
      word 64 (g.step c e).offset := by
    rw [Group.step, ← add64_word, Group.packed]
    cases g.byDelta <;> rfl
  have hinfoValue : (if g.byInfo then g.packed.info else word 64 e.info) =
      word 64 (if g.byInfo then g.info else e.info) := by
    rw [Group.packed]
    cases g.byInfo <;> rfl
  have haddend : add64 (word 64 c.addend)
      (if g.hasAddend && !g.byAddend then word 64 e.addend else 0) =
      word 64 (g.step c e).addend := by
    rw [Group.step, ← add64_word]
    cases g.hasAddend && !g.byAddend <;> rfl
  unfold packedEntry
  simp only [hinfo, hdelta, hbyAddend, hhas, stateAt]
  rw [ite_bind, hread₁, pure_bind]
  simp only [hoffset]
  rw [ite_bind, hread₂, pure_bind]
  simp only [hinfoValue]
  rw [ite_bind, hread₃, pure_bind]
  simp only [haddend]
  rfl

/-- Decoding the relocations of a group applies them in order. -/
theorem packedEntries_eq (cl : ElfClass) (k : LinkContext τ) {g : Group} {es : List Entry}
    (c : Cursor) (h : Stream 10 buf p (es.flatMap g.entryNumbers ++ vs) q) :
    ∃ p', Stream 10 buf p' vs q ∧
      packedEntries cl k buf g.packed es.length (stateAt p c) =
        ((g.relasFrom c es).forM (applyEntry cl k) >>= fun _ =>
          pure (stateAt p' (es.foldl g.step c))) := by
  induction es generalizing p c with
  | nil => exact ⟨p, h, rfl⟩
  | cons e es ih =>
    rw [List.flatMap_cons, List.append_assoc] at h
    obtain ⟨p₁, h₁, hentry⟩ := packedEntry_eq (τ := τ) c h
    obtain ⟨p₂, h₂, hrest⟩ := ih (g.step c e) h₁
    refine ⟨p₂, h₂, ?_⟩
    rw [List.length_cons, packedEntries, hentry, pure_bind, List.foldl_cons]
    dsimp only
    rw [hrest]
    exact (bind_assoc ..).symm

/-- Decoding the head of a group. -/
theorem packedHead_eq {g : Group} (c : Cursor) (h : Stream 10 buf p (g.numbers ++ vs) q) :
    ∃ p', Stream 10 buf p' (g.entries.flatMap g.entryNumbers ++ vs) q ∧
      (packedHead buf (stateAt p c) : LoadM τ (ℕ × PackedGroup × PackedState)) =
        pure (word 64 g.entries.length, g.packed, stateAt p' (g.start c)) := by
  obtain ⟨hinfo, hdelta, hbyAddend, hhas⟩ := has_packed g
  simp only [Group.numbers, List.cons_append, List.append_assoc] at h
  obtain ⟨p₁, h₁, hread₁⟩ := sleb_eq (τ := τ) h
  obtain ⟨p₂, h₂, hread₂⟩ := sleb_eq (τ := τ) h₁
  obtain ⟨p₃, h₃, hread₃⟩ := sleb_optional (τ := τ) 0 h₂
  obtain ⟨p₄, h₄, hread₄⟩ := sleb_optional (τ := τ) 0 h₃
  obtain ⟨p₅, h₅, hread₅⟩ := sleb_optional (τ := τ) 0 h₄
  refine ⟨p₅, h₅, ?_⟩
  have hflagDelta : (word 64 g.flags &&& groupedByDelta ≠ 0) = (g.byDelta = true) := by
    rw [← hdelta]
    exact decide_eq_true_eq.symm
  have hflagInfo : (word 64 g.flags &&& groupedByInfo ≠ 0) = (g.byInfo = true) := by
    rw [← hinfo]
    exact decide_eq_true_eq.symm
  have haddend : add64 (word 64 c.addend)
      (if g.byAddend && g.hasAddend then word 64 g.addend else 0) =
      word 64 (g.start c).addend := by
    rw [Group.start, ← add64_word]
    cases g.byAddend && g.hasAddend <;> rfl
  unfold packedHead
  simp only [stateAt]
  rw [hread₁, pure_bind]
  dsimp only
  rw [hread₂, pure_bind]
  simp only [hflagDelta, hflagInfo]
  rw [ite_bind, hread₃, pure_bind]
  dsimp only
  rw [ite_bind, hread₄, pure_bind]
  change (if g.packed.has groupedByAddend && g.packed.has groupHasAddend then _ else _) = _
  rw [hbyAddend, hhas, ite_bind, hread₅, pure_bind]
  simp only [haddend]
  rfl

theorem length_relasFrom (g : Group) (c : Cursor) (es : List Entry) :
    (g.relasFrom c es).length = es.length := by
  induction es generalizing c with
  | nil => rfl
  | cons e es ih => rw [Group.relasFrom, List.length_cons, List.length_cons, ih]

theorem word_natCast {n : ℕ} (h : n < 2 ^ 64) : word 64 n = n := word_eq h rfl

theorem signed_of_lt {n : ℕ} (h : n < 2 ^ 63) : signed n = n := if_pos h

/-- Decoding groups applies their relocations in order. The induction is on the groups; the counter
of the loader is the number of relocations in front of them. -/
theorem packedGroups_eq (cl : ElfClass) (k : LinkContext τ) {count fuel done : ℕ} {gs : List Group}
    (c : Cursor) (hfuel : gs.length ≤ fuel)
    (h : Stream 10 buf p (gs.flatMap Group.numbers) q)
    (hdone : done + (relas c gs).length = count) (hcount : count < 2 ^ 63) :
    packedGroups cl k buf count fuel done (stateAt p c) =
      (relas c gs).forM (applyEntry cl k) := by
  induction gs generalizing p c fuel done with
  | nil =>
    cases fuel with
    | zero => rfl
    | succ fuel =>
      have hstop : ¬(signed done < signed count ∧ (stateAt p c).p < buf.length) := by
        simp only [relas, List.length_nil, Nat.add_zero] at hdone
        rw [hdone]
        simp
      rw [packedGroups, if_neg hstop]
      rfl
  | cons g gs ih =>
    obtain ⟨fuel, rfl⟩ : ∃ n, fuel = n + 1 := ⟨fuel - 1, by rw [List.length_cons] at hfuel; omega⟩
    by_cases hempty : relas c (g :: gs) = []
    · have hstop : ¬(signed done < signed count ∧ (stateAt p c).p < buf.length) := by
        rw [hempty, List.length_nil, Nat.add_zero] at hdone
        rw [hdone]
        simp
      rw [packedGroups, if_neg hstop, hempty]
      rfl
    · have hpos := List.length_pos_iff.mpr hempty
      rw [List.flatMap_cons] at h
      have hgo : signed done < signed count ∧ (stateAt p c).p < buf.length := by
        rw [signed_of_lt (by omega), signed_of_lt hcount]
        exact ⟨by omega, h.lt_length⟩
      obtain ⟨p₁, h₁, hhead⟩ := packedHead_eq (τ := τ) c h
      obtain ⟨p₂, h₂, hentries⟩ := packedEntries_eq cl k (g.start c) h₁
      rw [relas, List.length_append, length_relasFrom] at hdone
      have hsize : word 64 g.entries.length = g.entries.length := word_natCast (by omega)
      have hnat : (signed g.entries.length).toNat = g.entries.length := by
        rw [signed_of_lt (by omega), Int.toNat_natCast]
      have hnext : add64 done g.entries.length = done + g.entries.length :=
        add64_of_lt (by omega)
      have hstop : (if g.packed.has groupHasAddend then
            stateAt p₂ (g.entries.foldl g.step (g.start c))
          else { stateAt p₂ (g.entries.foldl g.step (g.start c)) with addend := 0 }) =
          stateAt p₂ (g.stop c) := by
        rw [(has_packed g).2.2.2, Group.stop]
        cases g.hasAddend <;> rfl
      have hrest : packedGroups cl k buf count fuel (done + g.entries.length)
          (stateAt p₂ (g.stop c)) = _ :=
        ih (g.stop c) (by rw [List.length_cons] at hfuel; omega) h₂ (by omega)
      rw [packedGroups, if_pos hgo, hhead, pure_bind]
      dsimp only
      rw [hsize, hnat, hentries, bind_assoc, relas, forM_append_eq]
      simp only [pure_bind, hstop, hnext, hrest]

theorem length_le_length_flatMap_numbers (gs : List Group) :
    gs.length ≤ (gs.flatMap Group.numbers).length := by
  induction gs with
  | nil => exact Nat.le_refl 0
  | cons g gs ih =>
    have hnumbers : 2 ≤ g.numbers.length := by simp [Group.numbers]
    rw [List.flatMap_cons, List.length_append, List.length_cons]
    omega

/-- A packed table has the effect of the relocations that it encodes, one after the other. -/
theorem applyAndroidRela_eq (cl : ElfClass) (k : LinkContext τ) {table : ℕ} {rs : List Rela}
    {s : LoadState τ} (h : Packs buf rs) (hread : readBytes table buf.length s = .ok buf s) :
    applyAndroidRela cl k table buf.length s = rs.forM (applyEntry cl k) s := by
  obtain ⟨offset, gs, stop, hstream, hrelas⟩ := h.groups
  have hfour : 4 ≤ buf.length := by
    have hlength := congrArg List.length h.magic
    rw [List.length_take] at hlength
    have hmagic : (ascii "APS2").length = 4 := by decide
    omega
  have hfuel : gs.length ≤ buf.length := by
    have hbytes := hstream.add_length_le hfour
    have hnumbers := length_le_length_flatMap_numbers gs
    simp only [List.length_cons] at hbytes
    omega
  obtain ⟨p₁, h₁, hread₁⟩ := sleb_eq (τ := τ) hstream
  obtain ⟨p₂, h₂, hread₂⟩ := sleb_eq (τ := τ) h₁
  have hcount := h.count
  have hgroups : packedGroups cl k buf rs.length buf.length 0 (Aps2.stateAt p₂ ⟨offset, 0⟩) = _ :=
    packedGroups_eq cl k ⟨offset, 0⟩ hfuel h₂ (by rw [hrelas, Nat.zero_add]) hcount
  rw [hrelas] at hgroups
  rw [applyAndroidRela, bind_ok hread, if_pos h.magic, hread₁, pure_bind]
  dsimp only
  rw [hread₂, pure_bind, word_natCast (by omega)]
  exact congrFun hgroups s

end Aps2

/-! ## Plain tables -/

/-- The relocations stand in a plain table in guest memory. -/
structure HoldsRelas {τ : Type} (s : LoadState τ) (table : ℕ) (rs : List Rela) : Prop where
  accessible : s.Accessible table (24 * rs.length)
  entry : ∀ i r, rs[i]? = some r →
    Rela.decode (slice s.byte (table + 24 * i) 24) .elf64 = r

/-- A range of guest memory stays mapped and has the same bytes. -/
structure KeepsRange {τ : Type} (a n : ℕ) (s s' : LoadState τ) : Prop where
  mapped : ∀ x, a ≤ x → x < a + n → s.mem.engine.Mapped x → s'.mem.engine.Mapped x
  byte : ∀ x, a ≤ x → x < a + n → s'.byte x = s.byte x

instance {τ : Type} (a n : ℕ) : Std.Refl (KeepsRange (τ := τ) a n) :=
  ⟨fun _ => ⟨fun _ _ _ h => h, fun _ _ _ => rfl⟩⟩

instance {τ : Type} (a n : ℕ) : IsTrans (LoadState τ) (KeepsRange a n) where
  trans _ _ _ h h' :=
    ⟨fun x hlow hhigh hx => h'.mapped x hlow hhigh (h.mapped x hlow hhigh hx),
      fun x hlow hhigh => (h'.byte x hlow hhigh).trans (h.byte x hlow hhigh)⟩

section Plain

variable {τ : Type} {s s' : LoadState τ} {table n : ℕ} {r : Rela} {rs : List Rela}
  {k : LinkContext τ}

theorem HoldsRelas.keeps {a : ℕ} (h : HoldsRelas s table rs) (hkeep : KeepsRange a n s s')
    (hlow : a ≤ table) (hhigh : table + 24 * rs.length ≤ a + n) : HoldsRelas s' table rs := by
  refine ⟨⟨h.accessible.1, fun i hi => ?_⟩, fun i r hr => ?_⟩
  · exact hkeep.mapped _ (by omega) (by omega) (h.accessible.2 i hi)
  have hi : i < rs.length := (List.getElem?_eq_some_iff.mp hr).1
  rw [← h.entry i r hr]
  congr 1
  apply slice_congr
  intro j hj
  exact hkeep.byte _ (by omega) (by omega)

theorem HoldsRelas.tail (h : HoldsRelas s table (r :: rs)) : HoldsRelas s (table + 24) rs := by
  constructor
  · apply h.accessible.part
    · omega
    · rw [List.length_cons]
      omega
  · intro i r' hr'
    have hentry := h.entry (i + 1) r' hr'
    rwa [show table + 24 * (i + 1) = table + 24 + 24 * i by omega] at hentry

theorem moves_readBytes {R : LoadState τ → LoadState τ → Prop} [Std.Refl R] (a m : ℕ) :
    Moves R (readBytes a m : LoadM τ (List UInt8)) := by
  intro s
  unfold readBytes
  split
  · exact refl_of R s
  · exact refl_of R s

/-- A write beside a range keeps it. -/
theorem moves_writeWord {a : ℕ} (v : ℕ) (hapart : a + 8 ≤ table ∨ table + n ≤ a) :
    Moves (KeepsRange table n) (writeWord 8 a v : LoadM τ Unit) := by
  intro s
  by_cases haccess : s.Accessible a 8
  · rw [writeWord_eq haccess]
    refine ⟨fun _ _ _ h => h, fun x hlow hhigh => put_of_not_covers ?_⟩
    simp only [Patch.Covers, length_toBytes]
    omega
  · have haccess : ¬s.mem.engine.Accessible a (toBytes 8 v).length := by rwa [length_toBytes]
    simp only [writeWord, onEngine, onMem, Memory.onEngine, Engine.write, if_neg haccess]
    exact refl_of (KeepsRange table n) s

/-- A relocation keeps a range beside its slot if the resolver does. -/
theorem moves_applyEntry (hapart : add64 k.bias r.offset + 8 ≤ table ∨
      table + n ≤ add64 k.bias r.offset)
    (hresolve : ∀ resolve, k.resolveImport = some resolve →
      ∀ nm, Moves (KeepsRange table n) (resolve nm)) :
    Moves (KeepsRange table n) (applyEntry .elf64 k r) := by
  have hsym : ∀ idx, Moves (KeepsRange table n) (resolveSym .elf64 k idx) := by
    intro idx
    refine moves_bind (moves_bind (moves_readBytes _ _) fun _ => moves_pure _) fun sym => ?_
    apply moves_ite
    · refine moves_bind (moves_bind moves_get fun _ => moves_pure _) fun nm => ?_
      cases hnone : k.resolveImport with
      | none => exact moves_pure _
      | some resolve => exact hresolve resolve hnone nm
    · exact moves_pure _
  apply moves_ite
  · exact moves_writeWord _ hapart
  · apply moves_ite
    · exact moves_bind (hsym _) fun _ => moves_writeWord _ hapart
    · apply moves_ite
      · exact moves_bind (hsym _) fun _ => moves_writeWord _ hapart
      · exact moves_pure _

/-- The rest of a plain table has the effect of its relocations, one after the other. -/
theorem applyRela_loop_eq {j : ℕ} (hfits : table + 24 * (j + rs.length) ≤ 2 ^ 64)
    (hn : 24 * (j + rs.length) ≤ n) (h : HoldsRelas s (table + 24 * j) rs)
    (hmoves : ∀ r ∈ rs, Moves (KeepsRange table n) (applyEntry .elf64 k r)) :
    (((List.range' j rs.length).map (· * 24)).forM fun o => do
        applyEntry .elf64 k (Rela.decode (← readBytes (add64 table o) 24) .elf64) :
          LoadM τ PUnit) s =
      rs.forM (applyEntry .elf64 k) s := by
  induction rs generalizing s j with
  | nil => rfl
  | cons r rs ih =>
    rw [List.length_cons] at hfits hn
    have haddr : add64 table (j * 24) = table + 24 * j := by
      rw [add64_of_lt (by omega)]
      omega
    have hread : readBytes (add64 table (j * 24)) 24 s =
        .ok (slice s.byte (table + 24 * j) 24) s := by
      rw [haddr]
      apply readBytes_eq
      apply h.accessible.part (Nat.le_refl _)
      rw [List.length_cons]
      omega
    have hentry : Rela.decode (slice s.byte (table + 24 * j) 24) .elf64 = r := h.entry 0 r rfl
    have hround : (readBytes (add64 table (j * 24)) 24 >>= fun x =>
        applyEntry .elf64 k (Rela.decode x .elf64)) s = applyEntry .elf64 k r s := by
      rw [bind_ok hread, hentry]
    have hkeep := hmoves r List.mem_cons_self s
    rw [List.length_cons, List.range'_succ, List.map_cons, forM_cons_apply, forM_cons_apply]
    cases hrun : applyEntry .elf64 k r s with
    | error err s' => rw [bind_error (hround.trans hrun), bind_error hrun]
    | ok u s' =>
      rw [hrun] at hkeep
      have hholds : HoldsRelas s' (table + 24 * (j + 1)) rs :=
        (h.keeps hkeep (by omega) (by rw [List.length_cons]; omega)).tail
      rw [bind_ok (hround.trans hrun), bind_ok hrun]
      exact ih (by omega) (by omega) hholds fun r' hr' => hmoves r' (List.mem_cons_of_mem _ hr')

/-- A plain table that its relocations do not write to has the effect of the relocations, one after
the other. -/
theorem applyRela_eq (h : HoldsRelas s table rs)
    (hmoves : ∀ r ∈ rs, Moves (KeepsRange table (24 * rs.length)) (applyEntry .elf64 k r)) :
    applyRela .elf64 k table (24 * rs.length) s = rs.forM (applyEntry .elf64 k) s := by
  have hfits := h.accessible.1
  have hoffsets : entryOffsets ElfClass.elf64.relaSize (24 * rs.length) =
      (List.range' 0 rs.length).map (· * 24) := by
    have hcount : 24 * rs.length / 24 = rs.length := Nat.mul_div_cancel_left _ (by decide)
    change (List.range (24 * rs.length / 24)).map (· * 24) = _
    rw [hcount, List.range_eq_range']
  rw [applyRela, hoffsets]
  exact applyRela_loop_eq (j := 0) (by omega) (by omega) h hmoves

/-- A packed table and a plain table of the same relocations have the same effect, if neither the
relocations nor the resolver write to the plain table. -/
theorem packed_agrees_with_plain {packed : ℕ} {buf : List UInt8} (hpacks : Aps2.Packs buf rs)
    (hpacked : s.Accessible packed buf.length) (hbytes : slice s.byte packed buf.length = buf)
    (hplain : HoldsRelas s table rs)
    (hapart : ∀ r ∈ rs, add64 k.bias r.offset + 8 ≤ table ∨
      table + 24 * rs.length ≤ add64 k.bias r.offset)
    (hresolve : ∀ resolve, k.resolveImport = some resolve →
      ∀ nm, Moves (KeepsRange table (24 * rs.length)) (resolve nm)) :
    applyAndroidRela .elf64 k packed buf.length s =
      applyRela .elf64 k table (24 * rs.length) s := by
  have hread : readBytes packed buf.length s = .ok buf s := by rw [readBytes_eq hpacked, hbytes]
  rw [Aps2.applyAndroidRela_eq .elf64 k hpacks hread,
    applyRela_eq hplain fun r hr => moves_applyEntry (hapart r hr) hresolve]

end Plain

/-! ## Two relocations -/

/-- Two relative relocations of an `x86_64` file with the same addend. -/
def twoRelas : List Rela := [⟨0x10038, 8, 0x10008⟩, ⟨0x10010, 8, 0x10008⟩]

/-- They are packed into one group, which has their type and addend in its head. -/
def twoPacked : List UInt8 :=
  ascii "APS2" ++ [2, 0xb8, 0x80, 0x04, 2, 13, 8, 0x88, 0x80, 0x04, 0, 0x58]

def twoGroup : Aps2.Group :=
  ⟨true, false, true, true, 0, 8, 0x10008, [⟨0, 0, 0⟩, ⟨-40, 0, 0⟩]⟩

theorem packs_twoPacked : Aps2.Packs twoPacked twoRelas := by
  have hsmall : ∀ b : UInt8, b.toNat < 64 → Encodes [b] b.toNat := by
    intro b hb
    have h := Encodes.last (b := b) (by omega)
    rwa [if_pos hb] at h
  have hoffset : Encodes [0xb8, 0x80, 0x04] 0x10038 :=
    .more (by decide) (.more (by decide) (hsmall 0x04 (by decide)))
  have haddend : Encodes [0x88, 0x80, 0x04] 0x10008 :=
    .more (by decide) (.more (by decide) (hsmall 0x04 (by decide)))
  have hback : Encodes [0x58] (-40) := Encodes.last (b := 0x58) (by decide)
  refine ⟨by decide, by decide, 0x10038, [twoGroup], 16, ?_, by decide⟩
  refine .cons (hsmall 2 (by decide)) (by decide) (by decide) ?_
  refine .cons hoffset (by decide) (by decide) ?_
  refine .cons (hsmall 2 (by decide)) (by decide) (by decide) ?_
  refine .cons (hsmall 13 (by decide)) (by decide) (by decide) ?_
  refine .cons (hsmall 8 (by decide)) (by decide) (by decide) ?_
  refine .cons haddend (by decide) (by decide) ?_
  refine .cons (hsmall 0 (by decide)) (by decide) (by decide) ?_
  refine .cons hback (by decide) (by decide) ?_
  exact .nil 16

/-- The bytes of the plain table. -/
def twoTable : List UInt8 := twoRelas.flatMap fun r =>
  toBytes 8 r.offset ++ toBytes 8 r.info ++ toBytes 8 r.addend

/-- A page with the packed table and the plain table. -/
def twoState (table : ℕ) : LoadState Unit where
  mem := { Memory.init .x8664 false false with
    engine := (((Engine.fresh .x8664).mapPages 0x10000 0x1000 ucProtAll).setBytes table
      twoTable).setBytes 0x10100 twoPacked }
  env := ()

/-- The image is loaded where it was linked. -/
def twoContext : LinkContext Unit := ⟨relocKinds emX8664, 0, 0, 0, none⟩

theorem accessible_twoState (table : ℕ) : (twoState table).Accessible 0x10000 0x1000 := by
  have hmappable : (Engine.fresh .x8664).Mappable 0x10000 0x1000 := by decide +kernel
  exact hmappable.accessible (Nat.le_refl _) ucProtAll

theorem holdsRelas_twoState {table : ℕ} (hlow : 0x10000 ≤ table) (hhigh : table + 48 ≤ 0x11000)
    (hfirst : Rela.decode (slice (twoState table).byte table 24) .elf64 = ⟨0x10038, 8, 0x10008⟩)
    (hsecond : Rela.decode (slice (twoState table).byte (table + 24) 24) .elf64 =
      ⟨0x10010, 8, 0x10008⟩) : HoldsRelas (twoState table) table twoRelas := by
  refine ⟨(accessible_twoState table).part hlow hhigh, fun i r hr => ?_⟩
  rcases i with _ | _ | i
  · obtain rfl := Option.some.inj hr
    exact hfirst
  · obtain rfl := Option.some.inj hr
    exact hsecond
  · cases hr

/-- With the plain table elsewhere in the page, both tables have the same effect. -/
theorem packed_agrees_with_plain_two :
    slice (twoState 0x10200).byte 0x10100 twoPacked.length = twoPacked ∧
      applyAndroidRela .elf64 twoContext 0x10100 twoPacked.length (twoState 0x10200) =
        applyRela .elf64 twoContext 0x10200 (24 * twoRelas.length) (twoState 0x10200) := by
  have hbytes : slice (twoState 0x10200).byte 0x10100 twoPacked.length = twoPacked := by
    decide +kernel
  have hplain : HoldsRelas (twoState 0x10200) 0x10200 twoRelas :=
    holdsRelas_twoState (by decide) (by decide) (by decide +kernel) (by decide +kernel)
  have hpacked : (twoState 0x10200).Accessible 0x10100 twoPacked.length :=
    (accessible_twoState _).part (by decide) (by decide)
  refine ⟨hbytes, packed_agrees_with_plain packs_twoPacked hpacked hbytes hplain (by decide) ?_⟩
  intro resolve hresolve
  cases hresolve

/-- In a plain table around its own slot, the first relocation moves the slot of the second one. -/
theorem packed_differs_from_plain :
    Aps2.Packs twoPacked twoRelas ∧ (∀ r ∈ twoRelas, Supported twoContext.kinds r) ∧
      slice (twoState 0x10020).byte 0x10100 twoPacked.length = twoPacked ∧
      HoldsRelas (twoState 0x10020) 0x10020 twoRelas ∧
      (final (applyAndroidRela .elf64 twoContext 0x10100 twoPacked.length
        (twoState 0x10020))).byte 0x10010 = 8 ∧
      (final (applyRela .elf64 twoContext 0x10020 (24 * twoRelas.length)
        (twoState 0x10020))).byte 0x10010 = 0 := by
  refine ⟨packs_twoPacked, by decide, by decide +kernel, ?_, by decide +kernel, by decide +kernel⟩
  exact holdsRelas_twoState (by decide) (by decide) (by decide +kernel) (by decide +kernel)

end Vardoger.Elf
