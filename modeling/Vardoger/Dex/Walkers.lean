import Vardoger.Base.PrefixFree
import Vardoger.Base.WriteLog
import Vardoger.Dex.MethodIndex

/-!
# The three walkers agree

In a well-formed file the parser, the method index and the rebuilder visit the same method records,
although they skip fields in different ways and the rebuilder changes the file while it walks. If
the records have different method indices, then the index has the flags of each of them; and if the
method ids are different, then it finds each of them by its class, name and signature. Type
descriptors are prefix-free, so a signature determines the prototype.
-/

namespace Vardoger.Dex

open Bytes LittleEndian Uleb128

/-! ## Descriptors and prototypes -/

/-- A type descriptor: a primitive type, an array or a class. -/
inductive IsDescriptor : List UInt8 → Prop
  | primitive {c : UInt8} (hc : c ∈ ascii "VZBSCIJFD") : IsDescriptor [c]
  | array {x : List UInt8} (hx : IsDescriptor x) : IsDescriptor (0x5b :: x)
  | object {name : List UInt8} (hname : (0x3b : UInt8) ∉ name) :
      IsDescriptor (0x4c :: (name ++ [0x3b]))

theorem prefixFree_isDescriptor : PrefixFree IsDescriptor := by
  intro x y hx hy hxy
  induction hx generalizing y with
  | @primitive c hc =>
    cases hy with
    | primitive hc' => rw [(List.cons_prefix_cons.mp hxy).1]
    | array hy =>
      rw [(List.cons_prefix_cons.mp hxy).1] at hc
      exact absurd hc (by decide)
    | object hname =>
      rw [(List.cons_prefix_cons.mp hxy).1] at hc
      exact absurd hc (by decide)
  | @array x hx ih =>
    cases hy with
    | primitive hc =>
      rw [← (List.cons_prefix_cons.mp hxy).1] at hc
      exact absurd hc (by decide)
    | array hy => rw [ih _ hy (List.cons_prefix_cons.mp hxy).2]
    | object hname => exact absurd (List.cons_prefix_cons.mp hxy).1 (by decide)
  | @object name hname =>
    cases hy with
    | primitive hc =>
      rw [← (List.cons_prefix_cons.mp hxy).1] at hc
      exact absurd hc (by decide)
    | array hy => exact absurd (List.cons_prefix_cons.mp hxy).1 (by decide)
    | @object name' hname' =>
      obtain ⟨rest, hrest⟩ := (List.cons_prefix_cons.mp hxy).2
      rw [List.append_assoc, List.singleton_append] at hrest
      rw [((List.append_cons_inj_of_notMem hname' List.not_mem_nil).mp hrest.symm).1]

theorem IsDescriptor.head_ne {x : List UInt8} (hx : IsDescriptor x) :
    ∃ a rest, x = a :: rest ∧ a ≠ 0x29 := by
  cases hx with
  | @primitive c hc => exact ⟨c, [], rfl, fun heq => absurd (heq ▸ hc) (by decide)⟩
  | @array x hx => exact ⟨_, x, rfl, by decide⟩
  | object hname => exact ⟨_, _, rfl, by decide⟩

/-- The types of the parameters and of the result of a method. -/
structure Prototype where
  params : List (List UInt8)
  ret : List UInt8
  deriving DecidableEq

/-- The signature as the decode log writes it. -/
def Prototype.signature (p : Prototype) : List UInt8 :=
  ascii "(" ++ p.params.flatten ++ ascii ")" ++ p.ret

theorem Prototype.signature_inj {p q : Prototype} (hp : ∀ x ∈ p.params, IsDescriptor x)
    (hq : ∀ x ∈ q.params, IsDescriptor x) (h : p.signature = q.signature) : p = q := by
  have hsplit : ∀ r : Prototype, r.signature = 0x28 :: (r.params.flatten ++ 0x29 :: r.ret) := by
    intro r
    simp [signature, ascii]
  rw [hsplit, hsplit] at h
  obtain ⟨hparams, hret⟩ := prefixFree_isDescriptor.flatten_inj (fun x hx => hx.head_ne) hp hq
    (List.cons.inj h).2
  cases p
  cases q
  exact congrArg₂ Prototype.mk hparams hret

/-! ## Method ids -/

/-- What a method id stands for. -/
structure MethodId where
  cls : List UInt8
  name : List UInt8
  proto : Prototype
  deriving DecidableEq

namespace Tables

variable (t : Tables)

/-- The prototype of a prototype id, with the types as the parser reads them. -/
def prototypeAt (k : ℕ) : Prototype where
  params :=
    let poff := rd32 t.data (t.protoIds.off + k * 12 + 8)
    if poff = 0 then []
    else (List.range (rd32 t.data poff)).map fun j => t.typeAt (wordAt 2 t.data (poff + 4 + j * 2))
  ret := t.typeAt (rd32 t.data (t.protoIds.off + k * 12 + 4))

/-- The method of a method id. -/
def methodIdAt (i : ℕ) : MethodId where
  cls := t.typeAt (t.idEntry (t.methodIds.off + i * 8)).1
  name := t.stringAt (t.idEntry (t.methodIds.off + i * 8)).2.2
  proto := t.prototypeAt (t.idEntry (t.methodIds.off + i * 8)).2.1

end Tables

/-- The ids refer to entries of their tables, the parameter lists are inside the file, and the types
are descriptors. -/
structure IdsInRange (d : List UInt8) : Prop where
  types : ∀ k < (Tables.ofHeader d).typeIds.size,
    rd32 d ((Tables.ofHeader d).typeIds.off + k * 4) < (Tables.ofHeader d).stringIds.size
  descriptors : ∀ k < (Tables.ofHeader d).typeIds.size, IsDescriptor ((Tables.ofHeader d).typeAt k)
  returns : ∀ k < (Tables.ofHeader d).protoIds.size,
    rd32 d ((Tables.ofHeader d).protoIds.off + k * 12 + 4) < (Tables.ofHeader d).typeIds.size
  params : ∀ k < (Tables.ofHeader d).protoIds.size, ∀ poff,
    rd32 d ((Tables.ofHeader d).protoIds.off + k * 12 + 8) = poff → poff ≠ 0 →
      poff + 4 + rd32 d poff * 2 ≤ d.length ∧ ∀ j < rd32 d poff,
        wordAt 2 d (poff + 4 + j * 2) < (Tables.ofHeader d).typeIds.size
  methods : ∀ i < (Tables.ofHeader d).methodIds.size, ∀ cls proto name,
    (Tables.ofHeader d).idEntry ((Tables.ofHeader d).methodIds.off + i * 8) = (cls, proto, name) →
      cls < (Tables.ofHeader d).typeIds.size ∧ proto < (Tables.ofHeader d).protoIds.size ∧
        name < (Tables.ofHeader d).stringIds.size

/-- The method records of a file. -/
def recordsOf (d : List UInt8) : List MethodVisit :=
  allVisits (Tables.ofHeader d).classDefs.size fun k =>
    (indexed 0 ((Tables.ofHeader d).dataOf k).directMethods,
      indexed 0 ((Tables.ofHeader d).dataOf k).virtualMethods)

/-- No two method ids stand for the same method, and no method has two records. -/
structure UniqueIds (d : List UInt8) : Prop where
  methodIds : ∀ i < (Tables.ofHeader d).methodIds.size, ∀ j < (Tables.ofHeader d).methodIds.size,
    (Tables.ofHeader d).methodIdAt i = (Tables.ofHeader d).methodIdAt j → i = j
  records : ((recordsOf d).map MethodVisit.methodIdx).Nodup

theorem IdsInRange.isDescriptor {d : List UInt8} (hids : IdsInRange d) {i : ℕ}
    (hi : i < (Tables.ofHeader d).methodIds.size) :
    ∀ x ∈ ((Tables.ofHeader d).methodIdAt i).proto.params, IsDescriptor x := by
  intro x hx
  obtain ⟨cls, k, name, hentry⟩ : ∃ cls k name, (Tables.ofHeader d).idEntry
      ((Tables.ofHeader d).methodIds.off + i * 8) = (cls, k, name) := ⟨_, _, _, rfl⟩
  have hproto := (hids.methods i hi _ _ _ hentry).2.1
  rw [Tables.methodIdAt, hentry] at hx
  have hparams := hids.params k hproto _ rfl
  dsimp only [Tables.prototypeAt] at hx
  rw [show (Tables.ofHeader d).data = d from rfl] at hx
  split at hx
  next hzero => cases hx
  next hzero =>
    obtain ⟨j, hj, rfl⟩ := List.mem_map.mp hx
    exact hids.descriptors _ ((hparams hzero).2 j (List.mem_range.mp hj))

section Ids

variable {d : List UInt8} (hd : WellFormed d) (hsize : d.length < 2 ^ 32)

include hd hsize

/-- Without its bounds check, a string of the table is read as the parser reads it. -/
theorem stri_eq {i : ℕ} (hi : i < (Tables.ofHeader d).stringIds.size) :
    Devirt.stri (Tables.ofHeader d) i = (Tables.ofHeader d).stringAt i := by
  obtain ⟨x, v, text, hx, hmost, htext, hstands, hsection⟩ := hd.strings i hi
  have hinside := (hd.stringIds.resolve_left (by omega)).inside
  have hpos : ((Tables.ofHeader d).stringIds.off + i * 4) % 2 ^ 32 =
      (Tables.ofHeader d).stringIds.off + i * 4 := Nat.mod_eq_of_lt (by omega)
  rw [Devirt.stri, Tables.stringAt, if_neg (by omega), hpos, Devirt.rdU32,
    show (Tables.ofHeader d).data = d from rfl, ← rd32_eq (by omega)]
  dsimp only
  generalize rd32 d ((Tables.ofHeader d).stringIds.off + i * 4) = o at hstands hsection
  have hend := hsection.inside
  have hxpos := List.length_pos_of_ne_nil hx.ne_nil
  simp only [List.length_append, List.length_singleton] at hend
  have hnumber := (standsAt_append.mp hstands).1
  have hbyte : (uleb d o).2 = (Devirt.rdUleb d o).2 := by
    rw [uleb, Devirt.rdUleb, read_of_encodes hx hnumber hmost (by omega),
      read_of_encodes hx hnumber (by omega) (by omega)]
  rw [if_neg (by omega), hbyte]

variable (hids : IdsInRange d)

include hids

theorem typ_eq {i : ℕ} (hi : i < (Tables.ofHeader d).typeIds.size) :
    Devirt.typ (Tables.ofHeader d) i = (Tables.ofHeader d).typeAt i := by
  have hinside := (hd.typeIds.resolve_left (by omega)).inside
  have hpos : ((Tables.ofHeader d).typeIds.off + i * 4) % 2 ^ 32 =
      (Tables.ofHeader d).typeIds.off + i * 4 := Nat.mod_eq_of_lt (by omega)
  rw [Devirt.typ, Tables.typeAt, hpos, Devirt.rdU32, show (Tables.ofHeader d).data = d from rfl,
    ← rd32_eq (by omega), stri_eq hd hsize (hids.types i hi), if_neg]
  unfold kNoIndex
  omega

/-- The signature of a prototype id. -/
theorem protoSig_eq {k : ℕ} (hk : k < (Tables.ofHeader d).protoIds.size) :
    Devirt.protoSig (Tables.ofHeader d) k = ((Tables.ofHeader d).prototypeAt k).signature := by
  have hinside := (hd.protoIds.resolve_left (by omega)).inside
  have hparams := hids.params k hk _ rfl
  have hword : ∀ o, o + 4 ≤ d.length → Devirt.rdU32 d o = rd32 d o := fun o ho => (rd32_eq ho).symm
  dsimp only [Devirt.protoSig, Prototype.signature, Tables.prototypeAt, Devirt.rdU16]
  rw [show (Tables.ofHeader d).data = d from rfl, hword (_ + k * 12 + 4) (by omega),
    hword (_ + k * 12 + 8) (by omega), typ_eq hd hsize hids (hids.returns k hk)]
  generalize rd32 d ((Tables.ofHeader d).protoIds.off + k * 12 + 8) = poff at hparams
  congr 3
  split
  next hzero => rfl
  next hzero =>
    obtain ⟨hlist, htypes⟩ := hparams hzero
    rw [hword poff (by omega), List.flatMap_def]
    refine congrArg List.flatten (List.map_congr_left fun j hj => ?_)
    have hj' := List.mem_range.mp hj
    rw [Nat.mod_eq_of_lt (by omega), typ_eq hd hsize hids (htypes j hj')]

/-- The class, name and signature of a method id. -/
theorem methodKey_eq {i : ℕ} (hi : i < (Tables.ofHeader d).methodIds.size) :
    Devirt.methodKey (Tables.ofHeader d) i =
      (((Tables.ofHeader d).methodIdAt i).cls, ((Tables.ofHeader d).methodIdAt i).name,
        ((Tables.ofHeader d).methodIdAt i).proto.signature) := by
  have hinside := (hd.methodIds.resolve_left (by omega)).inside
  have hentry : (Tables.ofHeader d).idEntry ((Tables.ofHeader d).methodIds.off + i * 8) =
      (wordAt 2 d ((Tables.ofHeader d).methodIds.off + i * 8),
        wordAt 2 d ((Tables.ofHeader d).methodIds.off + i * 8 + 2),
        wordAt 4 d ((Tables.ofHeader d).methodIds.off + i * 8 + 4)) :=
    if_pos (show _ ≤ d.length by omega)
  obtain ⟨hcls, hproto, hname⟩ := hids.methods i hi _ _ _ hentry
  rw [Devirt.methodKey, Tables.methodIdAt, hentry]
  dsimp only [Devirt.rdU16, Devirt.rdU32]
  rw [show (Tables.ofHeader d).data = d from rfl, typ_eq hd hsize hids hcls,
    stri_eq hd hsize hname, protoSig_eq hd hsize hids hproto]

/-- Different method ids have different keys. -/
theorem methodKey_inj (hunique : UniqueIds d) {i j : ℕ}
    (hi : i < (Tables.ofHeader d).methodIds.size) (hj : j < (Tables.ofHeader d).methodIds.size)
    (h : Devirt.methodKey (Tables.ofHeader d) i = Devirt.methodKey (Tables.ofHeader d) j) :
    i = j := by
  rw [methodKey_eq hd hsize hids hi, methodKey_eq hd hsize hids hj] at h
  simp only [Prod.mk.injEq] at h
  obtain ⟨hcls, hname, hsig⟩ := h
  have hproto := Prototype.signature_inj (hids.isDescriptor hi) (hids.isDescriptor hj) hsig
  refine hunique.methodIds i hi j hj ?_
  generalize (Tables.ofHeader d).methodIdAt i = m at *
  generalize (Tables.ofHeader d).methodIdAt j = m' at *
  cases m
  cases m'
  simp_all

end Ids

/-! ## The records -/

section Records

variable {d : List UInt8} {cd : ClassData} {off stop : ℕ}

theorem Devirt.reads_rdUleb {q : ℕ} (hq : q < 2 ^ 32) : Stream.Reads 32 5 d q (rdUleb d) :=
  fun _ _ _ h => h.read_eq (Nat.min_le_right _ _) (by omega)

theorem Tables.visitsAt_eq {t : Tables} (h : cd.StandsIn t.data off stop) (hoff : off ≠ 0)
    (hstop : stop < 2 ^ 32) :
    t.visitsAt off = (indexed 0 cd.directMethods, indexed 0 cd.virtualMethods) := by
  have hread := reads_uleb (t := t) hstop
  obtain ⟨p₁, p₂, p₃, p₄, h₁, h₂, h₃, h₄, hs⟩ := h.header hread
  obtain ⟨p₅, p₆, hdirect, hvirtual⟩ := ClassData.StandsIn.records hread hs
  have hcounts := h.counts
  rw [Tables.visitsAt, if_neg (by have := h.le_length; omega)]
  simp only [h₁, h₂, h₃, h₄, t.skipFields_eq]
  rw [Nat.mod_eq_of_lt (by omega), skipPairs_add, hdirect]
  simp only [hvirtual]

theorem Devirt.visitsAt_eq (h : cd.StandsIn d off stop) (hoff : off ≠ 0) (hstop : stop < 2 ^ 32) :
    Devirt.visitsAt d off = (indexed 0 cd.directMethods, indexed 0 cd.virtualMethods) := by
  have hread := reads_rdUleb (d := d) hstop
  obtain ⟨p₁, p₂, p₃, p₄, h₁, h₂, h₃, h₄, hs⟩ := h.header hread
  obtain ⟨p₅, p₆, hdirect, hvirtual⟩ := ClassData.StandsIn.records hread hs
  have hcounts := ClassData.StandsIn.counts (t := Tables.ofHeader d) h
  rw [Devirt.visitsAt, if_neg hoff]
  simp only [h₁, h₂, h₃, h₄, Devirt.skipFields]
  rw [Nat.mod_eq_of_lt (by omega), skipPairs_add, hdirect]
  simp only [hvirtual]

theorem DexRebuilder.visitsAt_eq (h : cd.StandsIn d off stop) (hoff : off ≠ 0)
    (hstop : stop < 2 ^ 32) :
    DexRebuilder.visitsAt d off = (indexed 0 cd.directMethods, indexed 0 cd.virtualMethods) := by
  have hread := reads_uleb (d := d) hstop
  obtain ⟨p₁, p₂, p₃, p₄, h₁, h₂, h₃, h₄, hs⟩ := h.header hread
  obtain ⟨p₅, p₆, hdirect, hvirtual⟩ := ClassData.StandsIn.records hread hs
  rw [DexRebuilder.visitsAt, if_neg (by have := h.le_length; omega)]
  simp only [h₁, h₂, h₃, h₄, copyFields_snd, hdirect, hvirtual]

end Records

theorem allVisits_congr {size : ℕ}
    {f g : ℕ → List (ℕ × EncodedMethod) × List (ℕ × EncodedMethod)} (h : ∀ k < size, f k = g k) :
    allVisits size f = allVisits size g := by
  unfold allVisits
  rw [List.flatMap_def, List.flatMap_def]
  congr 1
  refine List.map_congr_left fun k hk => ?_
  rw [h k (List.mem_range.mp hk)]

section Agreement

variable {d : List UInt8} (hd : DataApart d) (hsize : d.length < 2 ^ 32)

include hd hsize

/-- A walker finds the records of a class if it reads the data at an offset other than zero. -/
theorem visits_eq_records {visit : ℕ → List (ℕ × EncodedMethod) × List (ℕ × EncodedMethod)} {k : ℕ}
    (hk : k < (Tables.ofHeader d).classDefs.size) (hnone : visit 0 = ([], []))
    (hvisit : ∀ {off cd stop}, off = rd32 d ((Tables.ofHeader d).classDefAt k + 24) →
      ClassData.StandsIn d off cd stop → IsSection d off stop → off ≠ 0 → stop < 2 ^ 32 →
        visit off = (indexed 0 cd.directMethods, indexed 0 cd.virtualMethods)) :
    visit (rd32 d ((Tables.ofHeader d).classDefAt k + 24)) =
      (indexed 0 ((Tables.ofHeader d).dataOf k).directMethods,
        indexed 0 ((Tables.ofHeader d).dataOf k).virtualMethods) := by
  rcases hd.dataOf_cases hsize hk with ⟨hzero, hdata⟩ | ⟨cd, stop, hin, hsection, hoff, hdata⟩
  · rw [hzero, hdata, hnone]
    rfl
  · have hstop := hsection.inside
    rw [hdata, hvisit rfl hin hsection hoff (by omega)]

theorem parseVisits_eq : parseVisits d = recordsOf d := by
  refine allVisits_congr fun k hk => ?_
  change (Tables.ofHeader d).visitsAt (rd32 d ((Tables.ofHeader d).classDefAt k + 24)) = _
  refine visits_eq_records hd hsize hk rfl ?_
  intro off cd stop _ hin _ hoff hstop
  exact Tables.visitsAt_eq (t := Tables.ofHeader d) hin hoff hstop

theorem indexVisits_eq : indexVisits d = recordsOf d := by
  refine allVisits_congr fun k hk => ?_
  obtain ⟨hlow, hinside⟩ := hd.classDefAt_le hk
  have hword : Devirt.rdU32 d ((Tables.ofHeader d).classDefs.off + k * 32 + 24) =
      rd32 d ((Tables.ofHeader d).classDefAt k + 24) :=
    (rd32_eq (show (Tables.ofHeader d).classDefAt k + 24 + 4 ≤ d.length by omega)).symm
  rw [hword]
  refine visits_eq_records hd hsize hk rfl ?_
  intro off cd stop _ hin _ hoff hstop
  exact Devirt.visitsAt_eq hin hoff hstop

theorem buildVisits_eq (recovered : CodeMap) : buildVisits recovered d = recordsOf d := by
  refine allVisits_congr fun k hk => ?_
  have hinv := loopInv_relinkFirst recovered hd hsize k (by omega)
  have hword := hinv.wordAt_eq hd hk
  dsimp only
  change DexRebuilder.visitsAt (relinkFirst recovered d k).d
    (wordAt 4 (relinkFirst recovered d k).d ((Tables.ofHeader d).classDefAt k + 24)) = _
  rw [hword]
  refine visits_eq_records hd hsize hk rfl ?_
  rintro off cd stop rfl hin hsection hoff hstop
  exact DexRebuilder.visitsAt_eq (hinv.standsIn hk hin hsection) hoff hstop

end Agreement

/-! ## What the index holds -/

namespace Devirt

theorem foldl_indexMethodId_acc (t : Tables) (ix : DexIndex) (is : List ℕ) :
    (is.foldl (indexMethodId t) ix).acc = ix.acc := by
  induction is generalizing ix with
  | nil => rfl
  | cons i is ih => rw [List.foldl_cons, ih, indexMethodId]

theorem indexClass_mid (t : Tables) (ix : DexIndex) (i : ℕ) :
    (indexClass t ix i).mid = ix.mid := by
  unfold indexClass
  dsimp only
  split
  · rfl
  · rfl

theorem foldl_indexClass_mid (t : Tables) (ix : DexIndex) (is : List ℕ) :
    (is.foldl (indexClass t) ix).mid = ix.mid := by
  induction is generalizing ix with
  | nil => rfl
  | cons i is ih => rw [List.foldl_cons, ih, indexClass_mid]

theorem foldl_indexClass_acc (t : Tables) (ix : DexIndex) (n : ℕ) :
    ((List.range n).foldl (indexClass t) ix).acc =
      (allVisits n fun k => visitsAt t.data (rdU32 t.data (t.classDefs.off + k * 32 + 24))).foldl
        (fun (acc : ℕ → Option ℕ) v => Function.update acc v.methodIdx (some v.access)) ix.acc := by
  induction n with
  | zero => rfl
  | succ n ih =>
    rw [allVisits, List.range_succ, List.foldl_append, List.foldl_cons, List.foldl_nil,
      indexClass_acc, ih, List.flatMap_append, List.foldl_append, List.flatMap_cons,
      List.flatMap_nil, List.append_nil, List.foldl_map]
    rfl

/-- The flags of a method are those of its last record. -/
theorem dexMethodIndex_acc {d : List UInt8} (hsize : 0x70 ≤ d.length) (m : ℕ) :
    (dexMethodIndex d).acc m =
      (WriteLog.last MethodVisit.methodIdx m (indexVisits d)).map MethodVisit.access := by
  rw [dexMethodIndex, if_neg (by omega)]
  dsimp only
  rw [foldl_indexClass_acc, foldl_indexMethodId_acc]
  have hstep : ∀ (acc : ℕ → Option ℕ) (v : MethodVisit), True →
      Function.update acc v.methodIdx (some v.access) m =
        if v.methodIdx = m then some v.access else acc m := by
    intro acc v _
    simp only [Function.update_apply, eq_comm]
  have hlook := WriteLog.look_foldl MethodVisit.methodIdx m (fun acc : ℕ → Option ℕ => acc m)
    (fun _ _ _ => trivial) hstep (s := fun _ => none) trivial (indexVisits d)
  rw [Option.or_none] at hlook
  exact hlook

/-- A key leads to the last method id that has it. -/
theorem dexMethodIndex_mid {d : List UInt8} (hsize : 0x70 ≤ d.length)
    (key : List UInt8 × List UInt8 × List UInt8) :
    (dexMethodIndex d).mid key = WriteLog.last (methodKey (Tables.ofHeader d)) key
      (List.range (Tables.ofHeader d).methodIds.size) := by
  rw [dexMethodIndex, if_neg (by omega)]
  dsimp only
  rw [foldl_indexClass_mid]
  have hstep : ∀ (ix : DexIndex) (i : ℕ), True →
      (indexMethodId (Tables.ofHeader d) ix i).mid key =
        if methodKey (Tables.ofHeader d) i = key then some (id i) else ix.mid key := by
    intro ix i _
    simp only [indexMethodId, Function.update_apply, eq_comm, id]
  have hlook := WriteLog.look_foldl (methodKey (Tables.ofHeader d)) key
    (fun ix : DexIndex => ix.mid key) (fun _ _ _ => trivial) hstep (s := {}) trivial
    (List.range (Tables.ofHeader d).methodIds.size)
  rw [Option.or_none, Option.map_id] at hlook
  exact hlook

end Devirt

/-- In every well-formed file with unique ids, the three walkers visit the same records, the index
has the flags of each record, and it finds exactly the method ids by their class, name and
signature. -/
theorem walkers_agree (d : List UInt8) (recovered : CodeMap) (hd : WellFormed d)
    (hsize : d.length < 2 ^ 32) (hids : IdsInRange d) (hunique : UniqueIds d) :
    parseVisits d = indexVisits d ∧ buildVisits recovered d = indexVisits d ∧
      (∀ m a, (Devirt.dexMethodIndex d).acc m = some a ↔
        ∃ v ∈ indexVisits d, v.methodIdx = m ∧ v.access = a) ∧
      ∀ cls name sig i, (Devirt.dexMethodIndex d).mid (cls, name, sig) = some i ↔
        i < (Tables.ofHeader d).methodIds.size ∧ ((Tables.ofHeader d).methodIdAt i).cls = cls ∧
          ((Tables.ofHeader d).methodIdAt i).name = name ∧
          ((Tables.ofHeader d).methodIdAt i).proto.signature = sig := by
  have hparse := parseVisits_eq hd.dataApart hsize
  have hindex := indexVisits_eq hd.dataApart hsize
  have hbuild := buildVisits_eq hd.dataApart hsize recovered
  refine ⟨hparse.trans hindex.symm, hbuild.trans hindex.symm, fun m a => ?_,
    fun cls name sig i => ?_⟩
  · have hnodup : ((indexVisits d).map MethodVisit.methodIdx).Nodup := hindex ▸ hunique.records
    rw [Devirt.dexMethodIndex_acc hd.size, Option.map_eq_some_iff]
    constructor
    · rintro ⟨v, hlast, haccess⟩
      obtain ⟨hv, hidx⟩ := WriteLog.mem_of_last hlast
      exact ⟨v, hv, hidx, haccess⟩
    · rintro ⟨v, hv, hidx, haccess⟩
      exact ⟨v, (WriteLog.last_eq_some_iff hnodup).mpr ⟨hv, hidx⟩, haccess⟩
  · have hnodup : ((List.range (Tables.ofHeader d).methodIds.size).map
        (Devirt.methodKey (Tables.ofHeader d))).Nodup := by
      refine List.Nodup.map_on (fun i hi j hj heq => ?_) List.nodup_range
      exact methodKey_inj hd hsize hids hunique (List.mem_range.mp hi) (List.mem_range.mp hj) heq
    rw [Devirt.dexMethodIndex_mid hd.size, WriteLog.last_eq_some_iff hnodup, List.mem_range]
    refine and_congr_right fun hi => ?_
    rw [methodKey_eq hd hsize hids hi, Prod.mk.injEq, Prod.mk.injEq]

theorem idsInRange_tinyDex : IdsInRange tinyDex := by
  have htype : (Tables.ofHeader tinyDex).typeAt 0 = 0x4c :: (ascii "A" ++ [0x3b]) := by
    decide +kernel
  have hsize : (Tables.ofHeader tinyDex).typeIds.size = 1 := by decide +kernel
  constructor
  · decide +kernel
  · intro k hk
    obtain rfl : k = 0 := by omega
    rw [htype]
    exact .object (by decide)
  · decide +kernel
  · intro k hk poff hpoff hne
    have hzero : ∀ k < (Tables.ofHeader tinyDex).protoIds.size,
        rd32 tinyDex ((Tables.ofHeader tinyDex).protoIds.off + k * 12 + 8) = 0 := by decide +kernel
    exact absurd (hpoff.symm.trans (hzero k hk)) hne
  · intro i hi cls proto name hentry
    have hall : ∀ i < (Tables.ofHeader tinyDex).methodIds.size, (Tables.ofHeader tinyDex).idEntry
        ((Tables.ofHeader tinyDex).methodIds.off + i * 8) = (0, 0, 2) := by decide +kernel
    obtain ⟨rfl, rfl, rfl⟩ := Prod.mk.injEq .. ▸ hentry.symm.trans (hall i hi)
    decide +kernel

theorem walkers_agree_tinyDex :
    parseVisits tinyDex = indexVisits tinyDex ∧
      (Devirt.dexMethodIndex tinyDex).mid (ascii "LA;", ascii "f", ascii "()LA;") = some 0 := by
  have hunique : UniqueIds tinyDex := by
    have hsize : (Tables.ofHeader tinyDex).methodIds.size = 1 := by decide +kernel
    exact ⟨fun i hi j hj _ => by omega, by decide +kernel⟩
  have hall := walkers_agree tinyDex .empty wellFormed_tinyDex (by decide +kernel)
    idsInRange_tinyDex hunique
  refine ⟨hall.1, (hall.2.2.2 _ _ _ _).mpr ?_⟩
  decide +kernel

end Vardoger.Dex
