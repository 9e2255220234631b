import Vardoger.Engine.Memory

/-!
# What an allocation does, step by step

The allocators are built from three kinds of update: mapping and recording a range, an engine
access that leaves the page protections alone, and moving a cursor other than the heap's. A relation
that these three respect is respected by every allocator, whether it returns or throws.
-/

namespace Vardoger.Memory

open Stateful Words

/-- A relation between states that new mappings and cursors other than the heap's respect. -/
structure Mapping (R : Memory → Memory → Prop) : Prop where
  mapRegion : ∀ r, Moves R (mapRegion r)
  moveCursor : ∀ f : Memory → Memory,
    (∀ m, (f m).engine = m.engine ∧ (f m).regions = m.regions ∧ (f m).heapNext = m.heapNext ∧
      (f m).heapEnd = m.heapEnd ∧ (f m).tight = m.tight) → Moves R (modify f : MemM Unit)

/-- A relation between states that every primitive update of an allocation respects. -/
structure Primitive (R : Memory → Memory → Prop) : Prop extends Mapping R where
  onEngine : ∀ f : Engine → Except Failure Engine,
    (∀ e e', f e = .ok e' → e'.prot = e.prot) → Moves R (onEngine f)

variable {R : Memory → Memory → Prop} [Std.Refl R] [IsTrans Memory R]

theorem mapFixed_moves (hR : Mapping R) (addr len prot : ℕ) (kind : Kind) (label : String) :
    Moves R (mapFixed addr len prot kind label) := by
  refine moves_bind moves_get fun m => ?_
  split
  · exact moves_throw _
  · exact moves_bind (hR.mapRegion _) fun _ => moves_pure _

theorem mmapAlloc_moves (hR : Mapping R) (len prot : ℕ) (label : String) :
    Moves R (mmapAlloc len prot label) := by
  refine moves_check fun _ => moves_bind moves_get fun m => ?_
  refine moves_bind (hR.mapRegion _) fun _ => ?_
  exact moves_bind (hR.moveCursor _ fun _ => ⟨rfl, rfl, rfl, rfl, rfl⟩) fun _ => moves_pure _

theorem bigAlloc_moves (hR : Mapping R) (len prot : ℕ) (label : String) :
    Moves R (bigAlloc len prot label) := by
  refine moves_bind moves_get fun m => moves_ite (mmapAlloc_moves hR _ _ _) ?_
  refine moves_bind (hR.mapRegion _) fun _ => ?_
  exact moves_bind (hR.moveCursor _ fun _ => ⟨rfl, rfl, rfl, rfl, rfl⟩) fun _ => moves_pure _

theorem mapLib_moves (hR : Mapping R) (total prot : ℕ) (label : String) :
    Moves R (mapLib total prot label) := by
  refine moves_bind moves_get fun m => moves_bind (hR.mapRegion _) fun _ => ?_
  exact moves_bind (hR.moveCursor _ fun _ => ⟨rfl, rfl, rfl, rfl, rfl⟩) fun _ => moves_pure _

theorem setupStack_moves (hR : Primitive R) (len : ℕ) : Moves R (setupStack len) := by
  refine moves_bind (hR.mapRegion _) fun _ => moves_bind (hR.onEngine _ ?_) fun _ => moves_pure _
  exact fun e e' h => Engine.prot_writeReg h

theorem setupTls_moves (hR : Primitive R) : Moves R setupTls := by
  have hwrite (addr : ℕ) (bytes : List UInt8) : Moves R (onEngine (·.write addr bytes)) :=
    hR.onEngine _ fun e e' h => Engine.prot_write h
  refine moves_bind (hR.mapRegion _) fun _ => moves_bind (hwrite _ _) fun _ => ?_
  refine moves_bind (hwrite _ _) fun _ => moves_bind (hR.onEngine _ ?_) fun _ => moves_pure _
  intro e e' h
  rw [← Except.ok.inj h]
  rfl

theorem javaInit_moves (hR : Mapping R) : Moves R javaInit := by
  refine moves_bind moves_get fun m => moves_ite ?_ (moves_pure _)
  refine moves_bind (hR.mapRegion _) fun _ => ?_
  exact hR.moveCursor _ fun _ => ⟨rfl, rfl, rfl, rfl, rfl⟩

theorem javaAlloc_moves (hR : Mapping R) (len align : ℕ) : Moves R (javaAlloc len align) := by
  refine moves_bind (javaInit_moves hR) fun _ => moves_bind moves_get fun m => ?_
  refine moves_check fun _ => ?_
  exact moves_bind (hR.moveCursor _ fun _ => ⟨rfl, rfl, rfl, rfl, rfl⟩) fun _ => moves_pure _

/-- Mapping a range unmaps nothing. -/
theorem mapped_addRegion {m : Memory} {r : Region} (hok : m.engine.Mappable r.base r.size) (a : ℕ) :
    (m.addRegion r).engine.Mapped a ↔ (r.base ≤ a ∧ a < r.base + r.size) ∨ m.engine.Mapped a :=
  Engine.mapped_mapPages hok.2.1 hok.2.2.1

/-- The calls that neither move the heap cursor nor change the protection of mapped pages. -/
def Call.plain : Call → Bool
  | .heapAlloc _ _ => false
  | .protect _ _ _ => false
  | _ => true

/-- A plain call moves the state as its primitive updates do. -/
theorem Call.run_moves (hR : Primitive R) {call : Call} (hplain : call.plain) :
    Moves R call.run := by
  cases call with
  | mapFixed addr len prot kind label => exact mapFixed_moves hR.toMapping addr len prot kind label
  | mmapAlloc len prot label => exact mmapAlloc_moves hR.toMapping len prot label
  | bigAlloc len prot label => exact bigAlloc_moves hR.toMapping len prot label
  | mapLib total prot label => exact mapLib_moves hR.toMapping total prot label
  | setupStack len => exact setupStack_moves hR len
  | setupTls => exact setupTls_moves hR
  | heapAlloc len align => cases hplain
  | javaAlloc len align => exact javaAlloc_moves hR.toMapping len align
  | protect addr len prot => cases hplain

/-- `mmap_alloc` rejects absurd lengths, then maps and records the range that the search ended with
if that is free. -/
theorem mmapAlloc_apply (len prot : ℕ) (label : String) (m : Memory) {base size : ℕ}
    (hsize : pageAlignUp (if len = 0 then 1 else len) = size)
    (hbase : skipClashes m.regions size 4096 m.mmapNext = base) :
    mmapAlloc len prot label m =
      if len > 2 ^ 32 then
        .error (.runtime "mmap_alloc: absurd len (bogus/mis-resolved call)") m
      else if m.engine.Mappable base size then
        .ok base { m.addRegion ⟨base, size, prot, .mmap, label⟩ with mmapNext := add64 base size }
      else .error (.engine "uc_mem_map") m := by
  by_cases hlen : len > 2 ^ 32
  · simp only [mmapAlloc, if_pos hlen]
    rfl
  · simp only [mmapAlloc, if_neg hlen, hsize]
    have hmap := mapRegion_apply ⟨base, size, prot, .mmap, label⟩ m
    by_cases hok : m.engine.Mappable base size
    · rw [if_pos hok] at hmap
      rw [if_pos hok, get_bind, hbase, bind_ok hmap]
      rfl
    · rw [if_neg hok] at hmap
      rw [if_neg hok, get_bind, hbase, bind_error hmap]

/-- `mmap_alloc` maps and records the gap it found if that is free, or throws and keeps all. -/
theorem mmapAlloc_cases (len prot : ℕ) (label : String) (m : Memory) :
    ∃ base size, size = pageAlignUp (if len = 0 then 1 else len) ∧
      base = skipClashes m.regions size 4096 m.mmapNext ∧
      ((¬(len ≤ 2 ^ 32 ∧ m.engine.Mappable base size) ∧
          ∃ err, mmapAlloc len prot label m = .error err m) ∨
        (len ≤ 2 ^ 32 ∧ m.engine.Mappable base size ∧
          mmapAlloc len prot label m = .ok base { m.addRegion ⟨base, size, prot, .mmap, label⟩ with
            mmapNext := add64 base size })) := by
  refine ⟨_, _, rfl, rfl, ?_⟩
  rw [mmapAlloc_apply len prot label m rfl rfl]
  generalize pageAlignUp (if len = 0 then 1 else len) = size
  generalize skipClashes m.regions size 4096 m.mmapNext = base
  by_cases hlen : len > 2 ^ 32
  · rw [if_pos hlen]
    exact .inl ⟨fun h => absurd h.1 (by omega), _, rfl⟩
  · rw [if_neg hlen]
    by_cases hok : m.engine.Mappable base size
    · rw [if_pos hok]
      exact .inr ⟨not_lt.mp hlen, hok, rfl⟩
    · rw [if_neg hok]
      exact .inl ⟨fun h => hok h.2, _, rfl⟩

/-- `big_alloc` falls back to `mmap_alloc`, or maps and records a range at its own cursor. -/
theorem bigAlloc_apply (len prot : ℕ) (label : String) (m : Memory) {size : ℕ}
    (hsize : pageAlignUp (if len = 0 then 1 else len) = size) :
    bigAlloc len prot label m =
      if add64 m.bigNext size > kMmapBase then mmapAlloc len prot label m
      else if m.engine.Mappable m.bigNext size then
        .ok m.bigNext { m.addRegion ⟨m.bigNext, size, prot, .mmap, label⟩ with
          bigNext := add64 m.bigNext size }
      else .error (.engine "uc_mem_map") m := by
  rw [bigAlloc, hsize, get_bind]
  by_cases hfull : add64 m.bigNext size > kMmapBase
  · rw [if_pos hfull, if_pos hfull]
  · have hmap := mapRegion_apply ⟨m.bigNext, size, prot, .mmap, label⟩ m
    rw [if_neg hfull, if_neg hfull]
    by_cases hok : m.engine.Mappable m.bigNext size
    · rw [if_pos hok] at hmap
      rw [if_pos hok, bind_ok hmap]
      rfl
    · rw [if_neg hok] at hmap
      rw [if_neg hok, bind_error hmap]

end Vardoger.Memory
