import Vardoger.Engine.Calls
import Vardoger.Engine.Strings

/-!
# The thread table along a run

The ids of the table stay distinct, a thread keeps its context and its result while others run, and
a thread that waits for another one to finish waits for one that is there and has not finished.
Calls keep all of this by their primitive updates; the end of a slice is taken apart piece by
piece, down to the loop that wakes the joiners of a finished thread.
-/

namespace Vardoger

open Stateful

namespace Scheduler

variable {s s' : Scheduler} {t t' : Thread} {tid : ℕ}

/-! ## What calls keep -/

/-- What no call changes of a thread. -/
structure Kept (t t' : Thread) : Prop where
  tid : t'.tid = t.tid
  ctx : t'.ctx = t.ctx
  retval : t'.retval = t.retval
  finished : t'.state = .finished ↔ t.state = .finished

theorem Kept.refl (t : Thread) : Kept t t := ⟨rfl, rfl, rfl, Iff.rfl⟩

theorem Kept.trans {t'' : Thread} (h : Kept t t') (h' : Kept t' t'') : Kept t t'' where
  tid := h'.tid.trans h.tid
  ctx := h'.ctx.trans h.ctx
  retval := h'.retval.trans h.retval
  finished := h'.finished.trans h.finished

/-- The table has the thread, and it is not finished. -/
def Alive (s : Scheduler) (tid : ℕ) : Prop := ∃ t ∈ s.threads, t.tid = tid ∧ t.state ≠ .finished

/-- The ids of the threads are distinct, and the next one is free. -/
structure Distinct (s : Scheduler) : Prop where
  nodup : (s.threads.map Thread.tid).Nodup
  lt_nextTid : ∀ t ∈ s.threads, t.tid < s.nextTid

theorem Distinct.eq_of_tid_eq (h : s.Distinct) (ht : t ∈ s.threads) (ht' : t' ∈ s.threads)
    (htid : t.tid = t'.tid) : t = t' :=
  List.inj_on_of_nodup_map h.nodup ht ht' htid

theorem Distinct.findThread_eq (h : s.Distinct) (ht : t ∈ s.threads) :
    s.findThread t.tid = some t := by
  cases hfind : s.findThread t.tid with
  | none =>
    have hnone := List.find?_eq_none.mp hfind t ht
    simp at hnone
  | some u =>
    obtain ⟨hu, htid⟩ := findThread_mem hfind
    rw [h.eq_of_tid_eq hu ht htid]

/-- What the calls of a slice do to the thread table. -/
structure Evolves (s s' : Scheduler) : Prop where
  cur : s'.cur = s.cur
  nextTid : s.nextTid ≤ s'.nextTid
  kept : ∀ t ∈ s.threads, ∃ t' ∈ s'.threads, Kept t t'
  origin : ∀ t' ∈ s'.threads,
    (∃ t ∈ s.threads, Kept t t') ∨ (s.nextTid ≤ t'.tid ∧ t'.state ≠ .finished)
  joins : ∀ t' ∈ s'.threads, ∀ tid, waitsFor .join tid t' →
    (∃ t ∈ s.threads, waitsFor .join tid t) ∨ s'.Alive tid
  distinct : s'.Distinct

theorem Evolves.alive (h : Evolves s s') (halive : s.Alive tid) : s'.Alive tid := by
  obtain ⟨t, ht, htid, hstate⟩ := halive
  obtain ⟨t', ht', hkept⟩ := h.kept t ht
  exact ⟨t', ht', hkept.tid.trans htid, fun hfinished => hstate (hkept.finished.mp hfinished)⟩

theorem Distinct.evolves_same (h : s.Distinct) (hthreads : s'.threads = s.threads)
    (hcur : s'.cur = s.cur) (hnextTid : s.nextTid ≤ s'.nextTid) : Evolves s s' := by
  refine ⟨hcur, hnextTid, ?_, ?_, ?_, ?_, ?_⟩ <;> rw [hthreads]
  · exact fun t ht => ⟨t, ht, .refl t⟩
  · exact fun t ht => .inl ⟨t, ht, .refl t⟩
  · exact fun t ht _ hwaits => .inl ⟨t, ht, hwaits⟩
  · exact h.nodup
  · exact fun t ht => (h.lt_nextTid t ht).trans_le hnextTid

theorem Evolves.trans {s'' : Scheduler} (h : Evolves s s') (h' : Evolves s' s'') :
    Evolves s s'' where
  cur := h'.cur.trans h.cur
  nextTid := h.nextTid.trans h'.nextTid
  kept t ht := by
    obtain ⟨t', ht', hkept⟩ := h.kept t ht
    obtain ⟨t'', ht'', hkept'⟩ := h'.kept t' ht'
    exact ⟨t'', ht'', hkept.trans hkept'⟩
  origin t'' ht'' := by
    rcases h'.origin t'' ht'' with ⟨t', ht', hkept'⟩ | ⟨hnew, hstate⟩
    · rcases h.origin t' ht' with ⟨t, ht, hkept⟩ | ⟨hnew, hstate⟩
      · exact .inl ⟨t, ht, hkept.trans hkept'⟩
      · exact .inr ⟨by rw [hkept'.tid]; exact hnew, fun hf => hstate (hkept'.finished.mp hf)⟩
    · exact .inr ⟨h.nextTid.trans hnew, hstate⟩
  joins t'' ht'' tid hwaits := by
    rcases h'.joins t'' ht'' tid hwaits with ⟨t', ht', hwaits'⟩ | halive
    · rcases h.joins t' ht' tid hwaits' with hwaits | halive
      · exact .inl hwaits
      · exact .inr (h'.alive halive)
    · exact .inr halive
  distinct := h'.distinct

/-- A slice runs a thread of the table that is not finished. -/
structure InSlice (s : Scheduler) : Prop where
  distinct : s.Distinct
  current : s.Alive s.cur

theorem Evolves.inSlice (h : Evolves s s') (hs : s.InSlice) : s'.InSlice :=
  ⟨h.distinct, by rw [h.cur]; exact h.alive hs.current⟩

/-- Within a slice, the second state evolves from the first. -/
def EvolvesInSlice (s s' : Scheduler) : Prop := s.InSlice → Evolves s s'

instance : Std.Refl EvolvesInSlice := ⟨fun _ hs => hs.distinct.evolves_same rfl rfl le_rfl⟩

instance : IsTrans Scheduler EvolvesInSlice :=
  ⟨fun _ _ _ h h' hs => (h hs).trans (h' ((h hs).inSlice hs))⟩

/-- The entries correspond one by one. -/
theorem exists_of_forall₂ {R : Thread → Thread → Prop} {ts ts' : List Thread}
    (h : List.Forall₂ R ts ts') :
    (∀ t ∈ ts, ∃ t' ∈ ts', R t t') ∧ ∀ t' ∈ ts', ∃ t ∈ ts, R t t' := by
  induction h with
  | nil => simp
  | cons hR _ ih =>
    obtain ⟨ihl, ihr⟩ := ih
    refine ⟨?_, ?_⟩
    · rintro t (_ | ⟨_, ht⟩)
      · exact ⟨_, by simp, hR⟩
      · obtain ⟨t', ht', hRt⟩ := ihl t ht
        exact ⟨t', by simp [ht'], hRt⟩
    · rintro t' (_ | ⟨_, ht'⟩)
      · exact ⟨_, by simp, hR⟩
      · obtain ⟨t, ht, hRt⟩ := ihr t' ht'
        exact ⟨t, by simp [ht], hRt⟩

/-- A change of entries that keeps what is to be kept, and adds only joins of living threads. -/
theorem Distinct.evolves_of_forall₂ (h : s.Distinct) {threads : List Thread}
    (hthreads : List.Forall₂ (fun t t' => Kept t t' ∧
      ∀ tid, waitsFor .join tid t' → waitsFor .join tid t ∨ s.Alive tid) s.threads threads) :
    Evolves s { s with threads := threads } := by
  obtain ⟨hleft, hright⟩ := exists_of_forall₂ hthreads
  have halive {tid : ℕ} (halive : s.Alive tid) :
      ({ s with threads := threads } : Scheduler).Alive tid := by
    obtain ⟨t, ht, htid, hstate⟩ := halive
    obtain ⟨t', ht', hkept, -⟩ := hleft t ht
    exact ⟨t', ht', hkept.tid.trans htid, fun hf => hstate (hkept.finished.mp hf)⟩
  have htids : threads.map Thread.tid = s.threads.map Thread.tid := by
    rw [← List.forall₂_eq_eq_eq, List.forall₂_map_left_iff, List.forall₂_map_right_iff]
    exact (List.Forall₂.imp (fun _ _ hR => hR.1.tid) hthreads.flip)
  refine ⟨rfl, le_rfl, ?_, ?_, ?_, ?_⟩
  · intro t ht
    obtain ⟨t', ht', hkept, -⟩ := hleft t ht
    exact ⟨t', ht', hkept⟩
  · intro t' ht'
    obtain ⟨t, ht, hkept, -⟩ := hright t' ht'
    exact .inl ⟨t, ht, hkept⟩
  · intro t' ht' tid hwaits
    obtain ⟨t, ht, -, hjoins⟩ := hright t' ht'
    rcases hjoins tid hwaits with hwaits | hliving
    · exact .inl ⟨t, ht, hwaits⟩
    · exact .inr (halive hliving)
  · refine ⟨by rw [htids]; exact h.nodup, fun t' ht' => ?_⟩
    obtain ⟨t, ht, hkept, -⟩ := hright t' ht'
    rw [hkept.tid]
    exact h.lt_nextTid t ht

/-- A change of the running thread that keeps what is to be kept. -/
theorem InSlice.evolves_setCurrent (h : s.InSlice) {f : Thread → Thread}
    (hkept : ∀ t, t.state ≠ .finished → Kept t (f t))
    (hjoins : ∀ t tid, waitsFor .join tid (f t) → waitsFor .join tid t ∨ s.Alive tid) :
    Evolves s (s.setCurrent f) := by
  refine h.distinct.evolves_of_forall₂ ?_
  rw [List.forall₂_map_right_iff, List.forall₂_same]
  intro t ht
  by_cases htid : t.tid = s.cur
  · rw [if_pos htid]
    obtain ⟨u, hu, hutid, hstate⟩ := h.current
    obtain rfl := h.distinct.eq_of_tid_eq ht hu (htid.trans hutid.symm)
    exact ⟨hkept t hstate, hjoins t⟩
  · rw [if_neg htid]
    exact ⟨.refl t, fun _ => .inl⟩

theorem kept_release (h : t.state ≠ .finished) : Kept t (release t) :=
  ⟨rfl, rfl, rfl, by simp [release, h]⟩

theorem not_waitsFor_of_state {why : BlockReason} (h : t.state ≠ .blocked) :
    waitsFor why tid t = false := by
  simp [waitsFor, h]

theorem blocked_of_waitsFor {why : BlockReason} (h : waitsFor why tid t) : t.state = .blocked := by
  simp only [waitsFor, Bool.and_eq_true, decide_eq_true_eq] at h
  exact h.1.1

theorem Distinct.evolves_released (h : s.Distinct) {why : BlockReason} {obj : ℕ}
    {threads : List Thread} (hreleased : Released why obj s.threads threads) :
    Evolves s { s with threads := threads } := by
  refine h.evolves_of_forall₂ (hreleased.imp ?_)
  rintro t t' (rfl | ⟨hwaits, rfl⟩)
  · exact ⟨.refl _, fun _ => .inl⟩
  · have hblocked := blocked_of_waitsFor hwaits
    refine ⟨kept_release (by simp [hblocked]), fun tid hwaits => ?_⟩
    rw [not_waitsFor_of_state (by simp [release])] at hwaits
    cases hwaits

theorem mem_putThread (u : Thread) (ts : List Thread) (h : ∀ t ∈ ts, t.tid < u.tid) :
    putThread u ts = ts ++ [u] := by
  induction ts with
  | nil => rfl
  | cons t ts ih =>
    have hlt : t.tid < u.tid := h t (by simp)
    rw [putThread, if_neg (by omega), if_neg (by omega), ih fun t ht => h t (by simp [ht])]
    rfl

/-- A new thread goes to the end of the table. -/
theorem Distinct.threads_addThread (h : s.Distinct) (m : Memory) (ht : t.tid = s.nextTid) :
    (s.addThread m t).threads = s.threads ++ [t] :=
  mem_putThread t s.threads fun u hu => by rw [ht]; exact h.lt_nextTid u hu

theorem Distinct.evolves_addThread (h : s.Distinct) (m : Memory) (ht : t.tid = s.nextTid)
    (hstate : t.state = .runnable) : Evolves s (s.addThread m t) := by
  have hthreads := h.threads_addThread m ht
  refine ⟨rfl, Nat.le_succ _, ?_, ?_, ?_, ?_, ?_⟩
  · intro u hu
    exact ⟨u, by simp [hthreads, hu], .refl u⟩
  · intro u hu
    rw [hthreads, List.mem_append, List.mem_singleton] at hu
    rcases hu with hu | rfl
    · exact .inl ⟨u, hu, .refl u⟩
    · exact .inr ⟨ht.ge, by simp [hstate]⟩
  · intro u hu tid hwaits
    rw [hthreads, List.mem_append, List.mem_singleton] at hu
    rcases hu with hu | rfl
    · exact .inl ⟨u, hu, hwaits⟩
    · rw [not_waitsFor_of_state (by simp [hstate])] at hwaits
      cases hwaits
  · rw [hthreads, List.map_append, List.nodup_append]
    refine ⟨h.nodup, by simp, ?_⟩
    rintro _ htid _ hu rfl
    obtain ⟨u, hu', rfl⟩ := List.mem_map.mp htid
    have hlt := h.lt_nextTid u hu'
    simp only [List.map_cons, List.map_nil, List.mem_singleton] at hu
    omega
  · intro u hu
    change u.tid < s.nextTid + 1
    rw [hthreads, List.mem_append, List.mem_singleton] at hu
    rcases hu with hu | rfl
    · exact Nat.lt_succ_of_lt (h.lt_nextTid u hu)
    · omega

/-- The table evolves along all primitive updates of the calls. -/
theorem evolvesInSlice_primitive : Primitive EvolvesInSlice where
  mem _ _ h := h.distinct.evolves_same rfl rfl le_rfl
  halt _ _ _ h := h.distinct.evolves_same rfl rfl le_rfl
  resume s h := by
    refine h.evolves_setCurrent (fun t hstate => ⟨rfl, rfl, rfl, by simp [hstate]⟩) ?_
    intro t tid hwaits
    rw [not_waitsFor_of_state (by simp)] at hwaits
    cases hwaits
  takeTid s _ h := h.distinct.evolves_same rfl rfl (Nat.le_succ _)
  addThread s m t ht hstate h := h.distinct.evolves_addThread m ht hstate
  block s why obj f hf htarget h := by
    refine h.evolves_setCurrent (fun t hstate => ?_) fun t tid hwaits => ?_
    · have hsame := hf { t with state := .blocked, block := why, blockObj := obj }
      rw [hsame]
      exact ⟨rfl, rfl, rfl, by simp [hstate]⟩
    · rw [hf { t with state := .blocked, block := why, blockObj := obj }] at hwaits
      simp only [waitsFor, decide_true, Bool.true_and, Bool.and_eq_true,
        decide_eq_true_eq] at hwaits
      obtain ⟨hwhy, rfl⟩ := hwaits
      exact .inr (htarget hwhy)
  wake s why obj threads _ hreleased h := h.distinct.evolves_released hreleased

/-- The thread table evolves along a call, returned or thrown. -/
theorem InSlice.evolves_call (h : s.InSlice) (cfg : SchedConfig) (op : SchedOp) :
    Evolves s (final (op.run cfg s)) :=
  op.run_moves evolvesInSlice_primitive cfg
    (fun _ _ _ _ h => h.distinct.evolves_same rfl rfl le_rfl) s h

end Scheduler

end Vardoger
