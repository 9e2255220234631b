import Vardoger.Base.Runs
import Vardoger.Engine.Threads

/-!
# The beginning and the end of a slice

The pieces of the loop of `run` around a slice, each as the state it leads to: a runnable thread is
picked and its context loaded; a thread that blocked, yielded or was preempted is saved; a
thread that is done is retired and its joiners are woken, one after the other, each with the
result delivered first. An out pointer that cannot be written ends the loop and the run.
-/

namespace Vardoger

open Stateful Runs

namespace Scheduler

variable {cfg : SchedConfig} {s s' : Scheduler} {t : Thread} {tid rv : ℕ}

/-! ## Picking a thread -/

theorem roundRobin_mem {threads : List Thread} {rr rr' : ℕ}
    (h : roundRobin threads rr = some (t, rr')) : t ∈ threads ∧ t.state = .runnable := by
  obtain ⟨k, -, hk⟩ := List.exists_of_findSome?_eq_some h
  split at hk
  · split at hk
    · obtain ⟨rfl, -⟩ := Prod.mk.inj (Option.some.inj hk)
      exact ⟨List.mem_of_getElem? ‹_›, ‹_›⟩
    · cases hk
  · cases hk

theorem pickNext_cases (s : Scheduler) :
    (∃ t rr, t ∈ s.threads ∧ t.state = .runnable ∧
        s.pickNext = (some t, { s with prefer := 0, rr := rr })) ∨
      s.pickNext = (none, { s with prefer := 0 }) := by
  unfold pickNext
  dsimp only
  split
  · rename_i t hpreferred
    split at hpreferred
    · cases hpreferred
    · obtain ⟨hfind, hstate⟩ := Option.filter_eq_some_iff.mp hpreferred
      exact .inl ⟨t, s.rr, (findThread_mem hfind).1, of_decide_eq_true hstate, rfl⟩
  · split
    · rename_i t rr hnext
      obtain ⟨hmem, hstate⟩ := roundRobin_mem hnext
      exact .inl ⟨t, rr, hmem, hstate, rfl⟩
    · exact .inr rfl

/-- The state in which a slice of the thread starts. -/
def started (cfg : SchedConfig) (s : Scheduler) (t : Thread) (rr : ℕ) : Scheduler :=
  { s with
    prefer := 0
    rr := rr
    cur := t.tid
    mem := { s.mem with
      engine := (s.mem.engine.loadCtx cfg.noVregs t.ctx).writeUcReg .arm64Pc t.ctx.pc }
    stop := .none
    stopRequested := false }

/-- A slice starts with a runnable thread of the table, if there is one. -/
theorem beginSlice_cases (cfg : SchedConfig) (s : Scheduler) :
    (∃ t rr, t ∈ s.threads ∧ t.state = .runnable ∧
        beginSlice cfg s = .ok () (s.started cfg t rr)) ∨
      ∃ err, beginSlice cfg s = .error err { s with prefer := 0 } := by
  rcases pickNext_cases s with ⟨t, rr, hmem, hstate, hpick⟩ | hpick
  · left
    refine ⟨t, rr, hmem, hstate, ?_⟩
    have hget :
        (modifyGet pickNext : SchedM _) s = .ok (some t) { s with prefer := 0, rr := rr } := by
      change EStateM.Result.ok s.pickNext.1 s.pickNext.2 = _
      rw [hpick]
    rw [beginSlice, bind_ok hget]
    rfl
  · right
    have hget : (modifyGet pickNext : SchedM _) s = .ok none { s with prefer := 0 } := by
      change EStateM.Result.ok s.pickNext.1 s.pickNext.2 = _
      rw [hpick]
    rw [beginSlice, bind_ok hget]
    exact ⟨_, rfl⟩

/-! ## Waking joiners -/

/-- The threads that wait for a thread to finish. -/
def joiners (s : Scheduler) (tid : ℕ) : List Thread := s.threads.filter (waitsFor .join tid)

/-- Where threads want the result. -/
def outPointers (ts : List Thread) : List ℕ := (ts.map Thread.joinOut).filter (· ≠ 0)

/-- Every out pointer of a joiner can be written. -/
def Deliverable (s : Scheduler) (tid : ℕ) : Prop :=
  ∀ p ∈ outPointers (s.joiners tid), s.mem.engine.Accessible p 8

/-- A result is written to some out pointers, one after the other. -/
def delivered (rv : ℕ) (outs : List ℕ) (e : Engine) : Engine :=
  outs.foldl (fun e p => e.setBytes p (LittleEndian.toBytes 8 rv)) e

/-- The joiners of a thread are released and have its result. -/
def woken (s : Scheduler) (tid rv : ℕ) : Scheduler :=
  { s with
    threads := s.threads.map fun t => if waitsFor .join tid t then release t else t
    mem := { s.mem with engine := delivered rv (outPointers (s.joiners tid)) s.mem.engine } }

/-- One iteration of the loop in `wake_joiners`. -/
def wakeJoiner (tid rv : ℕ) (t : Thread) : SchedM Unit := do
  if waitsFor .join tid t then
    if t.joinOut ≠ 0 then
      writeT 8 t.joinOut rv
    updateThread t.tid release

/-- The state after the threads of a list were released. -/
def releaseAll (s : Scheduler) (ts : List Thread) (rv : ℕ) : Scheduler :=
  { s with
    threads := s.threads.map fun t => if t.tid ∈ ts.map Thread.tid then release t else t
    mem := { s.mem with engine := delivered rv (outPointers ts) s.mem.engine } }

theorem writeT_eq (v : ℕ) {p : ℕ} (h : s.mem.engine.Accessible p 8) :
    writeT 8 p v s = .ok () { s with
      mem := { s.mem with engine := s.mem.engine.setBytes p (LittleEndian.toBytes 8 v) } } := by
  have hwrite : s.mem.engine.write p (LittleEndian.toBytes 8 v) = .ok _ :=
    Engine.write_eq (by rw [LittleEndian.length_toBytes]; exact h)
  simp only [writeT, onMem, Memory.onEngine, hwrite]

theorem writeT_error (v : ℕ) {p : ℕ} (h : ¬s.mem.engine.Accessible p 8) :
    writeT 8 p v s = .error (.engine "uc_mem_write") s := by
  have hwrite : s.mem.engine.write p (LittleEndian.toBytes 8 v) = .error (.engine "uc_mem_write") :=
    if_neg (by rw [LittleEndian.length_toBytes]; exact h)
  simp only [writeT, onMem, Memory.onEngine, hwrite]

theorem releaseAll_nil (s : Scheduler) (rv : ℕ) : s.releaseAll [] rv = s := by
  simp [releaseAll, outPointers, delivered]

theorem releaseAll_cons (s : Scheduler) (t : Thread) (ts : List Thread) (rv : ℕ) :
    s.releaseAll (t :: ts) rv = (s.releaseAll [t] rv).releaseAll ts rv := by
  have houts : outPointers (t :: ts) = outPointers [t] ++ outPointers ts := by
    simp [outPointers, List.filter_cons]
    split <;> rfl
  simp only [releaseAll, houts, delivered, List.foldl_append, List.map_map]
  congr 1
  refine List.map_congr_left fun u _ => ?_
  -- Releasing keeps the id, and releasing twice is releasing once.
  by_cases hhead : u.tid = t.tid
  · by_cases htail : t.tid ∈ ts.map Thread.tid <;> simp [hhead, htail, release]
  · simp [hhead]

theorem wakeJoiner_skip (h : waitsFor .join tid t = false) :
    wakeJoiner tid rv t s = .ok () s := by
  rw [wakeJoiner, h]
  rfl

theorem wakeJoiner_ok (h : waitsFor .join tid t = true)
    (hout : t.joinOut ≠ 0 → s.mem.engine.Accessible t.joinOut 8) :
    wakeJoiner tid rv t s = .ok () (s.releaseAll [t] rv) := by
  simp only [wakeJoiner, h, if_true, releaseAll, outPointers, List.map_cons, List.map_nil,
    List.mem_singleton]
  by_cases hzero : t.joinOut = 0
  · rw [if_neg (by simp [hzero]), List.filter_cons_of_neg (by simp [hzero])]
    rfl
  · rw [if_pos hzero, bind_ok (writeT_eq rv (hout hzero)),
      List.filter_cons_of_pos (by simp [hzero])]
    rfl

theorem wakeJoiner_error (h : waitsFor .join tid t = true) (hzero : t.joinOut ≠ 0)
    (hout : ¬s.mem.engine.Accessible t.joinOut 8) :
    wakeJoiner tid rv t s = .error (.engine "uc_mem_write") s := by
  rw [wakeJoiner, if_pos h, if_pos hzero, bind_error (writeT_error rv hout)]

theorem accessible_delivered {outs : List ℕ} {e : Engine} {p n : ℕ} :
    (delivered rv outs e).Accessible p n ↔ e.Accessible p n := by
  induction outs generalizing e with
  | nil => exact Iff.rfl
  | cons q outs ih => exact ih.trans Engine.accessible_setBytes

/-- Where every out pointer can be written, the loop releases all joiners. -/
theorem forM_wakeJoiner_ok {ts : List Thread}
    (h : ∀ t ∈ ts, waitsFor .join tid t → t.joinOut ≠ 0 →
      s.mem.engine.Accessible t.joinOut 8) :
    ts.forM (wakeJoiner tid rv) s =
      .ok () (s.releaseAll (ts.filter (waitsFor .join tid)) rv) := by
  induction ts generalizing s with
  | nil =>
    rw [List.filter_nil, releaseAll_nil]
    rfl
  | cons t ts ih =>
    rw [forM_cons_apply]
    cases hwaits : waitsFor .join tid t with
    | false =>
      rw [bind_ok (wakeJoiner_skip hwaits), List.filter_cons_of_neg (by simp [hwaits])]
      exact ih fun u hu => h u (by simp [hu])
    | true =>
      rw [bind_ok (wakeJoiner_ok hwaits (h t (by simp) hwaits)),
        List.filter_cons_of_pos hwaits, releaseAll_cons s t (ts.filter _)]
      refine ih (s := s.releaseAll [t] rv) fun u hu hu' hzero => accessible_delivered.mpr ?_
      exact h u (by simp [hu]) hu' hzero

/-- The loop stops at the first out pointer that cannot be written, and its thread stays blocked. -/
theorem forM_wakeJoiner_error (rv : ℕ) {ts : List Thread} (hnodup : (ts.map Thread.tid).Nodup)
    (h : ∃ t ∈ ts, waitsFor .join tid t ∧ t.joinOut ≠ 0 ∧
      ¬s.mem.engine.Accessible t.joinOut 8) :
    ∃ err s', ts.forM (wakeJoiner tid rv) s = .error err s' ∧
      ∃ t ∈ ts, waitsFor .join tid t ∧ ∀ u ∈ s.threads, u.tid = t.tid → u ∈ s'.threads := by
  induction ts generalizing s with
  | nil => simp at h
  | cons t ts ih =>
    obtain ⟨hfresh, hnodup'⟩ := List.nodup_cons.mp hnodup
    rw [forM_cons_apply]
    by_cases hhere : waitsFor .join tid t ∧ t.joinOut ≠ 0 ∧ ¬s.mem.engine.Accessible t.joinOut 8
    · obtain ⟨hwaits, hzero, hout⟩ := hhere
      rw [bind_error (wakeJoiner_error hwaits hzero hout)]
      exact ⟨_, s, rfl, t, by simp, hwaits, fun u hu _ => hu⟩
    · have hrest : ∃ t ∈ ts, waitsFor .join tid t ∧ t.joinOut ≠ 0 ∧
          ¬s.mem.engine.Accessible t.joinOut 8 := by
        obtain ⟨u, hu, hbad⟩ := h
        rcases List.mem_cons.mp hu with rfl | hu
        · exact absurd hbad hhere
        · exact ⟨u, hu, hbad⟩
      cases hwaits : waitsFor .join tid t with
      | false =>
        rw [bind_ok (wakeJoiner_skip hwaits)]
        obtain ⟨err, s', hrun, u, hu, hblocked⟩ := ih hnodup' hrest
        exact ⟨err, s', hrun, u, by simp [hu], hblocked⟩
      | true =>
        have hout : t.joinOut ≠ 0 → s.mem.engine.Accessible t.joinOut 8 := fun hzero => by
          by_contra hbad
          exact hhere ⟨hwaits, hzero, hbad⟩
        rw [bind_ok (wakeJoiner_ok hwaits hout)]
        obtain ⟨err, s', hrun, u, hu, hwaits', hblocked⟩ := ih (s := s.releaseAll [t] rv) hnodup'
          (by simpa only [releaseAll, accessible_delivered] using hrest)
        refine ⟨err, s', hrun, u, by simp [hu], hwaits', fun v hv hvtid => hblocked v ?_ hvtid⟩
        -- The thread released before has another id.
        have hne : v.tid ≠ t.tid := fun heq =>
          hfresh (List.mem_map.mpr ⟨u, hu, by rw [← hvtid, heq]⟩)
        exact List.mem_map.mpr ⟨v, hv, by simp [hne]⟩

theorem Distinct.releaseAll_joiners (h : s.Distinct) (tid rv : ℕ) :
    s.releaseAll (s.joiners tid) rv = s.woken tid rv := by
  simp only [releaseAll, woken]
  congr 1
  refine List.map_congr_left fun t ht => ?_
  have hiff : t.tid ∈ (s.joiners tid).map Thread.tid ↔ waitsFor .join tid t := by
    constructor
    · intro hmem
      obtain ⟨u, hu, htid⟩ := List.mem_map.mp hmem
      obtain ⟨hmem, hwaits⟩ := List.mem_filter.mp hu
      rwa [h.eq_of_tid_eq ht hmem htid.symm]
    · intro hwaits
      exact List.mem_map.mpr ⟨t, List.mem_filter.mpr ⟨ht, hwaits⟩, rfl⟩
  simp only [hiff]

theorem deliverable_iff : s.Deliverable tid ↔
    ∀ t ∈ s.threads, waitsFor .join tid t → t.joinOut ≠ 0 →
      s.mem.engine.Accessible t.joinOut 8 := by
  simp only [Deliverable, outPointers, joiners, List.mem_filter, List.mem_map, decide_eq_true_eq]
  constructor
  · intro h t ht hwaits hzero
    exact h _ ⟨⟨t, ⟨ht, hwaits⟩, rfl⟩, hzero⟩
  · rintro h _ ⟨⟨t, ⟨ht, hwaits⟩, rfl⟩, hzero⟩
    exact h t ht hwaits hzero

theorem wakeJoiners_loop (hfind : s.findThread tid = some t) :
    wakeJoiners tid s = s.threads.forM (wakeJoiner tid t.retval) s := by
  have hat : atThread tid s = .ok t s := by rw [atThread, hfind]
  rw [wakeJoiners, bind_ok hat]
  rfl

/-- If every out pointer can be written, exactly the joiners are released and have the result. -/
theorem Distinct.wakeJoiners_ok (h : s.Distinct) (hfind : s.findThread tid = some t)
    (hdeliverable : s.Deliverable tid) :
    wakeJoiners tid s = .ok () (s.woken tid t.retval) := by
  rw [wakeJoiners_loop hfind, forM_wakeJoiner_ok (deliverable_iff.mp hdeliverable),
    ← h.releaseAll_joiners]
  rfl

/-- If some out pointer cannot be written, some joiner stays blocked. -/
theorem Distinct.wakeJoiners_error (h : s.Distinct) (hfind : s.findThread tid = some t)
    (hbad : ¬s.Deliverable tid) :
    ∃ err s', wakeJoiners tid s = .error err s' ∧
      ∃ u ∈ s.threads, waitsFor .join tid u ∧ u ∈ s'.threads := by
  rw [deliverable_iff] at hbad
  push Not at hbad
  obtain ⟨err, s', hrun, u, hu, hwaits, hblocked⟩ :=
    forM_wakeJoiner_error t.retval h.nodup hbad
  exact ⟨err, s', (wakeJoiners_loop hfind).trans hrun, u, hu, hwaits, hblocked u hu rfl⟩

/-- A result stands where it was wanted, unless another out pointer overlaps. -/
theorem holds_delivered {outs : List ℕ} {e : Engine} {p : ℕ} (hp : p ∈ outs)
    (haccess : e.Accessible p 8)
    (hapart : ∀ q ∈ outs, q = p ∨ q + 8 ≤ p ∨ p + 8 ≤ q) :
    (delivered rv outs e).Holds p (LittleEndian.toBytes 8 rv) := by
  have hlength := LittleEndian.length_toBytes 8 rv
  -- Once written, the result stays: every later write is there again, or beside it.
  have hstays : ∀ (outs : List ℕ) (e : Engine),
      (∀ q ∈ outs, q = p ∨ q + 8 ≤ p ∨ p + 8 ≤ q) → e.Holds p (LittleEndian.toBytes 8 rv) →
        (delivered rv outs e).Holds p (LittleEndian.toBytes 8 rv) := by
    intro outs
    induction outs with
    | nil => exact fun _ _ h => h
    | cons q outs ih =>
      intro e hapart hholds
      refine ih _ (fun q hq => hapart q (by simp [hq])) ?_
      rcases hapart q (by simp) with rfl | hq
      · exact Engine.holds_setBytes hholds.1
      · exact hholds.setBytes (by omega)
  induction outs generalizing e with
  | nil => simp at hp
  | cons q outs ih =>
    rcases List.mem_cons.mp hp with rfl | hp
    · refine hstays outs _ (fun q hq => hapart q (by simp [hq])) (Engine.holds_setBytes ?_)
      rw [hlength]
      exact haccess
    · exact ih hp (Engine.accessible_setBytes.mpr haccess) fun q hq => hapart q (by simp [hq])

/-! ## Retiring a thread -/

theorem InSlice.exists_current (h : s.InSlice) :
    ∃ t, s.findThread s.cur = some t ∧ t ∈ s.threads ∧ t.tid = s.cur ∧ t.state ≠ .finished := by
  obtain ⟨t, ht, htid, hstate⟩ := h.current
  exact ⟨t, by rw [← htid]; exact h.distinct.findThread_eq ht, ht, htid, hstate⟩

/-- The running thread is finished with a result. -/
def retired (s : Scheduler) (rv : ℕ) : Scheduler :=
  s.setCurrent fun t => { t with retval := rv, state := .finished }

/-- The running thread is finished, and its joiners are released and have its result. -/
def finish (s : Scheduler) (rv : ℕ) : Scheduler := (s.retired rv).woken s.cur rv

/-- Every thread that waits for the running one can be given the result. -/
def CanFinish (s : Scheduler) : Prop :=
  ∀ t ∈ s.threads, t.tid ≠ s.cur → waitsFor .join s.cur t → t.joinOut ≠ 0 →
    s.mem.engine.Accessible t.joinOut 8

instance (s : Scheduler) : Decidable s.CanFinish :=
  inferInstanceAs (Decidable (∀ t ∈ s.threads, _ → _ → _ → _))

theorem mem_setCurrent {f : Thread → Thread} {u : Thread} :
    u ∈ (s.setCurrent f).threads ↔
      ∃ t ∈ s.threads, (t.tid = s.cur ∧ u = f t) ∨ (t.tid ≠ s.cur ∧ u = t) := by
  simp only [setCurrent, List.mem_map]
  refine exists_congr fun t => and_congr_right fun _ => ?_
  by_cases htid : t.tid = s.cur
  · simp [htid, eq_comm]
  · simp [htid, eq_comm]

theorem deliverable_retired : (s.retired rv).Deliverable s.cur ↔ s.CanFinish := by
  rw [deliverable_iff]
  constructor
  · intro h t ht htid
    exact h t (mem_setCurrent.mpr ⟨t, ht, .inr ⟨htid, rfl⟩⟩)
  · intro h u hu hwaits
    obtain ⟨t, ht, ⟨-, rfl⟩ | ⟨htid, rfl⟩⟩ := mem_setCurrent.mp hu
    · rw [not_waitsFor_of_state (by simp)] at hwaits
      cases hwaits
    · exact h u ht htid hwaits

theorem Distinct.setCurrent (h : s.Distinct) {f : Thread → Thread} (hf : ∀ t, (f t).tid = t.tid) :
    (s.setCurrent f).Distinct := by
  have htids : (s.setCurrent f).threads.map Thread.tid = s.threads.map Thread.tid := by
    rw [Scheduler.setCurrent, List.map_map]
    refine List.map_congr_left fun t _ => ?_
    simp only [Function.comp_apply]
    split
    · exact hf t
    · rfl
  refine ⟨by rw [htids]; exact h.nodup, fun u hu => ?_⟩
  obtain ⟨t, ht, ⟨-, rfl⟩ | ⟨-, rfl⟩⟩ := mem_setCurrent.mp hu
  · rw [hf]
    exact h.lt_nextTid t ht
  · exact h.lt_nextTid u ht

theorem InSlice.findThread_retired (h : s.InSlice) (rv : ℕ) :
    ∃ t, (s.retired rv).findThread s.cur = some t ∧ t.retval = rv := by
  obtain ⟨t, -, ht, htid, -⟩ := h.exists_current
  have hmem : { t with retval := rv, state := .finished } ∈ (s.retired rv).threads :=
    mem_setCurrent.mpr ⟨t, ht, .inl ⟨htid, rfl⟩⟩
  have hdistinct : (s.retired rv).Distinct := h.distinct.setCurrent fun _ => rfl
  refine ⟨{ t with retval := rv, state := .finished }, ?_, rfl⟩
  rw [← htid]
  exact hdistinct.findThread_eq hmem

/-- Retiring the running thread wakes its joiners, if all of them can be given the result. -/
theorem InSlice.wakeJoiners_ok (h : s.InSlice) (hcan : s.CanFinish) (rv : ℕ) :
    wakeJoiners s.cur (s.retired rv) = .ok () (s.finish rv) := by
  obtain ⟨t, hfind, rfl⟩ := h.findThread_retired rv
  have hdistinct : (s.retired t.retval).Distinct := h.distinct.setCurrent fun _ => rfl
  exact hdistinct.wakeJoiners_ok hfind (deliverable_retired.mpr hcan)

/-- Otherwise the run ends, with a joiner that is still blocked. -/
theorem InSlice.wakeJoiners_error (h : s.InSlice) (hcannot : ¬s.CanFinish) (rv : ℕ) :
    ∃ err s', wakeJoiners s.cur (s.retired rv) = .error err s' ∧
      ∃ u ∈ s.threads, u.tid ≠ s.cur ∧ waitsFor .join s.cur u ∧ u ∈ s'.threads := by
  obtain ⟨t, hfind, rfl⟩ := h.findThread_retired rv
  have hdistinct : (s.retired t.retval).Distinct := h.distinct.setCurrent fun _ => rfl
  obtain ⟨err, s', hrun, u, hu, hwaits, hblocked⟩ := hdistinct.wakeJoiners_error hfind
    (deliverable_retired.not.mpr hcannot)
  refine ⟨err, s', hrun, u, ?_⟩
  obtain ⟨v, hv, ⟨-, rfl⟩ | ⟨htid, rfl⟩⟩ := mem_setCurrent.mp hu
  · rw [not_waitsFor_of_state (by simp)] at hwaits
    cases hwaits
  · exact ⟨hv, htid, hwaits, hblocked⟩

/-- What finishing the running thread does to the table. -/
theorem threads_finish (s : Scheduler) (rv : ℕ) :
    (s.finish rv).threads = s.threads.map fun t =>
      if t.tid = s.cur then { t with retval := rv, state := .finished }
      else if waitsFor .join s.cur t then release t
      else t := by
  simp only [finish, woken, retired, setCurrent, List.map_map]
  refine List.map_congr_left fun t _ => ?_
  by_cases htid : t.tid = s.cur
  · simp [htid, waitsFor]
  · simp [htid]

theorem mem_finish {u : Thread} :
    u ∈ (s.finish rv).threads ↔ ∃ t ∈ s.threads,
      (t.tid = s.cur ∧ u = { t with retval := rv, state := .finished }) ∨
      (t.tid ≠ s.cur ∧ waitsFor .join s.cur t ∧ u = release t) ∨
      (t.tid ≠ s.cur ∧ ¬waitsFor .join s.cur t ∧ u = t) := by
  rw [threads_finish, List.mem_map]
  refine exists_congr fun t => and_congr_right fun _ => ?_
  by_cases htid : t.tid = s.cur
  · rw [if_pos htid, eq_comm]
    simp only [htid, true_and, ne_eq, not_true_eq_false, false_and, or_false]
  · rw [if_neg htid, eq_comm]
    by_cases hwaits : waitsFor .join s.cur t
    · simp only [htid, hwaits, if_true, true_and, ne_eq, not_true_eq_false, not_false_eq_true,
        false_and, or_false, false_or]
    · simp only [htid, hwaits, Bool.false_eq_true, if_false, true_and, ne_eq, not_false_eq_true,
        false_and, false_or]

/-! ## The end of a slice -/

/-- The registers are saved for the running thread. -/
def saved (cfg : SchedConfig) (s : Scheduler) (state : ThreadState) : Scheduler :=
  s.setCurrent fun t => { t with ctx := s.mem.engine.saveCtx cfg.noVregs t.ctx, state := state }

/-- The slice ended at the sentinel, not because a call ended it. -/
def Returned (s : Scheduler) : Prop :=
  s.stop ≠ .block ∧ s.stop ≠ .yield ∧ s.mem.engine.reg .arm64Pc = kFiniPage

/-- What the end of a slice can do that did not end at the sentinel: a call ended the slice, or its
quantum, which may exceed the cap, or there is no quantum. -/
theorem InSlice.endSlice_cases (h : s.InSlice) (hreturned : ¬s.Returned) (cfg : SchedConfig) :
    (s.stop = .block ∧ ∃ t ∈ s.threads, t.tid = s.cur ∧
        endSlice cfg s = .ok none (s.saved cfg t.state)) ∨
      (s.stop = .yield ∧ endSlice cfg s = .ok none (s.saved cfg .runnable)) ∨
      (cfg.quantum ≠ 0 ∧ ∃ preempts,
        endSlice cfg s = .ok none { s.saved cfg .runnable with preempts := preempts }) ∨
      (cfg.quantum ≠ 0 ∧ ∃ err, endSlice cfg s = .error err
        { s.saved cfg .runnable with preempts := s.preempts + 1, running := false }) ∨
      s.stop ≠ .block ∧ s.stop ≠ .yield ∧ cfg.quantum = 0 ∧
        ∃ err, endSlice cfg s = .error err s := by
  obtain ⟨t, hfind, ht, htid, -⟩ := h.exists_current
  have hat : atThread s.cur s = .ok t s := by rw [atThread, hfind]
  rw [endSlice, get_bind, bind_ok hat]
  by_cases hblock : s.stop = .block
  · rw [if_pos hblock]
    exact .inl ⟨hblock, t, ht, htid, rfl⟩
  rw [if_neg hblock]
  by_cases hyield : s.stop = .yield
  · rw [if_pos hyield]
    exact .inr (.inl ⟨hyield, rfl⟩)
  have hpcNow : ¬s.mem.engine.readUcReg .arm64Pc = kFiniPage := fun hpc =>
    hreturned ⟨hblock, hyield, hpc⟩
  rw [if_neg hyield, if_neg hpcNow]
  right
  right
  by_cases hquantum : cfg.quantum ≠ 0
  · rw [if_pos hquantum]
    by_cases hmax : cfg.maxPreempt ≠ 0
    · by_cases hcap : s.preempts + 1 > cfg.maxPreempt
      · simp only [if_pos hmax, if_pos hcap]
        exact .inr (.inl ⟨hquantum, _, rfl⟩)
      · simp only [if_pos hmax, if_neg hcap]
        exact .inl ⟨hquantum, s.preempts + 1, rfl⟩
    · simp only [if_neg hmax]
      exact .inl ⟨hquantum, s.preempts, rfl⟩
  · rw [if_neg hquantum]
    exact .inr (.inr ⟨hblock, hyield, not_not.mp hquantum, _, rfl⟩)

/-- A slice that did not end at the sentinel leaves its thread saved, or ends the run. -/
theorem InSlice.endSlice_saved (h : s.InSlice) (hreturned : ¬s.Returned) (cfg : SchedConfig) :
    (∃ state preempts, (state = .runnable ∨ ∃ t ∈ s.threads, t.tid = s.cur ∧ state = t.state) ∧
        endSlice cfg s = .ok none { s.saved cfg state with preempts := preempts }) ∨
      ∃ err s', endSlice cfg s = .error err s' ∧
        (s' = s ∨ s'.threads = (s.saved cfg .runnable).threads) := by
  rcases h.endSlice_cases hreturned cfg with ⟨-, t, ht, htid, hend⟩ | ⟨-, hend⟩ |
    ⟨-, preempts, hend⟩ | ⟨-, err, hend⟩ | ⟨-, -, -, err, hend⟩
  · exact .inl ⟨t.state, s.preempts, .inr ⟨t, ht, htid, rfl⟩, hend⟩
  · exact .inl ⟨.runnable, s.preempts, .inl rfl, hend⟩
  · exact .inl ⟨.runnable, preempts, .inl rfl, hend⟩
  · exact .inr ⟨err, _, hend, .inr rfl⟩
  · exact .inr ⟨err, s, hend, .inl rfl⟩

/-- The state after a thread returned: a run that is over is no longer active. -/
def afterReturn (s : Scheduler) : Scheduler :=
  if s.cur = 0 then
    { s.finish (s.mem.engine.reg (.arm64X 0)) with running := false }
  else s.finish (s.mem.engine.reg (.arm64X 0))

theorem InSlice.endSlice_returned (h : s.InSlice) (hreturned : s.Returned) (cfg : SchedConfig) :
    endSlice cfg s = (do
      wakeJoiners s.cur
      if s.cur = 0 then
        modify fun s => { s with running := false }
        return some (s.mem.engine.reg (.arm64X 0))
      else
        return none : SchedM (Option ℕ)) (s.retired (s.mem.engine.reg (.arm64X 0))) := by
  obtain ⟨t, hfind, -, -, hstate⟩ := h.exists_current
  have hat : atThread s.cur s = .ok t s := by rw [atThread, hfind]
  obtain ⟨hblock, hyield, hpc⟩ := hreturned
  have hpcNow : s.mem.engine.readUcReg .arm64Pc = kFiniPage := hpc
  rw [endSlice, get_bind, bind_ok hat, if_neg hblock, if_neg hyield, if_pos hpcNow]
  rfl

/-- A thread that returned is retired, and the result of the main thread is that of the run. -/
theorem InSlice.endSlice_finish (h : s.InSlice) (hreturned : s.Returned) (hcan : s.CanFinish)
    (cfg : SchedConfig) :
    endSlice cfg s = .ok (if s.cur = 0 then some (s.mem.engine.reg (.arm64X 0)) else none)
      s.afterReturn := by
  rw [h.endSlice_returned hreturned, bind_ok (h.wakeJoiners_ok hcan _), afterReturn]
  by_cases hmain : s.cur = 0
  · simp only [if_pos hmain]
    rfl
  · simp only [if_neg hmain]
    rfl

theorem InSlice.endSlice_stuck (h : s.InSlice) (hreturned : s.Returned) (hcannot : ¬s.CanFinish)
    (cfg : SchedConfig) :
    ∃ err s', endSlice cfg s = .error err s' ∧
      ∃ u ∈ s.threads, u.tid ≠ s.cur ∧ waitsFor .join s.cur u ∧ u ∈ s'.threads := by
  obtain ⟨err, s', hrun, hblocked⟩ := h.wakeJoiners_error hcannot (s.mem.engine.reg (.arm64X 0))
  exact ⟨err, s', by rw [h.endSlice_returned hreturned, bind_error hrun], hblocked⟩

/-- A fault of the running thread retires it instead of ending the run. -/
def Tolerates (cfg : SchedConfig) (s : Scheduler) : Prop :=
  s.cur ≠ 0 ∧ cfg.tolerateWorkerFault = true

theorem onFault_fails (h : ¬s.Tolerates cfg) (err : Failure) :
    onFault cfg err s = .error err s := by
  have hnot : ¬(s.cur ≠ 0 ∧ cfg.tolerateWorkerFault = true) := h
  rw [onFault, get_bind, if_neg hnot]
  rfl

/-- With distinct ids, a thread that is retired with the result it has is just finished. -/
theorem Distinct.retired_eq (h : s.Distinct) (ht : t ∈ s.threads) (htid : t.tid = s.cur) :
    s.retired t.retval = s.setCurrent fun u => { u with state := .finished } := by
  simp only [retired, Scheduler.setCurrent]
  congr 1
  refine List.map_congr_left fun u hu => ?_
  by_cases hcur : u.tid = s.cur
  · rw [if_pos hcur, if_pos hcur, h.eq_of_tid_eq hu ht (hcur.trans htid.symm)]
  · rw [if_neg hcur, if_neg hcur]

theorem InSlice.onFault_retires (h : s.InSlice) (htolerates : s.Tolerates cfg) (err : Failure) :
    ∃ t ∈ s.threads, t.tid = s.cur ∧
      onFault cfg err s = wakeJoiners s.cur (s.retired t.retval) := by
  obtain ⟨t, hfind, ht, htid, hstate⟩ := h.exists_current
  have hat : atThread s.cur s = .ok t s := by rw [atThread, hfind]
  have hboth : s.cur ≠ 0 ∧ cfg.tolerateWorkerFault = true := htolerates
  refine ⟨t, ht, htid, ?_⟩
  rw [onFault, get_bind, if_pos hboth, bind_ok hat, h.distinct.retired_eq ht htid]
  rfl

end Scheduler

end Vardoger
