import Mathlib.Data.List.Nodup
import Mathlib.Data.Nat.ModEq
import Vardoger.Engine.Scheduler

/-!
# Round-robin picks

A pick goes around the thread table from the cursor on, takes the first runnable thread and leaves
the cursor behind it. We follow picks one after the other, between which threads may change their
states in any way. A thread that is runnable all the time is ahead of the one that was just picked,
and stays ahead of it until its own turn.
-/

namespace Vardoger.Scheduler

/-- Going around the table from any cursor reaches every entry. -/
theorem exists_add_mod_eq (rr : ℕ) {i n : ℕ} (hi : i < n) : ∃ k < n, (rr + k) % n = i := by
  have hrr : rr % n < n := Nat.mod_lt _ (by omega)
  refine ⟨(i + (n - rr % n)) % n, Nat.mod_lt _ (by omega), ?_⟩
  calc (rr + (i + (n - rr % n)) % n) % n = (rr % n + (i + (n - rr % n))) % n := by
        rw [Nat.add_mod_mod, Nat.mod_add_mod]
    _ = (i + n) % n := by congr 1; omega
    _ = i := by rw [Nat.add_mod_right, Nat.mod_eq_of_lt hi]

theorem roundRobin_isSome {threads : List Thread} {t : Thread} (rr : ℕ) (ht : t ∈ threads)
    (hstate : t.state = .runnable) : (roundRobin threads rr).isSome := by
  obtain ⟨i, hi, rfl⟩ := List.getElem_of_mem ht
  obtain ⟨k, hk, hki⟩ := exists_add_mod_eq rr hi
  rw [roundRobin, List.findSome?_isSome_iff]
  refine ⟨k, List.mem_range.mpr hk, ?_⟩
  simp only [hki, List.getElem?_eq_getElem hi, if_pos hstate, Option.isSome_some]

/-- A pick at a distance from the cursor passes no runnable thread. -/
structure PickedAt (threads : List Thread) (rr d : ℕ) (t : Thread) : Prop where
  lt : d < threads.length
  entry : threads[(rr + d) % threads.length]? = some t
  runnable : t.state = .runnable
  passed : ∀ e < d, ∀ u, threads[(rr + e) % threads.length]? = some u → u.state ≠ .runnable

theorem of_roundRobin {threads : List Thread} {rr rr' : ℕ} {t : Thread}
    (h : roundRobin threads rr = some (t, rr')) :
    ∃ d, PickedAt threads rr d t ∧ rr' = (rr + d + 1) % threads.length := by
  obtain ⟨front, d, back, hrange, hd, hfront⟩ := List.findSome?_eq_some_iff.mp h
  rw [List.range_eq_range'] at hrange
  obtain ⟨k, hk, rfl, hback⟩ := List.range'_eq_append_iff.mp hrange
  rw [Nat.zero_add, Nat.mul_one] at hback
  obtain ⟨n, hn⟩ : ∃ n, threads.length - k = n + 1 := by
    cases hlength : threads.length - k with
    | zero => simp [hlength] at hback
    | succ n => exact ⟨n, rfl⟩
  rw [hn, List.range'_succ] at hback
  obtain rfl : d = k := (List.cons.inj hback).1
  split at hd
  next u hu =>
    split at hd
    next hstate =>
      obtain ⟨rfl, rfl⟩ := Prod.mk.inj (Option.some.inj hd)
      refine ⟨d, ⟨by omega, hu, hstate, fun e he v hv hrunnable => ?_⟩, rfl⟩
      have hnone := hfront e (List.mem_range'_1.mpr ⟨Nat.zero_le e, by omega⟩)
      simp [hv, hrunnable] at hnone
    · cases hd
  · cases hd

theorem of_pickNext {s : Scheduler} {t : Thread} (hprefer : s.prefer = 0)
    (h : s.pickNext.1 = some t) :
    ∃ d, PickedAt s.threads s.rr d t ∧ s.pickNext.2.rr = (s.rr + d + 1) % s.threads.length := by
  rw [pickNext, if_pos hprefer] at h ⊢
  cases hround : roundRobin s.threads s.rr with
  | none => simp [hround] at h
  | some p =>
    obtain ⟨u, rr'⟩ := p
    simp only [hround, Option.some.injEq] at h ⊢
    exact of_roundRobin (h ▸ hround)

/-! ## Picks one after the other -/

/-- Calls of `pick_next`, without a thread that is preferred. Between two of them the threads may
change their states, but none is created. -/
structure Picks (s : ℕ → Scheduler) (ids : List ℕ) : Prop where
  prefer : ∀ k, (s k).prefer = 0
  nodup : ids.Nodup
  table : ∀ k, (s k).threads.map Thread.tid = ids
  cursor : ∀ k, (s (k + 1)).rr = (s k).pickNext.2.rr

/-- The thread that call number `k` returns. -/
def picked (s : ℕ → Scheduler) (k : ℕ) : Option ℕ := (s k).pickNext.1.map Thread.tid

/-- A thread that exists and is runnable. -/
def IsRunnable (s : Scheduler) (tid : ℕ) : Prop :=
  ∃ t ∈ s.threads, t.tid = tid ∧ t.state = .runnable

/-- From the cursor on, `b` comes before `a`. -/
def Ahead (ids : List ℕ) (rr b a : ℕ) : Prop :=
  ∃ x y, x < y ∧ y < ids.length ∧ ids[(rr + x) % ids.length]? = some b ∧
    ids[(rr + y) % ids.length]? = some a

section

variable {s : ℕ → Scheduler} {ids : List ℕ} {a b i j k : ℕ}

theorem Picks.length (h : Picks s ids) (k : ℕ) : (s k).threads.length = ids.length := by
  rw [← h.table k, List.length_map]

theorem Picks.tid (h : Picks s ids) {t : Thread} (ht : (s k).threads[i]? = some t) :
    ids[i]? = some t.tid := by
  rw [← h.table k, List.getElem?_map, ht]
  rfl

/-- What is known of a call that returns a thread. -/
theorem Picks.of_picked (h : Picks s ids) (hpicked : picked s k = some a) :
    ∃ d t, t.tid = a ∧ PickedAt (s k).threads (s k).rr d t ∧
      (s (k + 1)).rr = ((s k).rr + d + 1) % ids.length := by
  obtain ⟨t, ht, htid⟩ := Option.map_eq_some_iff.mp hpicked
  obtain ⟨d, hat, hcursor⟩ := of_pickNext (h.prefer k) ht
  exact ⟨d, t, htid, hat, by rw [h.cursor, hcursor, h.length]⟩

theorem Picks.picked_isSome (h : Picks s ids) (k : ℕ) :
    (picked s k).isSome ↔ ∃ t ∈ (s k).threads, t.state = .runnable := by
  constructor
  · intro hsome
    obtain ⟨a, ha⟩ := Option.isSome_iff_exists.mp hsome
    obtain ⟨d, t, -, hat, -⟩ := h.of_picked ha
    exact ⟨t, List.mem_of_getElem? hat.entry, hat.runnable⟩
  · rintro ⟨t, ht, hstate⟩
    obtain ⟨p, hround⟩ := Option.isSome_iff_exists.mp (roundRobin_isSome (s k).rr ht hstate)
    rw [picked, pickNext, if_pos (h.prefer k), hround]
    rfl

/-- A thread that was just picked comes last. -/
theorem Picks.ahead_of_picked (h : Picks s ids) (hpicked : picked s k = some a) (hb : b ∈ ids)
    (hne : b ≠ a) : Ahead ids (s (k + 1)).rr b a := by
  obtain ⟨d, t, rfl, hat, hcursor⟩ := h.of_picked hpicked
  obtain ⟨i, hi, rfl⟩ := List.getElem_of_mem hb
  obtain ⟨x, hx, hxi⟩ := exists_add_mod_eq (s (k + 1)).rr hi
  have hlast : ids[((s (k + 1)).rr + (ids.length - 1)) % ids.length]? = some t.tid := by
    have hentry := hat.entry
    rw [h.length] at hentry
    rw [hcursor, Nat.mod_add_mod,
      show (s k).rr + d + 1 + (ids.length - 1) = (s k).rr + d + ids.length by omega,
      Nat.add_mod_right]
    exact h.tid hentry
  have hentry : ids[((s (k + 1)).rr + x) % ids.length]? = some ids[i] := by
    rw [hxi, List.getElem?_eq_getElem hi]
  refine ⟨x, ids.length - 1, ?_, by omega, hentry, hlast⟩
  by_contra hge
  rw [show x = ids.length - 1 by omega, hlast] at hentry
  exact hne (Option.some.inj hentry).symm

/-- A runnable thread that is ahead is picked, or it stays ahead and the other is not picked. -/
theorem Picks.ahead_step (h : Picks s ids) (hahead : Ahead ids (s k).rr b a)
    (hb : IsRunnable (s k) b) :
    picked s k = some b ∨ picked s k ≠ some a ∧ Ahead ids (s (k + 1)).rr b a := by
  obtain ⟨x, y, hxy, hy, hbx, hay⟩ := hahead
  obtain ⟨u, hu, htid, hrunnable⟩ := hb
  -- The entry at distance `x` is the runnable thread itself, since no id comes twice.
  have hux : (s k).threads[((s k).rr + x) % ids.length]? = some u := by
    obtain ⟨i, hi, rfl⟩ := List.getElem_of_mem hu
    have hget := h.tid (List.getElem?_eq_getElem hi)
    rw [htid] at hget
    have hindex : i = ((s k).rr + x) % ids.length :=
      (List.getElem?_inj (List.getElem?_eq_some_iff.mp hget).1 h.nodup).mp (hget.trans hbx.symm)
    rw [← hindex, List.getElem?_eq_getElem hi]
  obtain ⟨c, hc⟩ := Option.isSome_iff_exists.mp ((h.picked_isSome k).mpr ⟨u, hu, hrunnable⟩)
  obtain ⟨d, t, rfl, hat, hcursor⟩ := h.of_picked hc
  have hentry := hat.entry
  rw [h.length] at hentry
  have hle : d ≤ x := by
    by_contra hlt
    exact hat.passed x (by omega) u (by rw [h.length]; exact hux) hrunnable
  rcases hle.eq_or_lt with rfl | hlt
  · left
    rw [hc, ← hbx]
    exact (h.tid hentry).symm
  · right
    have hrest : ∀ z, d < z → ((s (k + 1)).rr + (z - (d + 1))) % ids.length =
        ((s k).rr + z) % ids.length := by
      intro z hz
      rw [hcursor, Nat.mod_add_mod, show (s k).rr + d + 1 + (z - (d + 1)) = (s k).rr + z by omega]
    refine ⟨fun ha => ?_, x - (d + 1), y - (d + 1), by omega, by omega, ?_, ?_⟩
    · -- The picked thread is at distance `d`, and `a` is farther away.
      have hsame : ((s k).rr + d) % ids.length = ((s k).rr + y) % ids.length := by
        refine (List.getElem?_inj (Nat.mod_lt _ (by omega)) h.nodup).mp ?_
        rw [hay, h.tid hentry]
        exact hc.symm.trans ha
      have hdist := (Nat.ModEq.add_left_cancel' _ hsame).eq_of_lt_of_lt (by omega) hy
      omega
    · rw [hrest x hlt, hbx]
    · rw [hrest y (by omega), hay]

/-- Picks never pass over a thread: one is returned if and only if one is runnable, and no thread is
returned twice while another one waits. -/
theorem picks_in_turn (h : Picks s ids) :
    (∀ k, ((picked s k).isSome ↔ ∃ t ∈ (s k).threads, t.state = .runnable) ∧
      ∀ a, picked s k = some a → IsRunnable (s k) a) ∧
    ∀ i j a b, i < j → picked s i = some a → picked s j = some a → b ≠ a →
      (∀ k, i ≤ k → k ≤ j → IsRunnable (s k) b) → ∃ k, i < k ∧ k < j ∧ picked s k = some b := by
  refine ⟨fun k => ⟨h.picked_isSome k, fun a ha => ?_⟩, fun i j a b hij hi hj hne hrunnable => ?_⟩
  · obtain ⟨d, t, rfl, hat, -⟩ := h.of_picked ha
    exact ⟨t, List.mem_of_getElem? hat.entry, rfl, hat.runnable⟩
  · by_contra hnone
    push Not at hnone
    have hb : b ∈ ids := by
      obtain ⟨t, ht, rfl, -⟩ := hrunnable i (Nat.le_refl i) hij.le
      rw [← h.table i]
      exact List.mem_map_of_mem ht
    have hahead : ∀ n, i + 1 + n ≤ j → Ahead ids (s (i + 1 + n)).rr b a := by
      intro n
      induction n with
      | zero => exact fun _ => h.ahead_of_picked hi hb hne
      | succ n ih =>
        intro hn
        rcases h.ahead_step (ih (by omega)) (hrunnable _ (by omega) (by omega)) with hpicked | hstep
        · exact absurd hpicked (hnone _ (by omega) (by omega))
        · exact hstep.2
    have hlast := hahead (j - (i + 1)) (by omega)
    rw [Nat.add_sub_cancel' hij] at hlast
    rcases h.ahead_step hlast (hrunnable j hij.le (Nat.le_refl j)) with hpicked | hstep
    · exact hne (Option.some.inj (hpicked.symm.trans hj))
    · exact hstep.1 hj

end

/-- Two threads that are runnable all the time. -/
def twoThreads : ℕ → Scheduler
  | 0 =>
    { init (Memory.init .arm64 false false) false with
      threads := [{ tid := 1 }, { tid := 2 }] }
  | k + 1 => (twoThreads k).pickNext.2

theorem twoThreads_keeps (k : ℕ) : (twoThreads k).prefer = 0 ∧
    (twoThreads k).threads = [{ tid := 1 }, { tid := 2 }] := by
  induction k with
  | zero => exact ⟨rfl, rfl⟩
  | succ k ih =>
    rw [twoThreads, pickNext, if_pos ih.1]
    dsimp only
    split <;> exact ⟨rfl, ih.2⟩

theorem picks_in_turn_two : Picks twoThreads [1, 2] ∧ picked twoThreads 0 = some 1 ∧
    picked twoThreads 2 = some 1 ∧ ∃ k, 0 < k ∧ k < 2 ∧ picked twoThreads k = some 2 := by
  have hpicks : Picks twoThreads [1, 2] := by
    refine ⟨fun k => (twoThreads_keeps k).1, by decide, fun k => ?_, fun k => rfl⟩
    rw [(twoThreads_keeps k).2]
    rfl
  refine ⟨hpicks, rfl, rfl, (picks_in_turn hpicks).2 0 2 1 2 (by decide) rfl rfl (by decide) ?_⟩
  intro k _ _
  exact ⟨{ tid := 2 }, by simp [(twoThreads_keeps k).2], rfl, rfl⟩

end Vardoger.Scheduler
