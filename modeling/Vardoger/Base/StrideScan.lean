import Mathlib.Data.Nat.Basic
import Mathlib.Tactic.Ring

/-!
# Scanning with a stride

A scan looks for items at offsets `0, stride, 2 * stride, ...`; where it finds one it reports it and
resumes behind the item. `hit` gives the length of the item at an offset. The reports never
overlap. An item at a multiple of the stride can be missed, though: behind an item whose end is not
a multiple, the scan looks at other offsets. `InStep` says for given contents that this never hides
an item, and is shown to be exactly what completeness needs.
-/

namespace StrideScan

variable (hit : ℕ → Option ℕ) (stride : ℕ)

/-- The reports of a scan from an offset on, each with its length. -/
inductive Scan : ℕ → List (ℕ × ℕ) → Prop
  | stop {off : ℕ} : (∀ o, off ≤ o → hit o = none) → Scan off []
  | report {off len : ℕ} {out : List (ℕ × ℕ)} :
      hit off = some len → Scan (off + len) out → Scan off ((off, len) :: out)
  | skip {off : ℕ} {out : List (ℕ × ℕ)} :
      hit off = none → Scan (off + stride) out → Scan off out

/-- The first item at a whole number of strides from a starting point. -/
structure NextHit (start a : ℕ) : Prop where
  le : start ≤ a
  dvd : stride ∣ a - start
  hits : (hit a).isSome
  first : ∀ o, start ≤ o → o < a → stride ∣ o - start → hit o = none

/-- The offsets at which the search starts: zero, and the end of each item found from there. -/
inductive StartsAt : ℕ → Prop
  | zero : StartsAt 0
  | next {start a len : ℕ} :
      StartsAt start → NextHit hit stride start a → hit a = some len → StartsAt (a + len)

/-- Every item at a multiple of the stride is found, or lies behind one that is found first, from
each starting point before it. -/
def InStep : Prop :=
  ∀ start, StartsAt hit stride start → ∀ o, stride ∣ o → (hit o).isSome → start ≤ o →
    ∃ a, NextHit hit stride start a ∧ a ≤ o

/-- Every item at a multiple of the stride is reported, unless it starts inside a reported one. -/
def Complete (out : List (ℕ × ℕ)) : Prop :=
  ∀ o, stride ∣ o → (hit o).isSome →
    (¬∃ d ∈ out, d.1 < o ∧ o < d.1 + d.2) → ∃ d ∈ out, d.1 = o

variable {hit stride} {off : ℕ} {out : List (ℕ × ℕ)}

theorem NextHit.unique {start a b : ℕ} (ha : NextHit hit stride start a)
    (hb : NextHit hit stride start b) : a = b := by
  have hle {a b : ℕ} (ha : NextHit hit stride start a) (hb : NextHit hit stride start b) :
      b ≤ a := by
    by_contra hlt
    have hhits := ha.hits
    rw [hb.first a ha.le (not_le.mp hlt) ha.dvd] at hhits
    cases hhits
  exact le_antisymm (hle hb ha) (hle ha hb)

/-- The reports of a scan lie behind its start, one after the other. -/
theorem Scan.le_of_mem (h : Scan hit stride off out) : ∀ d ∈ out, off ≤ d.1 := by
  induction h with
  | stop _ => simp
  | @report off len out _ _ ih =>
    intro d hd
    rcases List.mem_cons.mp hd with rfl | hd
    · exact le_refl _
    · have := ih d hd
      omega
  | @skip off out _ _ ih =>
    intro d hd
    have := ih d hd
    omega

/-- No report reaches into a later one. -/
theorem Scan.pairwise (h : Scan hit stride off out) :
    out.Pairwise fun a b => a.1 + a.2 ≤ b.1 := by
  induction h with
  | stop _ => exact List.Pairwise.nil
  | report _ hrest ih => exact List.pairwise_cons.mpr ⟨hrest.le_of_mem, ih⟩
  | skip _ _ ih => exact ih

/-- Every report is an item. -/
theorem Scan.hit_of_mem (h : Scan hit stride off out) : ∀ d ∈ out, hit d.1 = some d.2 := by
  induction h with
  | stop _ => simp
  | report hhit _ ih =>
    intro d hd
    rcases List.mem_cons.mp hd with rfl | hd
    · exact hhit
    · exact ih d hd
  | skip _ _ ih => exact ih

/-- The first report of a scan that has come from `start` without a hit is the next item from
there; if there is none, there is no report. -/
theorem Scan.head {start : ℕ} (h : Scan hit stride off out) (hle : start ≤ off)
    (hdvd : stride ∣ off - start)
    (hnone : ∀ o, start ≤ o → o < off → stride ∣ o - start → hit o = none) :
    (out = [] ∧ ∀ a, ¬NextHit hit stride start a) ∨
      ∃ a len rest, out = (a, len) :: rest ∧ hit a = some len ∧ NextHit hit stride start a ∧
        Scan hit stride (a + len) rest := by
  induction h with
  | @stop off hstop =>
    refine .inl ⟨rfl, fun a ha => ?_⟩
    have hhits := ha.hits
    by_cases hao : a < off
    · rw [hnone a ha.le hao ha.dvd] at hhits
      cases hhits
    · rw [hstop a (not_lt.mp hao)] at hhits
      cases hhits
  | @report off len rest hhit hrest _ =>
    exact .inr ⟨off, len, rest, rfl, hhit, ⟨hle, hdvd, by rw [hhit]; rfl, hnone⟩, hrest⟩
  | @skip off out hmiss _ ih =>
    refine ih (by omega) ?_ ?_
    · rw [show off + stride - start = off - start + stride by omega]
      exact Nat.dvd_add hdvd (Nat.dvd_refl stride)
    · intro o hso hoff hdo
      by_cases holt : o < off
      · exact hnone o hso holt hdo
      -- the next offset on the grid after `off` is `off + stride`
      · obtain ⟨k, hk⟩ := Nat.dvd_sub hdo hdvd
        have hoo : o - off = stride * k := by omega
        have hk0 : k = 0 := by
          by_contra hne
          have := Nat.le_mul_of_pos_right stride (Nat.pos_of_ne_zero hne)
          omega
        subst hk0
        obtain rfl : o = off := by omega
        exact hmiss

/-- A scan from a starting point reports the next item from there. -/
theorem Scan.head_start (h : Scan hit stride off out) :
    (out = [] ∧ ∀ a, ¬NextHit hit stride off a) ∨
      ∃ a len rest, out = (a, len) :: rest ∧ hit a = some len ∧ NextHit hit stride off a ∧
        Scan hit stride (a + len) rest :=
  h.head (le_refl off) (by simp) fun o hle hlt _ => absurd hlt (not_lt.mpr hle)

/-- A scan passes through every starting point: what it reports later is a scan from there. -/
theorem Scan.through (h : Scan hit stride 0 out) {start : ℕ}
    (hstart : StartsAt hit stride start) :
    ∃ before after, out = before ++ after ∧ Scan hit stride start after ∧
      ∀ d ∈ before, d.1 + d.2 ≤ start := by
  induction hstart with
  | zero => exact ⟨[], out, rfl, h, by simp⟩
  | @next start a len _ hnext hhit ih =>
    obtain ⟨before, after, rfl, hscan, hbefore⟩ := ih
    rcases hscan.head_start with ⟨-, hnone⟩ | ⟨a', len', rest, rfl, hhit', hnext', hrest⟩
    · exact absurd hnext (hnone a)
    · obtain rfl := hnext.unique hnext'
      obtain rfl : len = len' := Option.some.inj (hhit.symm.trans hhit')
      refine ⟨before ++ [(a, len)], rest, by simp, hrest, ?_⟩
      intro d hd
      rcases List.mem_append.mp hd with hd | hd
      · have := hbefore d hd
        have := hnext.le
        omega
      · rw [List.mem_singleton.mp hd]

/-- If the contents are in step, a scan from a starting point misses nothing behind it. -/
theorem InStep.complete_from (hstep : InStep hit stride) {start : ℕ}
    (hstart : StartsAt hit stride start) (h : Scan hit stride start out) {o : ℕ}
    (hdvd : stride ∣ o) (hhits : (hit o).isSome) (hle : start ≤ o)
    (houtside : ¬∃ d ∈ out, d.1 < o ∧ o < d.1 + d.2) : ∃ d ∈ out, d.1 = o := by
  induction out generalizing start with
  | nil =>
    obtain ⟨a, hnext, -⟩ := hstep start hstart o hdvd hhits hle
    rcases h.head_start with ⟨-, hnone⟩ | ⟨a', len, rest, hnil, -⟩
    · exact absurd hnext (hnone a)
    · cases hnil
  | cons d out ih =>
    obtain ⟨a, hnext, hao⟩ := hstep start hstart o hdvd hhits hle
    rcases h.head_start with ⟨hnil, -⟩ | ⟨a', len, rest, hcons, hhit, hnext', hrest⟩
    · cases hnil
    obtain ⟨rfl, rfl⟩ := List.cons.inj hcons
    obtain rfl := hnext.unique hnext'
    by_cases hend : a + len ≤ o
    · obtain ⟨d, hd, hdo⟩ := ih (.next hstart hnext hhit) hrest hend fun ⟨d, hd, hin⟩ =>
        houtside ⟨d, List.mem_cons_of_mem _ hd, hin⟩
      exact ⟨d, List.mem_cons_of_mem _ hd, hdo⟩
    · refine ⟨(a, len), List.mem_cons_self, ?_⟩
      by_contra hne
      exact houtside ⟨(a, len), List.mem_cons_self, by dsimp only at *; omega, by dsimp only; omega⟩

/-- A scan for nonempty items is complete exactly on the contents that are in step. -/
theorem Scan.complete_iff (h : Scan hit stride 0 out) (hpos : ∀ o len, hit o = some len → 0 < len) :
    Complete hit stride out ↔ InStep hit stride := by
  constructor
  · intro hcomplete start hstart o hdvd hhits hle
    obtain ⟨before, after, rfl, hscan, hbefore⟩ := h.through hstart
    -- some report of the part behind `start` begins at or before `o`
    obtain ⟨d, hd, hdo⟩ : ∃ d ∈ after, d.1 ≤ o := by
      by_cases hinside : ∃ d ∈ before ++ after, d.1 < o ∧ o < d.1 + d.2
      · obtain ⟨d, hd, hlt, hlt'⟩ := hinside
        rcases List.mem_append.mp hd with hd | hd
        · have := hbefore d hd
          omega
        · exact ⟨d, hd, hlt.le⟩
      · obtain ⟨d, hd, rfl⟩ := hcomplete o hdvd hhits hinside
        rcases List.mem_append.mp hd with hd | hd
        · have := hbefore d hd
          have := hpos d.1 d.2 (h.hit_of_mem d (List.mem_append_left _ hd))
          omega
        · exact ⟨d, hd, le_refl _⟩
    rcases hscan.head_start with ⟨rfl, -⟩ | ⟨a, len, rest, rfl, -, hnext, hrest⟩
    · cases hd
    · refine ⟨a, hnext, ?_⟩
      rcases List.mem_cons.mp hd with rfl | hd
      · exact hdo
      · have := hrest.le_of_mem d hd
        omega
  · intro hstep o hdvd hhits houtside
    exact hstep.complete_from .zero h hdvd hhits (Nat.zero_le o) houtside

end StrideScan
