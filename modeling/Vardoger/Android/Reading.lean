import Vardoger.Android.FileModel

/-!
# Reading by lines and by blocks

`read` and `gets` share the position of a handle. Whatever the order of the two, what they return
is the content between the first position and the last one, piece by piece, as long as nothing else
moves the handle or changes the content. A `read` whose handle lies behind the end of the
content throws instead.
-/

namespace Vardoger

open Stateful Runs

namespace Vfs

variable {s : Vfs} {fd : ℤ} {h : Handle} {max : ℕ} {content a b : List UInt8} {p q r : ℕ}

/-! ## Stretches of a content -/

/-- The bytes `out` are those of the content from position `p` up to position `q`. -/
structure Stretch (content : List UInt8) (p q : ℕ) (out : List UInt8) : Prop where
  forward : p ≤ q
  length : out.length = q - p
  bytes : out = (content.drop p).take (q - p)

theorem Stretch.nil (content : List UInt8) (p : ℕ) : Stretch content p p [] where
  forward := le_refl p
  length := by simp
  bytes := by simp

theorem Stretch.append (ha : Stretch content p q a) (hb : Stretch content q r b) :
    Stretch content p r (a ++ b) := by
  have hpq := ha.forward
  have hqr := hb.forward
  have hsum : r - p = q - p + (r - q) := by omega
  constructor
  · exact hpq.trans hqr
  · rw [List.length_append, ha.length, hb.length, hsum]
  · have hback : p + (q - p) = q := by omega
    rw [hsum, List.take_add, List.drop_drop, hback, ← ha.bytes, ← hb.bytes]

/-- A front part of what follows a position is the stretch from there. -/
theorem Stretch.of_isPrefix (h : a <+: content.drop p) : Stretch content p (p + a.length) a where
  forward := Nat.le_add_right ..
  length := by omega
  bytes := by
    rw [Nat.add_sub_cancel_left]
    exact List.prefix_iff_eq_take.mp h

/-- A stretch that starts within the content ends within it. -/
theorem Stretch.le_length (h : Stretch content p q a) (hp : p ≤ content.length) :
    q ≤ content.length := by
  have hlength := h.length
  have hforward := h.forward
  rw [h.bytes, List.length_take, List.length_drop] at hlength
  omega

/-! ## Lines -/

theorem line_isPrefix (room : ℕ) (src : List UInt8) : line room src <+: src := by
  induction room, src using line.induct with
  | case1 src => exact List.nil_prefix
  | case2 room => exact List.nil_prefix
  | case3 room rest =>
    rw [line, if_pos rfl]
    exact List.prefix_append [10] rest
  | case4 room c rest hc ih =>
    rw [line, if_neg hc]
    exact List.cons_prefix_cons.mpr ⟨rfl, ih⟩

theorem length_line_le (room : ℕ) (src : List UInt8) : (line room src).length ≤ room := by
  induction room, src using line.induct with
  | case1 src => exact Nat.zero_le _
  | case2 room => exact Nat.zero_le _
  | case3 room rest =>
    rw [line, if_pos rfl]
    exact Nat.le_add_left 1 room
  | case4 room c rest hc ih =>
    rw [line, if_neg hc]
    exact Nat.succ_le_succ ih

theorem line_ne_nil {room : ℕ} {src : List UInt8} (hroom : 0 < room) (hsrc : src ≠ []) :
    line room src ≠ [] := by
  obtain ⟨room, rfl⟩ := Nat.exists_eq_add_of_le' hroom
  cases src with
  | nil => exact absurd rfl hsrc
  | cons c rest =>
    rw [line]
    split <;> exact List.cons_ne_nil _ _

/-- A newline ends its line. -/
theorem line_newline {room i : ℕ} {src : List UInt8} (hi : (line room src)[i]? = some 10) :
    i + 1 = (line room src).length := by
  induction room, src using line.induct generalizing i with
  | case1 src => cases hi
  | case2 room => cases hi
  | case3 room rest =>
    rw [line, if_pos rfl] at hi ⊢
    have hlt := (List.getElem?_eq_some_iff.mp hi).1
    rw [List.length_singleton] at hlt ⊢
    omega
  | case4 room c rest hc ih =>
    rw [line, if_neg hc] at hi ⊢
    cases i with
    | zero => exact absurd (Option.some.inj hi) hc
    | succ i => exact congrArg (· + 1) (ih hi)

/-! ## One reader -/

/-- A step of a program that reads through a descriptor. -/
inductive Item
  | read (n : ℕ)
  | gets (max : ℕ)
  | other (c : Call)

/-- Make a step; the result is what a reader returned. -/
def Item.run (fd : ℤ) : Item → VfsM (Option (List UInt8))
  | .read n => do return some (← Vfs.read fd n)
  | .gets max => Vfs.gets fd max
  | .other c => do
      modify (step · c)
      return none

/-- The state after a step, which may have thrown. -/
def Item.next (fd : ℤ) (s : Vfs) (i : Item) : Vfs := final (i.run fd s)

theorem Item.next_eq {i : Item} {out : Option (List UInt8)} {s' : Vfs}
    (hrun : i.run fd s = .ok out s') : Item.next fd s i = s' := by
  rw [Item.next, hrun]
  rfl

/-- The next step leaves room for a line, and is a reader or keeps the handle and its content. -/
def Quiet (fd : ℤ) (s : Vfs) : Item → Prop
  | .read _ => True
  | .gets max => 2 ≤ max
  | .other c => (s.step c).handles fd = s.handles fd ∧
      ∀ h, s.handles fd = some h → (s.step c).dataOf h = s.dataOf h

/-- What `gets` returned is a line or a part of one. -/
def IsLine : Item × Option (List UInt8) → Prop
  | (.gets max, some out) => out ≠ [] ∧ out.length ≤ max - 1 ∧
      ∀ i, out[i]? = some 10 → i + 1 = out.length
  | _ => True

theorem gets_eq (hfd : s.handles fd = some h) (hmax : 2 ≤ max)
    (hpos : h.pos < (s.dataOf h).length) :
    Vfs.gets fd max s = .ok (some (line (max - 1) ((s.dataOf h).drop h.pos)))
      (putHandle fd
        { h with pos := h.pos + (line (max - 1) ((s.dataOf h).drop h.pos)).length } s) := by
  rw [Vfs.gets, get_bind, hfd]
  dsimp only
  rw [if_neg (by omega)]
  rfl

theorem gets_at_end (hfd : s.handles fd = some h) (hpos : (s.dataOf h).length ≤ h.pos) :
    Vfs.gets fd max s = .ok none s := by
  rw [Vfs.gets, get_bind, hfd]
  dsimp only
  rw [if_pos (.inr hpos)]
  rfl

/-- The state behind a step that moved the handle `h` of `fd` to position `q` and kept its
content. -/
structure MovedTo (s : Vfs) (fd : ℤ) (h : Handle) (q : ℕ) (s' : Vfs) : Prop where
  handle : s'.handles fd = some { h with pos := q }
  content : s'.dataOf { h with pos := q } = s.dataOf h

theorem movedTo_putHandle (s : Vfs) (fd : ℤ) (h : Handle) (q : ℕ) :
    s.MovedTo fd h q (putHandle fd { h with pos := q } s) := ⟨Function.update_self .., rfl⟩

theorem MovedTo.refl (hfd : s.handles fd = some h) : s.MovedTo fd h h.pos s := ⟨hfd, rfl⟩

theorem MovedTo.trans {s' s'' : Vfs} (h₁ : s.MovedTo fd h q s')
    (h₂ : s'.MovedTo fd { h with pos := q } r s'') : s.MovedTo fd h r s'' :=
  ⟨h₂.handle, h₂.content.trans h₁.content⟩

/-- A step returns the stretch between the old position and the new one, unless it is a `read`
from behind the end. -/
theorem Item.run_ok (hfd : s.handles fd = some h) {i : Item} (hquiet : s.Quiet fd i)
    (hwithin : h.pos ≤ (s.dataOf h).length ∨ ∀ n, i ≠ .read n) :
    ∃ out s' q, i.run fd s = .ok out s' ∧ s.MovedTo fd h q s' ∧
      Stretch (s.dataOf h) h.pos q (out.getD []) ∧ IsLine (i, out) := by
  cases i with
  | read n =>
    have hpos := hwithin.resolve_right fun hread => hread n rfl
    have hlength : (((s.dataOf h).drop h.pos).take (min n ((s.dataOf h).length - h.pos))).length =
        min n ((s.dataOf h).length - h.pos) := by
      rw [List.length_take, List.length_drop]
      omega
    have hstretch := Stretch.of_isPrefix
      (List.take_prefix (min n ((s.dataOf h).length - h.pos)) ((s.dataOf h).drop h.pos))
    rw [hlength] at hstretch
    exact ⟨some _, _, _, bind_ok (read_eq hfd hpos), movedTo_putHandle s fd h _, hstretch, trivial⟩
  | gets max =>
    by_cases hpos : h.pos < (s.dataOf h).length
    · have hroom : 0 < max - 1 := Nat.sub_pos_of_lt hquiet
      have hrest : (s.dataOf h).drop h.pos ≠ [] := by
        intro hnil
        have hlength := congrArg List.length hnil
        rw [List.length_drop, List.length_nil] at hlength
        omega
      exact ⟨_, _, _, gets_eq hfd hquiet hpos, movedTo_putHandle s fd h _,
        Stretch.of_isPrefix (line_isPrefix _ _), line_ne_nil hroom hrest, length_line_le _ _,
        fun _ => line_newline⟩
    · exact ⟨none, s, h.pos, gets_at_end hfd (by omega), MovedTo.refl hfd, Stretch.nil _ _, trivial⟩
  | other c =>
    obtain ⟨hhandle, hcontent⟩ := hquiet
    exact ⟨none, s.step c, h.pos, rfl, ⟨hhandle.trans hfd, hcontent h hfd⟩, Stretch.nil _ _,
      trivial⟩

/-! ## A sequence of readers -/

/-- Make the steps one after the other and note what each returned. -/
def readItems (fd : ℤ) : List Item → VfsM (List (Item × Option (List UInt8)))
  | [] => return []
  | i :: items => do
      let out ← i.run fd
      let outs ← readItems fd items
      return (i, out) :: outs

/-- All that the readers returned. -/
def returned (outs : List (Item × Option (List UInt8))) : List UInt8 :=
  outs.flatMap fun entry => entry.2.getD []

/-- Repeating `gets` gives lines until the position is at the end or behind it, and only there
nothing. -/
def Drains (s : Vfs) (fd : ℤ) (max : ℕ) : Prop :=
  ∃ k outs s', readItems fd (List.replicate k (.gets max)) s = .ok outs s' ∧
    (∀ entry ∈ outs, entry.2.isSome = true) ∧ Vfs.gets fd max s' = .ok none s' ∧
    s'.tell fd = Max.max (s.tell fd) (s.size fd)

/-- The readers return, one after the other, the content between the first position and the last
one, `gets` returns lines, and repeating it from there comes to the end. -/
def Partitions (s : Vfs) (fd : ℤ) (items : List Item) : Prop :=
  ∃ outs s', readItems fd items s = .ok outs s' ∧
    (∀ h, s.handles fd = some h →
      Stretch (s.dataOf h) (s.tell fd) (s'.tell fd) (returned outs)) ∧
    (∀ entry ∈ outs, IsLine entry) ∧ ∀ max, 2 ≤ max → s'.Drains fd max

theorem tell_eq (hfd : s.handles fd = some h) : s.tell fd = h.pos := by
  rw [tell, hfd]

theorem size_eq (hfd : s.handles fd = some h) : s.size fd = (s.dataOf h).length := by
  rw [size, hfd]

theorem readItems_cons {i : Item} {items : List Item} {out : Option (List UInt8)} {s' : Vfs}
    (hi : i.run fd s = .ok out s') {outs : List (Item × Option (List UInt8))} {s'' : Vfs}
    (hrest : readItems fd items s' = .ok outs s'') :
    readItems fd (i :: items) s = .ok ((i, out) :: outs) s'' := by
  rw [readItems, bind_ok hi, bind_ok hrest]
  rfl

/-- A sequence of readers, none of which is a `read` from behind the end. -/
theorem readItems_ok {items : List Item} (hfd : s.handles fd = some h)
    (hquiet : Steps (fun s i => some (Item.next fd s i)) (Quiet fd) s items)
    (hwithin : h.pos ≤ (s.dataOf h).length ∨ ∀ n, Item.read n ∉ items) :
    ∃ outs s' q, readItems fd items s = .ok outs s' ∧ s.MovedTo fd h q s' ∧
      Stretch (s.dataOf h) h.pos q (returned outs) ∧ ∀ entry ∈ outs, IsLine entry := by
  induction items generalizing s h with
  | nil =>
    refine ⟨[], s, h.pos, rfl, MovedTo.refl hfd, Stretch.nil _ _, fun entry hentry => ?_⟩
    cases hentry
  | cons i items ih =>
    obtain ⟨hfirst, hquiet⟩ := steps_cons_some.mp hquiet
    have hwithin' : h.pos ≤ (s.dataOf h).length ∨ ∀ n, i ≠ .read n :=
      hwithin.imp_right fun hnone n hi => hnone n (hi ▸ List.mem_cons_self)
    obtain ⟨out, s', q, hrun, hmoved, hstretch, hline⟩ := i.run_ok hfd hfirst hwithin'
    have hrest : q ≤ (s'.dataOf { h with pos := q }).length ∨ ∀ n, Item.read n ∉ items := by
      rw [hmoved.content]
      exact hwithin.imp hstretch.le_length fun hnone n hn => hnone n (List.mem_cons_of_mem i hn)
    rw [Item.next_eq hrun] at hquiet
    obtain ⟨outs, s'', r, hruns, hmoved', hstretch', hlines⟩ := ih hmoved.handle hquiet hrest
    rw [hmoved.content] at hstretch'
    refine ⟨_, s'', r, readItems_cons hrun hruns, hmoved.trans hmoved', hstretch.append hstretch',
      fun entry hentry => ?_⟩
    obtain rfl | hmem := List.mem_cons.mp hentry
    · exact hline
    · exact hlines entry hmem

/-- A sequence of readers with a `read` from behind the end throws. -/
theorem readItems_throws {items : List Item} (hfd : s.handles fd = some h)
    (hquiet : Steps (fun s i => some (Item.next fd s i)) (Quiet fd) s items)
    (hbehind : (s.dataOf h).length < h.pos) {n : ℕ} (hread : Item.read n ∈ items) :
    ∃ err s', readItems fd items s = .error err s' := by
  induction items generalizing s with
  | nil => cases hread
  | cons i items ih =>
    obtain ⟨hfirst, hquiet⟩ := steps_cons_some.mp hquiet
    by_cases hi : ∃ m, i = .read m
    · obtain ⟨m, rfl⟩ := hi
      have hthrows : (Item.read m).run fd s = .error (.runtime "basic_string::assign") s :=
        bind_error (read_throws hfd hbehind)
      exact ⟨_, _, by rw [readItems, bind_error hthrows]⟩
    · have hmem : Item.read n ∈ items := by
        obtain heq | hmem := List.mem_cons.mp hread
        · exact absurd ⟨n, heq.symm⟩ hi
        · exact hmem
      -- Neither `gets` nor another call moves a handle that lies behind the end.
      obtain ⟨out, s', q, hrun, hmoved, hstretch, -⟩ :=
        i.run_ok hfd hfirst (.inr fun m hm => hi ⟨m, hm⟩)
      have hstays : q = h.pos := by
        have hlength := hstretch.length
        have hforward := hstretch.forward
        rw [hstretch.bytes, List.length_take, List.length_drop] at hlength
        omega
      subst hstays
      rw [Item.next_eq hrun] at hquiet
      obtain ⟨err, s'', hthrows⟩ :=
        ih hmoved.handle hquiet (by rw [hmoved.content]; exact hbehind) hmem
      exact ⟨err, s'', by rw [readItems, bind_ok hrun, bind_error hthrows]⟩

/-- Repeating `gets` comes to the end: every line moves the position on. -/
theorem drains (hfd : s.handles fd = some h) (hmax : 2 ≤ max) : s.Drains fd max := by
  induction hleft : (s.dataOf h).length - h.pos using Nat.strong_induction_on generalizing s h with
  | _ left ih =>
    by_cases hpos : h.pos < (s.dataOf h).length
    · have hrun : (Item.gets max).run fd s = _ := gets_eq hfd hmax hpos
      have hmoved := movedTo_putHandle s fd h
        (h.pos + (line (max - 1) ((s.dataOf h).drop h.pos)).length)
      have hnonempty : 0 < (line (max - 1) ((s.dataOf h).drop h.pos)).length := by
        apply List.length_pos_of_ne_nil
        apply line_ne_nil (by omega)
        intro hnil
        have hlength := congrArg List.length hnil
        rw [List.length_drop, List.length_nil] at hlength
        omega
      have hinside := (Stretch.of_isPrefix
        (line_isPrefix (max - 1) ((s.dataOf h).drop h.pos))).le_length hpos.le
      obtain ⟨k, outs, s', hruns, hsome, hend, htell⟩ :=
        ih _ (by rw [hmoved.content]; dsimp only; omega) hmoved.handle rfl
      refine ⟨k + 1, _, s', readItems_cons hrun hruns, fun entry hentry => ?_, hend, ?_⟩
      · obtain rfl | hmem := List.mem_cons.mp hentry
        · rfl
        · exact hsome entry hmem
      · rw [htell, tell_eq hmoved.handle, size_eq hmoved.handle, hmoved.content, tell_eq hfd,
          size_eq hfd, Nat.max_eq_right hinside, Nat.max_eq_right hpos.le]
    · have hend : (s.dataOf h).length ≤ h.pos := by omega
      refine ⟨0, [], s, rfl, fun entry hentry => ?_, gets_at_end hfd hend, ?_⟩
      · cases hentry
      · rw [tell_eq hfd, size_eq hfd, Nat.max_eq_left hend]

/-- For every open descriptor and every sequence of `read` and `gets` on it, between other calls
that keep its handle and its content: the readers partition the content if and only if the
descriptor does not start behind the end of it or there is no `read` in the sequence. -/
theorem partitions_iff (s : Vfs) (fd : ℤ) (h : Handle) (items : List Item)
    (hfd : s.handles fd = some h)
    (hquiet : Steps (fun s i => some (Item.next fd s i)) (Quiet fd) s items) :
    s.Partitions fd items ↔ h.pos ≤ (s.dataOf h).length ∨ ∀ n, Item.read n ∉ items := by
  constructor
  · rintro ⟨outs, s', hruns, -⟩
    by_contra hnot
    obtain ⟨hbehind, hread⟩ := not_or.mp hnot
    obtain ⟨n, hn⟩ := not_forall_not.mp hread
    obtain ⟨err, s'', hthrows⟩ := readItems_throws hfd hquiet (not_le.mp hbehind) hn
    rw [hthrows] at hruns
    cases hruns
  · intro hwithin
    obtain ⟨outs, s', q, hruns, hmoved, hstretch, hlines⟩ := readItems_ok hfd hquiet hwithin
    refine ⟨outs, s', hruns, fun h' hfd' => ?_, hlines, fun max hmax => drains hmoved.handle hmax⟩
    obtain rfl := Option.some.inj (hfd.symm.trans hfd')
    rw [tell_eq hfd, tell_eq hmoved.handle]
    exact hstretch

/-- The file system with one file of two lines, open for reading. -/
def twoLines : Vfs :=
  { store := Function.update (fun _ => none) [47, 97] (some [1, 10, 2, 3, 10]),
    handles := Function.update (fun _ => none) 3 (some { path := [47, 97] }), nextFd := 4 }

/-- A line is read, then a byte, then the rest. -/
theorem partitions_twoLines : twoLines.Partitions 3 [.gets 8, .read 1, .gets 2, .gets 8] :=
  (partitions_iff twoLines 3 { path := [47, 97] } [.gets 8, .read 1, .gets 2, .gets 8] rfl
    (by
      simp only [steps_cons_some]
      exact ⟨Nat.le_add_left 2 6, trivial, le_refl 2, Nat.le_add_left 2 6, trivial⟩)).mpr
        (.inl (by decide))

/-- The file is read to its end and truncated by another descriptor. -/
def truncatedLines : Vfs :=
  List.foldl step twoLines [.read 3 5, .openPath [47, 97] (kWrOnly ||| kTrunc) none]

/-- The next read through the first descriptor throws. -/
theorem truncated_not_partitions :
    truncatedLines.isOpen 3 = true ∧ ¬ truncatedLines.Partitions 3 [.read 1] := by
  have hthrows : readItems 3 [.read 1] truncatedLines =
      .error (.runtime "basic_string::assign") truncatedLines := rfl
  refine ⟨rfl, ?_⟩
  rintro ⟨outs, s', hruns, -⟩
  rw [hthrows] at hruns
  cases hruns

end Vfs

end Vardoger
