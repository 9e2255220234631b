import Vardoger.Android.FileModel
import Vardoger.Android.VfsCalls

/-!
# What the write observer learns

When a descriptor is closed through which something was written, the virtual file system tells the
observer the content of the path. That content belongs to the path and not to the descriptor. Beside
a run we keep, for each descriptor, the bytes that were written through it and not replaced or
cut off since. The observer gets all of them as long as no path is unlinked while a descriptor
that has written to it is open.
-/

namespace Vardoger

open Bytes Stateful Runs

/-- A run with the bytes of each descriptor: the byte at each position that was written through it
and still has to be there, and whether anything was written at all. -/
structure WriteRecord where
  vfs : Vfs
  live : (fd : ℤ) → ℕ → Option UInt8
  wrote : (fd : ℤ) → Bool

namespace WriteRecord

/-- Nothing was written through a descriptor yet. -/
def forget (r : WriteRecord) (fd : ℤ) : WriteRecord :=
  { r with
    live := Function.update r.live fd fun _ => none
    wrote := Function.update r.wrote fd false }

/-- The descriptor is open on a path. -/
def On (r : WriteRecord) (path : Path) (fd : ℤ) : Prop :=
  ∃ h ∈ r.vfs.handles fd, h.path = path

instance (r : WriteRecord) (path : Path) (fd : ℤ) : Decidable (r.On path fd) :=
  inferInstanceAs (Decidable (∃ h ∈ r.vfs.handles fd, h.path = path))

/-- The content of a path is replaced or cut off. -/
def replace (r : WriteRecord) (path : Path) : WriteRecord :=
  { r with live := fun fd i => if r.On path fd then none else r.live fd i }

/-- Bytes are written through a descriptor at its position. -/
def put (r : WriteRecord) (fd : ℤ) (h : Vfs.Handle) (x : List UInt8) : WriteRecord :=
  { r with
    live := fun fd' i =>
      if h.pos ≤ i ∧ i < h.pos + x.length then
        if fd' = fd then x[i - h.pos]? else if r.On h.path fd' then none else r.live fd' i
      else r.live fd' i
    wrote := Function.update r.wrote fd (r.wrote fd || x ≠ []) }

/-- The descriptor that a call closes. -/
def closed (r : WriteRecord) : Vfs.Call → Option ℤ
  | .close fd => some fd
  | .dup2 oldFd newFd =>
      if (r.vfs.handles oldFd).isSome ∧ oldFd ≠ newFd then some newFd else none
  | _ => none

/-- The bytes of each descriptor after a call. -/
def record (r : WriteRecord) : Vfs.Call → WriteRecord
  | .addFile path _ => r.replace path
  | .openPath path flags provided =>
      let r' := if Vfs.wantsWrite flags ∧ flags &&& Vfs.kTrunc ≠ 0 then r.replace path else r
      if (r.vfs.step (.openPath path flags provided)).nextFd ≠ r.vfs.nextFd then
        r'.forget r.vfs.nextFd
      else r'
  | .dup oldFd => if (r.vfs.handles oldFd).isSome then r.forget r.vfs.nextFd else r
  | .write fd x =>
      match r.vfs.handles fd with
      | some h => if h.writable then r.put fd h x else r
      | none => r
  | .close fd => r.forget fd
  | .dup2 oldFd newFd =>
      if (r.vfs.handles oldFd).isSome ∧ oldFd ≠ newFd then r.forget newFd else r
  | .read _ _ | .seek _ _ | .gets _ _ | .unlink _ => r

def step (r : WriteRecord) (c : Vfs.Call) : WriteRecord :=
  { r.record c with vfs := r.vfs.step c }

/-- A run starts with no open descriptor. -/
def start (store : Path → Option (List UInt8)) : WriteRecord :=
  ⟨{ store, observed := true }, fun _ _ => none, fun _ => false⟩

/-! ## What is promised, and when -/

/-- The calls that only look at the store. -/
def looks : Vfs.Call → Bool
  | .close _ | .read _ _ | .seek _ _ | .gets _ _ => true
  | _ => false

/-- A descriptor through which something was written is closed with one report, of its path and a
content with all its bytes. -/
def Reported (r : WriteRecord) (fd : ℤ) (s' : Vfs) : Prop :=
  ∀ h, r.vfs.handles fd = some h → r.wrote fd = true →
    ∃ content, s'.reports = r.vfs.reports ++ [(h.path, content)] ∧
      ∀ i b, r.live fd i = some b → content[i]? = some b

/-- A call that closes a descriptor reports its bytes, and the calls that only look at the store
keep the paths in it. -/
def Captures (r : WriteRecord) (c : Vfs.Call) : Prop :=
  (∀ fd, r.closed c = some fd → r.Reported fd (r.vfs.step c)) ∧
    (looks c → ∀ path, ((r.vfs.step c).store path).isSome = (r.vfs.store path).isSome)

/-- No path is unlinked while a descriptor that has written to it is open. -/
def KeepsWritten (r : WriteRecord) : Vfs.Call → Prop
  | .unlink path => ∀ fd h, r.vfs.handles fd = some h → h.writable = true → h.dirty = true →
      h.path ≠ path
  | _ => True

/-! ## The bytes of one descriptor -/

/-- The store has the bytes that were written through a handle, and the path of a handle that has
written. -/
structure Kept (store : Path → Option (List UInt8)) (live : ℕ → Option UInt8) (wrote : Bool)
    (h : Vfs.Handle) : Prop where
  stored : h.writable = true → h.dirty = true → (store h.path).isSome
  live : ∀ i b, live i = some b →
    wrote = true ∧ ∃ content, store h.path = some content ∧ content[i]? = some b
  wrote : wrote = true → h.writable = true ∧ h.dirty = true

variable {store store' : Path → Option (List UInt8)} {live live' : ℕ → Option UInt8} {wrote : Bool}
  {h : Vfs.Handle}

theorem Kept.seek (hk : Kept store live wrote h) (pos : ℕ) :
    Kept store live wrote { h with pos } := ⟨hk.stored, hk.live, hk.wrote⟩

/-- A descriptor through which nothing was written yet. -/
theorem Kept.fresh (hk : h.writable = true → h.dirty = true → (store h.path).isSome) :
    Kept store (fun _ => none) false h := ⟨hk, nofun, nofun⟩

/-- A change of the store that keeps the bytes which still have to be there. -/
theorem Kept.change (hk : Kept store live wrote h)
    (hsome : (store h.path).isSome → (store' h.path).isSome)
    (hlive : ∀ i b, live' i = some b → live i = some b ∧ ∀ content, store h.path = some content →
      content[i]? = some b → ∃ content', store' h.path = some content' ∧ content'[i]? = some b) :
    Kept store' live' wrote h := by
  refine ⟨fun hw hd => hsome (hk.stored hw hd), fun i b hb => ?_, hk.wrote⟩
  obtain ⟨hb, hkeeps⟩ := hlive i b hb
  obtain ⟨hwrote, content, hcontent, hbyte⟩ := hk.live i b hb
  exact ⟨hwrote, hkeeps content hcontent hbyte⟩

/-- The store at other paths does not matter. -/
theorem Kept.congr (hk : Kept store live wrote h) (hstore : store' h.path = store h.path) :
    Kept store' live wrote h :=
  hk.change (by rw [hstore]; exact id) fun i b hb => ⟨hb, fun content hc hbyte =>
    ⟨content, hstore.trans hc, hbyte⟩⟩

/-- The store has the bytes of every open descriptor. -/
structure Tracks (r : WriteRecord) : Prop where
  observed : r.vfs.observed = true
  kept : ∀ fd h, r.vfs.handles fd = some h → Kept r.vfs.store (r.live fd) (r.wrote fd) h

/-! ## One call -/

variable {r : WriteRecord} {s : Vfs} {fd : ℤ}

/-- The position of a handle has moved. -/
def Moves (s : Vfs) (fd : ℤ) (s' : Vfs) : Prop :=
  s' = s ∨ ∃ h pos, s.handles fd = some h ∧ s' = s.putHandle fd { h with pos }

theorem moves_read (s : Vfs) (fd : ℤ) (n : ℕ) : Moves s fd (s.step (.read fd n)) := by
  cases hfd : s.handles fd with
  | none =>
    refine .inl ?_
    rw [Vfs.step, Vfs.read, get_bind, hfd]
    rfl
  | some h =>
    by_cases hpos : h.pos ≤ (s.dataOf h).length
    · refine .inr ⟨h, h.pos + min n ((s.dataOf h).length - h.pos), hfd, ?_⟩
      rw [Vfs.step, Vfs.read_eq hfd hpos, final]
    · refine .inl ?_
      rw [Vfs.step, Vfs.read_throws hfd (by omega), final]

theorem moves_gets (s : Vfs) (fd : ℤ) (max : ℕ) : Moves s fd (s.step (.gets fd max)) := by
  cases hfd : s.handles fd with
  | none =>
    refine .inl ?_
    rw [Vfs.step, Vfs.gets, get_bind, hfd]
    rfl
  | some h =>
    by_cases hpos : max = 0 ∨ h.pos ≥ (s.dataOf h).length
    · refine .inl ?_
      rw [Vfs.step, Vfs.gets, get_bind, hfd]
      dsimp only
      rw [if_pos hpos]
      rfl
    · refine .inr ⟨h, h.pos + (Vfs.line (max - 1) ((s.dataOf h).drop h.pos)).length, hfd, ?_⟩
      rw [Vfs.step, Vfs.gets, get_bind, hfd]
      dsimp only
      rw [if_neg hpos]
      rfl

theorem moves_seek (s : Vfs) (fd : ℤ) (pos : ℕ) : Moves s fd (s.step (.seek fd pos)) := by
  cases hfd : s.handles fd with
  | none =>
    refine .inl ?_
    simp only [Vfs.step, Vfs.seek, final_modify, hfd]
  | some h =>
    refine .inr ⟨h, min pos (s.dataOf h).length, hfd, ?_⟩
    simp only [Vfs.step, Vfs.seek, final_modify, hfd]

theorem handles_putHandle (s : Vfs) (fd fd' : ℤ) (h : Vfs.Handle) :
    (s.putHandle fd h).handles fd' = if fd' = fd then some h else s.handles fd' :=
  Function.update_apply ..

/-- A position does not matter for what was written. -/
theorem Tracks.of_moves (ht : r.Tracks) {s' : Vfs} (hmoves : Moves r.vfs fd s') :
    Tracks { r with vfs := s' } := by
  obtain rfl | ⟨h, pos, hfd, rfl⟩ := hmoves
  · exact ht
  · refine ⟨ht.observed, fun fd' h' hfd' => ?_⟩
    rw [handles_putHandle] at hfd'
    split at hfd'
    · obtain rfl := ‹fd' = fd›
      obtain rfl := Option.some.inj hfd'
      exact (ht.kept fd' h hfd).seek pos
    · exact ht.kept fd' h' hfd'

/-- A change of the store that keeps what was written through every open descriptor. -/
theorem Tracks.of_change (ht : r.Tracks) (store' : Path → Option (List UInt8))
    (live' : ℤ → ℕ → Option UInt8)
    (hchange : ∀ fd h, r.vfs.handles fd = some h → Kept r.vfs.store (r.live fd) (r.wrote fd) h →
      Kept store' (live' fd) (r.wrote fd) h) :
    Tracks { r with vfs := { r.vfs with store := store' }, live := live' } :=
  ⟨ht.observed, fun fd h hfd => hchange fd h hfd (ht.kept fd h hfd)⟩

/-- A path gets a content and the bytes written to it are given up. -/
theorem Tracks.replace (ht : r.Tracks) (path : Path) (content : List UInt8) :
    Tracks { r.replace path with
      vfs := { r.vfs with store := Function.update r.vfs.store path (some content) } } := by
  refine ht.of_change _ (r.replace path).live fun fd h hfd hk => ?_
  by_cases hpath : h.path = path
  · have hon : r.On path fd := ⟨h, hfd, hpath⟩
    refine hk.change ?_ fun i b hb => ?_
    · rw [hpath, Function.update_self]
      exact fun _ => rfl
    · simp only [WriteRecord.replace, if_pos hon] at hb
      cases hb
  · have hon : ¬r.On path fd := by
      rintro ⟨h', hfd', hpath'⟩
      obtain rfl := Option.some.inj (hfd.symm.trans hfd')
      exact hpath hpath'
    have hlive : (r.replace path).live fd = r.live fd := by
      funext i
      simp only [WriteRecord.replace, if_neg hon]
    rw [hlive]
    exact hk.congr (Function.update_of_ne hpath ..)

/-- A descriptor is opened, with nothing written through it. -/
theorem Tracks.enter (ht : r.Tracks) {h : Vfs.Handle} (fd nextFd : ℤ)
    (hstored : h.writable = true → h.dirty = true → (r.vfs.store h.path).isSome) :
    Tracks { r.forget fd with vfs := { r.vfs.putHandle fd h with nextFd } } := by
  refine ⟨ht.observed, fun fd' h' hfd' => ?_⟩
  have hfd'' : (r.vfs.putHandle fd h).handles fd' = some h' := hfd'
  rw [handles_putHandle] at hfd''
  by_cases heq : fd' = fd
  · rw [if_pos heq] at hfd''
    obtain rfl := Option.some.inj hfd''
    have hlive : (r.forget fd).live fd' = fun _ => none := by
      rw [heq]
      exact Function.update_self ..
    have hwrote : (r.forget fd).wrote fd' = false := by
      rw [heq]
      exact Function.update_self ..
    simp only [hlive, hwrote]
    exact Kept.fresh hstored
  · rw [if_neg heq] at hfd''
    have hlive : (r.forget fd).live fd' = r.live fd' := Function.update_of_ne heq ..
    have hwrote : (r.forget fd).wrote fd' = r.wrote fd' := Function.update_of_ne heq ..
    simp only [hlive, hwrote]
    exact ht.kept fd' h' hfd''

/-- Closing a descriptor reports the content of its path, and keeps the store. -/
theorem Tracks.close_eq (ht : r.Tracks) (hfd : r.vfs.handles fd = some h) :
    ∃ reports, r.vfs.step (.close fd) =
        { r.vfs with handles := Function.update r.vfs.handles fd none, reports } ∧
      (h.writable = true → h.dirty = true → ∃ content, r.vfs.store h.path = some content ∧
        reports = r.vfs.reports ++ [(h.path, content)]) := by
  by_cases htold : h.writable = true ∧ h.dirty = true
  · obtain ⟨content, hcontent⟩ :=
      Option.isSome_iff_exists.mp ((ht.kept fd h hfd).stored htold.1 htold.2)
    refine ⟨r.vfs.reports ++ [(h.path, content)], ?_, fun _ _ => ⟨content, hcontent, rfl⟩⟩
    simp only [Vfs.step, Vfs.close, final_modify, hfd, htold.1, htold.2, ht.observed, hcontent,
      Bool.and_self, if_true, Option.getD_some]
    rw [← hcontent, Function.update_eq_self]
  · refine ⟨r.vfs.reports, ?_, fun hw hd => absurd ⟨hw, hd⟩ htold⟩
    have hnot : (h.writable && h.dirty && r.vfs.observed) = false := by
      rw [ht.observed, Bool.and_true, Bool.eq_false_iff, ne_eq, Bool.and_eq_true]
      exact htold
    simp only [Vfs.step, Vfs.close, final_modify, hfd, hnot, Bool.false_eq_true, if_false]

theorem close_of_none (hfd : r.vfs.handles fd = none) : r.vfs.step (.close fd) = r.vfs := by
  simp only [Vfs.step, Vfs.close, final_modify, hfd]

theorem Tracks.handles_close (ht : r.Tracks) (fd fd' : ℤ) :
    (r.vfs.step (.close fd)).handles fd' = if fd' = fd then none else r.vfs.handles fd' := by
  cases hfd : r.vfs.handles fd with
  | none =>
    rw [close_of_none hfd]
    split
    · rw [‹fd' = fd›, hfd]
    · rfl
  | some h =>
    obtain ⟨reports, hclose, -⟩ := ht.close_eq hfd
    rw [hclose]
    exact Function.update_apply ..

theorem Tracks.store_close (ht : r.Tracks) (fd : ℤ) :
    (r.vfs.step (.close fd)).store = r.vfs.store ∧ (r.vfs.step (.close fd)).observed = true := by
  cases hfd : r.vfs.handles fd with
  | none =>
    rw [close_of_none hfd]
    exact ⟨rfl, ht.observed⟩
  | some h =>
    obtain ⟨reports, hclose, -⟩ := ht.close_eq hfd
    rw [hclose]
    exact ⟨rfl, ht.observed⟩

/-- A descriptor is closed, and what was written through it forgotten. -/
theorem Tracks.close (ht : r.Tracks) (fd : ℤ) :
    Tracks { r.forget fd with vfs := r.vfs.step (.close fd) } := by
  obtain ⟨hstore, hobserved⟩ := ht.store_close fd
  refine ⟨hobserved, fun fd' h' hfd' => ?_⟩
  rw [ht.handles_close] at hfd'
  by_cases heq : fd' = fd
  · rw [if_pos heq] at hfd'
    cases hfd'
  · rw [if_neg heq] at hfd'
    have hlive : (r.forget fd).live fd' = r.live fd' := Function.update_of_ne heq ..
    have hwrote : (r.forget fd).wrote fd' = r.wrote fd' := Function.update_of_ne heq ..
    simp only [hlive, hwrote, hstore]
    exact ht.kept fd' h' hfd'

/-- A closed descriptor is reported. -/
theorem Tracks.reported (ht : r.Tracks) {s' : Vfs}
    (hreports : s'.reports = (r.vfs.step (.close fd)).reports) : r.Reported fd s' := by
  intro h hfd hwrote
  have hk := ht.kept fd h hfd
  obtain ⟨reports, hclose, htold⟩ := ht.close_eq hfd
  obtain ⟨hwritable, hdirty⟩ := hk.wrote hwrote
  obtain ⟨content, hcontent, rfl⟩ := htold hwritable hdirty
  refine ⟨content, by rw [hreports, hclose], fun i b hb => ?_⟩
  obtain ⟨-, content', hcontent', hbyte⟩ := hk.live i b hb
  obtain rfl := Option.some.inj (hcontent.symm.trans hcontent')
  exact hbyte

/-- An unlinked path takes no byte along if no open descriptor has written to it. -/
theorem Tracks.unlink (ht : r.Tracks) {path : Path} (hkeeps : r.KeepsWritten (.unlink path)) :
    Tracks { r with vfs := r.vfs.step (.unlink path) } := by
  refine ht.of_change _ r.live fun fd h hfd hk => ?_
  by_cases hpath : h.path = path
  · have hclean (hw : h.writable = true) (hd : h.dirty = true) : False :=
      hkeeps fd h hfd hw hd hpath
    refine ⟨fun hw hd => (hclean hw hd).elim, fun i b hb => ?_, hk.wrote⟩
    obtain ⟨hw, hd⟩ := hk.wrote (hk.live i b hb).1
    exact (hclean hw hd).elim
  · exact hk.congr (Function.update_of_ne hpath ..)

/-- A byte that was there is there after a write, unless the write replaces it. -/
theorem written_keeps {old new x : List UInt8} {p i : ℕ} {b : UInt8}
    (hwritten : Vfs.Written old p x new) (hi : ¬(p ≤ i ∧ i < p + x.length))
    (hb : old[i]? = some b) : new[i]? = some b := by
  obtain ⟨hlt, -⟩ := List.getElem?_eq_some_iff.mp hb
  rw [hwritten i, if_neg hi, if_pos hlt, hb]

/-- A write keeps the bytes it does not replace, and adds its own. -/
theorem Tracks.write (ht : r.Tracks) (hfd : r.vfs.handles fd = some h)
    (hwritable : h.writable = true) (x : List UInt8) :
    Tracks { r.put fd h x with vfs := r.vfs.step (.write fd x) } := by
  have hstep : r.vfs.step (.write fd x) = _ := congrArg final (Vfs.write_eq hfd hwritable)
  rw [hstep, final]
  set new := overwrite ((r.vfs.store h.path).getD [] ++
    List.replicate (h.pos + x.length - ((r.vfs.store h.path).getD []).length) 0) h.pos x
  have hwritten : Vfs.Written ((r.vfs.store h.path).getD []) h.pos x new :=
    Vfs.written_overwrite _ _ _
  refine ⟨ht.observed, fun fd' h' hfd' => ?_⟩
  rw [handles_putHandle] at hfd'
  by_cases heq : fd' = fd
  · subst heq
    rw [if_pos rfl] at hfd'
    obtain rfl := Option.some.inj hfd'
    have hk := ht.kept fd' h hfd
    have hwrote : (r.put fd' h x).wrote fd' = (r.wrote fd' || x ≠ []) := Function.update_self ..
    have hnew : Function.update r.vfs.store h.path (some new) h.path = some new :=
      Function.update_self ..
    refine ⟨fun _ _ => congrArg Option.isSome hnew, fun i b hb => ?_, fun _ => ⟨hwritable, rfl⟩⟩
    · simp only [WriteRecord.put, if_true] at hb
      by_cases hi : h.pos ≤ i ∧ i < h.pos + x.length
      · rw [if_pos hi] at hb
        have hne : x ≠ [] := fun hnil => by simp [hnil] at hb
        refine ⟨by simp [hwrote, hne], new, hnew, ?_⟩
        rw [hwritten i, if_pos hi, hb]
      · rw [if_neg hi] at hb
        obtain ⟨hbefore, content, hcontent, hbyte⟩ := hk.live i b hb
        refine ⟨by simp [hwrote, hbefore], new, hnew, ?_⟩
        exact written_keeps hwritten hi (by rw [hcontent]; exact hbyte)
  · rw [if_neg heq] at hfd'
    have hk := ht.kept fd' h' hfd'
    have hwrote : (r.put fd h x).wrote fd' = r.wrote fd' := Function.update_of_ne heq ..
    simp only [hwrote]
    by_cases hpath : h'.path = h.path
    · have hon : r.On h.path fd' := ⟨h', hfd', hpath⟩
      have hnew : Function.update r.vfs.store h.path (some new) h'.path = some new := by
        rw [hpath]
        exact Function.update_self ..
      refine hk.change (fun _ => congrArg Option.isSome hnew) fun i b hb => ?_
      simp only [WriteRecord.put, if_neg heq, if_pos hon] at hb
      by_cases hi : h.pos ≤ i ∧ i < h.pos + x.length
      · rw [if_pos hi] at hb
        cases hb
      · rw [if_neg hi] at hb
        refine ⟨hb, fun content hcontent hbyte => ⟨new, hnew, ?_⟩⟩
        exact written_keeps hwritten hi (by rw [← hpath, hcontent]; exact hbyte)
    · have hon : ¬r.On h.path fd' := by
        rintro ⟨h'', hfd'', hpath''⟩
        obtain rfl := Option.some.inj (hfd'.symm.trans hfd'')
        exact hpath hpath''
      have hlive : (r.put fd h x).live fd' = r.live fd' := by
        funext i
        simp only [WriteRecord.put, if_neg heq, if_neg hon, ite_self]
      simp only [hlive]
      exact hk.congr (Function.update_of_ne hpath ..)

/-- Opening a path for writing gives it a content: its own, unless it has none or is truncated. -/
theorem Tracks.open_store (ht : r.Tracks) (path : Path) {content : List UInt8} {truncates : Prop}
    [Decidable truncates]
    (hcontent : ¬truncates → ∀ old, r.vfs.store path = some old → content = old) :
    Tracks { if truncates then r.replace path else r with
      vfs := { r.vfs with store := Function.update r.vfs.store path (some content) } } := by
  by_cases htrunc : truncates
  · simp only [if_pos htrunc]
    exact ht.replace path content
  · simp only [if_neg htrunc]
    refine ht.of_change _ r.live fun fd h hfd hk => ?_
    by_cases hpath : h.path = path
    · have hnew : Function.update r.vfs.store path (some content) h.path = some content := by
        rw [hpath]
        exact Function.update_self ..
      refine hk.change (fun _ => congrArg Option.isSome hnew) fun i b hb => ?_
      refine ⟨hb, fun old hold hbyte => ⟨content, hnew, ?_⟩⟩
      rw [hcontent htrunc old (hpath ▸ hold)]
      exact hbyte
    · exact hk.congr (Function.update_of_ne hpath ..)

theorem Tracks.openPath (ht : r.Tracks) (path : Path) (flags : ℕ)
    (provided : Option (List UInt8)) : (r.step (.openPath path flags provided)).Tracks := by
  have hmoved : Vfs.int32 (r.vfs.nextFd + 1) ≠ r.vfs.nextFd := Vfs.int32_succ_ne _
  have hlooks (hread : Vfs.wantsWrite flags = false) :
      (if Vfs.wantsWrite flags = true ∧ flags &&& Vfs.kTrunc ≠ 0 then r.replace path else r) = r :=
    if_neg fun h => by simp [hread] at h
  obtain ⟨hread, -, hopen⟩ | ⟨hwrite, hopen⟩ | ⟨hread, h, -, hclean, hopen⟩ :=
    r.vfs.openPath_cases path flags provided
  · have hstep : r.vfs.step (.openPath path flags provided) = r.vfs := congrArg final hopen
    simp only [WriteRecord.step, record, hstep, hlooks hread, ne_eq, not_true_eq_false, if_false]
    exact ht
  · have hstep := congrArg final hopen
    rw [final] at hstep
    have hcontent : ¬flags &&& Vfs.kTrunc ≠ 0 → ∀ old, r.vfs.store path = some old →
        r.vfs.contentFor path flags = old := by
      intro htrunc old hold
      rw [Vfs.contentFor, hold]
      exact if_neg htrunc
    simp only [WriteRecord.step, record, Vfs.step, hstep, Vfs.entered, Vfs.stored, hwrite,
      true_and, if_pos hmoved]
    exact (ht.open_store path hcontent).enter (h := r.vfs.writer path flags) r.vfs.nextFd
      (Vfs.int32 (r.vfs.nextFd + 1)) fun _ hdirty => by cases hdirty
  · have hstep := congrArg final hopen
    rw [final] at hstep
    simp only [WriteRecord.step, record, Vfs.step, hstep, Vfs.entered, hlooks hread, if_pos hmoved]
    exact ht.enter _ _ fun _ hdirty => by simp [hclean] at hdirty

theorem Tracks.dup (ht : r.Tracks) (oldFd : ℤ) : (r.step (.dup oldFd)).Tracks := by
  cases hfd : r.vfs.handles oldFd with
  | none =>
    simp only [WriteRecord.step, record, Vfs.step, Vfs.dup_none hfd, hfd, final,
      Option.isSome_none, Bool.false_eq_true, if_false]
    exact ht
  | some h =>
    simp only [WriteRecord.step, record, Vfs.step, Vfs.dup_some hfd, hfd, final,
      Option.isSome_some, if_true]
    exact ht.enter _ _ (ht.kept oldFd h hfd).stored

/-- A descriptor is closed and made a copy of another one. -/
theorem step_dup2 {oldFd newFd : ℤ} (hfd : s.handles oldFd = some h) (hne : oldFd ≠ newFd) :
    s.step (.dup2 oldFd newFd) =
      { (s.step (.close newFd)).putHandle newFd h with
        nextFd := Vfs.countPast newFd s.nextFd } := congrArg final (Vfs.dup2_some hfd hne)

theorem step_dup2_same {oldFd newFd : ℤ}
    (h : ¬((s.handles oldFd).isSome = true ∧ oldFd ≠ newFd)) : s.step (.dup2 oldFd newFd) = s := by
  cases hfd : s.handles oldFd with
  | none => exact congrArg final (Vfs.dup2_none hfd)
  | some h' =>
    have heq : oldFd = newFd := by
      by_contra hne
      exact h ⟨by rw [hfd]; rfl, hne⟩
    subst heq
    exact congrArg final (Vfs.dup2_self hfd)

theorem Tracks.dup2 (ht : r.Tracks) (oldFd newFd : ℤ) : (r.step (.dup2 oldFd newFd)).Tracks := by
  by_cases hcopies : (r.vfs.handles oldFd).isSome = true ∧ oldFd ≠ newFd
  · obtain ⟨h, hfd⟩ := Option.isSome_iff_exists.mp hcopies.1
    have hclosed := ht.close newFd
    have hfd' : (r.vfs.step (.close newFd)).handles oldFd = some h := by
      rw [ht.handles_close, if_neg hcopies.2, hfd]
    have henter := hclosed.enter newFd (Vfs.countPast newFd r.vfs.nextFd)
      (hclosed.kept oldFd h hfd').stored
    simp only [WriteRecord.step, record, if_pos hcopies, step_dup2 hfd hcopies.2]
    simp only [forget, Function.update_idem] at henter ⊢
    exact henter
  · simp only [WriteRecord.step, record, if_neg hcopies, step_dup2_same hcopies]
    exact ht

/-! ## Runs -/

/-- Every call that takes no written path away keeps the record right. -/
theorem Tracks.step (ht : r.Tracks) {c : Vfs.Call} (hkeeps : r.KeepsWritten c) :
    (r.step c).Tracks := by
  cases c with
  | addFile path content => exact ht.replace path content
  | openPath path flags provided => exact ht.openPath path flags provided
  | dup oldFd => exact ht.dup oldFd
  | dup2 oldFd newFd => exact ht.dup2 oldFd newFd
  | read fd n => exact ht.of_moves (moves_read r.vfs fd n)
  | write fd x =>
    cases hfd : r.vfs.handles fd with
    | none =>
      have hstep : r.vfs.step (.write fd x) = r.vfs := by
        rw [Vfs.step, Vfs.write, get_bind, hfd]
        rfl
      simp only [WriteRecord.step, record, hfd, hstep]
      exact ht
    | some h =>
      by_cases hwritable : h.writable = true
      · simp only [WriteRecord.step, record, hfd, if_pos hwritable]
        exact ht.write hfd hwritable x
      · have hstep : r.vfs.step (.write fd x) = r.vfs := by
          rw [Vfs.step, Vfs.write, get_bind, hfd]
          simp only [if_neg hwritable]
          rfl
        simp only [WriteRecord.step, record, hfd, if_neg hwritable, hstep]
        exact ht
  | seek fd pos => exact ht.of_moves (moves_seek r.vfs fd pos)
  | gets fd max => exact ht.of_moves (moves_gets r.vfs fd max)
  | close fd => exact ht.close fd
  | unlink path => exact ht.unlink hkeeps

theorem store_of_moves {s' : Vfs} (hmoves : Moves s fd s') : s'.store = s.store := by
  obtain rfl | ⟨h, pos, -, rfl⟩ := hmoves
  · rfl
  · rfl

/-- What a call reports and which paths it keeps. -/
theorem Tracks.captures (ht : r.Tracks) (c : Vfs.Call) : r.Captures c := by
  cases c with
  | close fd =>
    refine ⟨fun fd' hfd' => ?_, fun _ path => by rw [(ht.store_close fd).1]⟩
    obtain rfl := Option.some.inj hfd'
    exact ht.reported rfl
  | dup2 oldFd newFd =>
    refine ⟨fun fd' hfd' => ?_, nofun⟩
    simp only [closed] at hfd'
    split at hfd'
    · obtain rfl := Option.some.inj hfd'
      obtain ⟨hopen, hne⟩ := ‹_ ∧ _›
      obtain ⟨h, hfd⟩ := Option.isSome_iff_exists.mp hopen
      exact ht.reported (by rw [step_dup2 hfd hne]; rfl)
    · cases hfd'
  | read fd n => exact ⟨nofun, fun _ path => by rw [store_of_moves (moves_read r.vfs fd n)]⟩
  | seek fd pos => exact ⟨nofun, fun _ path => by rw [store_of_moves (moves_seek r.vfs fd pos)]⟩
  | gets fd max => exact ⟨nofun, fun _ path => by rw [store_of_moves (moves_gets r.vfs fd max)]⟩
  | _ => exact ⟨nofun, nofun⟩

/-- In every sequence of calls that unlinks no path while a descriptor that has written to it is
open, every descriptor through which something was written is closed with one report that has all
its bytes, and looking at the store changes no path. -/
theorem captures_of_keepsWritten (store : Path → Option (List UInt8)) (calls : List Vfs.Call)
    (h : Steps (fun r c => some (step r c)) KeepsWritten (start store) calls) :
    Steps (fun r c => some (step r c)) Captures (start store) calls := by
  refine h.imp (I := Tracks) (fun r c r' ht hkeeps hstep => ?_) ⟨rfl, nofun⟩
  obtain rfl := Option.some.inj hstep
  exact ⟨ht.step hkeeps, ht.captures c⟩

/-- Two descriptors write to one path, and both are closed. -/
theorem captures_of_keepsWritten_two :
    let calls : List Vfs.Call := [.openPath [97] 0x41 none, .write 3 [1, 2],
      .openPath [97] 0x41 none, .write 4 [3], .close 3, .close 4]
    Steps (fun r c => some (step r c)) KeepsWritten (start fun _ => none) calls ∧
      Steps (fun r c => some (step r c)) Captures (start fun _ => none) calls := by
  intro calls
  have hkeeps : Steps (fun r c => some (step r c)) KeepsWritten (start fun _ => none) calls := by
    simp only [calls, steps_cons_some]
    exact ⟨trivial, trivial, trivial, trivial, trivial, trivial, trivial⟩
  exact ⟨hkeeps, captures_of_keepsWritten _ calls hkeeps⟩

/-- A file is written, unlinked and closed. The observer is told of no byte, and the path is in the
store again. -/
theorem unlinked_bytes_lost :
    let calls : List Vfs.Call := [.openPath [97] 0x41 none, .write 3 [1, 2], .unlink [97]]
    let r := calls.foldl step (start fun _ => none)
    let s' := r.vfs.step (.close 3)
    (r.wrote 3 = true ∧ r.live 3 0 = some 1 ∧ s'.reports = [([97], [])]) ∧
      (r.vfs.store [97] = none ∧ s'.store [97] = some []) ∧
      ¬Steps (fun r c => some (step r c)) Captures (start fun _ => none) (calls ++ [.close 3]) := by
  intro calls r s'
  refine ⟨by decide +kernel, by decide +kernel, ?_⟩
  simp only [calls, List.cons_append, List.nil_append, steps_cons_some]
  rintro ⟨-, -, -, ⟨-, hpaths⟩, -⟩
  exact absurd (hpaths rfl [97]) (by decide +kernel)

end WriteRecord

end Vardoger
