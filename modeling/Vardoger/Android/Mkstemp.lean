import Vardoger.Android.AppGuest
import Vardoger.Android.VfsCalls
import Mathlib.Data.List.DropRight

/-!
# Temporary files

`mkstemp` replaces the last run of `X` in the template, and all that follows it, by the decimal
text of a counter. It does not look whether the path it forms is taken, so an existing file can be
emptied and shared. Nor does it look how long the run is, so a large counter is written past the end
of the template. Of a template with more than 4096 bytes it sees the first ones only.
-/

namespace Vardoger

open Bytes Words Patches Stateful

namespace AppGuest

/-- `std::to_string` of an `int`. -/
def intText (n : ℤ) : List UInt8 := if n < 0 then 0x2d :: decimal n.natAbs else decimal n.natAbs

/-- The last index below `n` whose byte passes a test. -/
def findLast (p : UInt8 → Bool) (x : List UInt8) : ℕ → Option ℕ
  | 0 => none
  | i + 1 => if x[i]?.any p then some i else findLast p x i

/-- The index behind one that was found. -/
def behind : Option ℕ → ℕ
  | none => 0
  | some i => i + 1

/-- Put the suffix in the place of the last run of `X`, in the path and in the template. -/
def fillTemplate (tmpl : ℕ) (path : Path) (suffix : List UInt8) : AppM Path :=
  match findLast (· = 0x58) path path.length with
  | none => return path
  | some xpos => do
      let start := behind (findLast (· ≠ 0x58) path (xpos + 1))
      let path := path.take start ++ suffix
      write (add64 tmpl start) (path.drop start ++ [0])
      return path

/-- Store an empty file, open it and return the descriptor. -/
def openEmpty (path : Path) : AppM Unit := do
  onVfs (Vfs.addFile path [])
  let fd ← onVfs (Vfs.openPath path (Vfs.kRdWr ||| Vfs.kCreat) none)
  writeReg .ret0 ((if fd ≠ 0 then fd else -1) % 2 ^ 64).toNat

def mkstemp : AppM Unit := do
  let tmpl ← readReg .a0
  let path ← readCstr tmpl
  let suffix := intText (← get).mkstempSeq
  modify fun w => { w with mkstempSeq := Vfs.int32 (w.mkstempSeq + 1) }
  let path ← fillTemplate tmpl path suffix
  openEmpty path

/-! ## The path -/

/-- A path without its last run of `X` and what follows it. -/
def stem (path : Path) : Path := (path.rdropWhile (· ≠ 0x58)).rdropWhile (· = 0x58)

variable {p : UInt8 → Bool} {x t : List UInt8} {n : ℕ}

theorem behind_findLast_le : behind (findLast p x n) ≤ n := by
  induction n with
  | zero => exact le_rfl
  | succ n ih =>
    rw [findLast]
    split
    · exact le_rfl
    · omega

theorem lt_of_findLast {i : ℕ} (h : findLast p x n = some i) : i < n := by
  have hle := behind_findLast_le (p := p) (x := x) (n := n)
  rwa [h] at hle

/-- The search from the end stops where dropping from the end stops. -/
theorem take_behind_findLast (hn : n ≤ x.length) :
    x.take (behind (findLast p x n)) = (x.take n).rdropWhile (fun b => !p b) := by
  induction n with
  | zero => rfl
  | succ n ih =>
    have hlt : n < x.length := hn
    rw [findLast, List.getElem?_eq_getElem hlt, Option.any_some, List.take_add_one,
      List.getElem?_eq_getElem hlt, Option.toList_some, List.rdropWhile_concat]
    cases hp : p x[n] with
    | true =>
      rw [if_pos rfl, if_neg (by simp), behind, List.take_add_one, List.getElem?_eq_getElem hlt,
        Option.toList_some]
    | false =>
      rw [if_neg (by simp), if_pos (by simp), ih (by omega)]

theorem findLast_eq_none (hx : ∀ b ∈ x, p b = false) : findLast p x n = none := by
  induction n with
  | zero => rfl
  | succ n ih =>
    rw [findLast, ih, if_neg]
    cases hget : x[n]? with
    | none => simp
    | some b => simp [hx b (List.mem_of_getElem? hget)]

theorem stem_starts (x : List UInt8) : stem x <+: x :=
  (List.rdropWhile_prefix _ _).trans (List.rdropWhile_prefix _ _)

/-- What stands before the run of `X` that the code finds. -/
theorem take_start {xpos : ℕ} (h : findLast (· = 0x58) x x.length = some xpos) :
    x.take (behind (findLast (· ≠ 0x58) x (xpos + 1))) = stem x := by
  have hupTo := take_behind_findLast (p := (· = 0x58)) (le_refl x.length)
  rw [h, List.take_length] at hupTo
  rw [take_behind_findLast (lt_of_findLast h)]
  change (x.take (behind (some xpos))).rdropWhile _ = _
  rw [hupTo, stem]
  simp only [decide_not, Bool.not_not]

theorem length_start {xpos : ℕ} (h : findLast (· = 0x58) x x.length = some xpos) :
    behind (findLast (· ≠ 0x58) x (xpos + 1)) = (stem x).length := by
  have hlt := lt_of_findLast h
  rw [← take_start h, List.length_take]
  exact (Nat.min_eq_left (behind_findLast_le.trans hlt)).symm

/-- A path with an `X` has a last one. -/
theorem exists_findLast (h : 0x58 ∈ x) : ∃ xpos, findLast (· = 0x58) x x.length = some xpos := by
  cases hfind : findLast (· = 0x58) x x.length with
  | some xpos => exact ⟨xpos, rfl⟩
  | none =>
    have hnil := take_behind_findLast (p := (· = 0x58)) (le_refl x.length)
    rw [hfind, behind, List.take_zero, List.take_length] at hnil
    have hall := List.rdropWhile_eq_nil_iff.mp hnil.symm 0x58 h
    simp at hall

theorem zero_not_mem_intText (n : ℤ) : 0 ∉ intText n := by
  have hdecimal : ∀ k, 0 ∉ decimal k := fun k h => absurd (mem_decimal h).1 (by decide)
  unfold intText
  split
  · intro h
    obtain h | h := List.mem_cons.mp h
    · cases h
    · exact hdecimal _ h
  · exact hdecimal _

/-! ## What the function does -/

variable {w : AppGuest} {tmpl : ℕ} {path suffix : List UInt8}

/-- Without an `X` the path stays as it is. -/
theorem fillTemplate_of_not_mem (h : 0x58 ∉ path) :
    fillTemplate tmpl path suffix w = .ok path w := by
  have hnone : findLast (· = 0x58) path path.length = none := by
    apply findLast_eq_none
    intro b hb
    have hne : b ≠ 0x58 := fun heq => h (heq ▸ hb)
    exact decide_eq_false hne
  rw [fillTemplate, hnone]
  rfl

theorem fillTemplate_of_mem (h : 0x58 ∈ path) :
    fillTemplate tmpl path suffix w =
      (do write (add64 tmpl (stem path).length) (suffix ++ [0]); return stem path ++ suffix) w := by
  obtain ⟨xpos, hxpos⟩ := exists_findLast h
  rw [fillTemplate, hxpos]
  dsimp only
  rw [take_start hxpos, length_start hxpos, List.drop_left]

/-- The counter is written behind the stem. -/
theorem fillTemplate_ok (h : 0x58 ∈ path) (haccess : w.mem.engine.Accessible
      (add64 tmpl (stem path).length) (suffix ++ [0]).length) :
    fillTemplate tmpl path suffix w = .ok (stem path ++ suffix)
      { w with mem := w.mem.setBytes (add64 tmpl (stem path).length) (suffix ++ [0]) } := by
  rw [fillTemplate_of_mem h, write, bind_ok (onMem_ok (Memory.write_eq haccess))]
  rfl

theorem fillTemplate_error (h : 0x58 ∈ path) (haccess : ¬w.mem.engine.Accessible
      (add64 tmpl (stem path).length) (suffix ++ [0]).length) :
    fillTemplate tmpl path suffix w = .error (.engine "uc_mem_write") w := by
  have hwrite : Memory.write (add64 tmpl (stem path).length) (suffix ++ [0]) w.mem =
      .error (.engine "uc_mem_write") w.mem := by
    rw [Memory.write, Memory.onEngine, Engine.write, if_neg haccess]
  rw [fillTemplate_of_mem h, write, bind_error (onMem_error hwrite)]

theorem openEmpty_eq (path : Path) (w : AppGuest) :
    ∃ v, openEmpty path w = .ok () { w with
      mem := w.mem.setRet v
      vfs := Vfs.entered { path, writable := true } (w.vfs.stored path []) } := by
  have hadd : onVfs (Vfs.addFile path []) w = .ok () { w with vfs := w.vfs.stored path [] } :=
    onVfs_ok rfl
  have hcontent : (w.vfs.stored path []).contentFor path (Vfs.kRdWr ||| Vfs.kCreat) = [] := by
    have hstored : (w.vfs.stored path []).store path = some [] := Function.update_self ..
    rw [Vfs.contentFor, hstored]
    rfl
  have hopen : Vfs.openPath path (Vfs.kRdWr ||| Vfs.kCreat) none (w.vfs.stored path []) =
      .ok w.vfs.nextFd (Vfs.entered { path, writable := true } (w.vfs.stored path [])) := by
    rw [Vfs.openPath_write (by decide), hcontent, Vfs.stored, Vfs.stored, Function.update_idem]
    rfl
  refine ⟨((if w.vfs.nextFd ≠ 0 then w.vfs.nextFd else -1) % 2 ^ 64).toNat, ?_⟩
  rw [openEmpty, bind_ok hadd, bind_ok (onVfs_ok hopen), writeReg_ret0]

/-- The part of the function in front of the file system. -/
theorem mkstemp_eq (habi : w.mem.engine.abi ≠ .x86)
    (ht : w.mem.engine.IsCstr (w.mem.engine.arg 0) t) :
    mkstemp w = (fillTemplate (w.mem.engine.arg 0) (t.take kCstrMax) (intText w.mkstempSeq) >>=
      openEmpty) { w with mkstempSeq := Vfs.int32 (w.mkstempSeq + 1) } := by
  rw [mkstemp, readReg, bind_ok (onMem_ok (Memory.readReg_a0 habi)), readCstr,
    bind_ok (onMem_ok (Memory.readCstr_eq ht)), get_bind, modify_bind]

theorem mkstemp_x86 (habi : w.mem.engine.abi = .x86) : ∃ err w', mkstemp w = .error err w' := by
  obtain ⟨err, herr⟩ := Memory.readReg_x86 (m := w.mem) (.inl rfl) habi
  exact ⟨err, w, bind_error (onMem_error herr)⟩

/-! ## New files -/

/-- The call on the template `t` returns, the path that it opens was not stored before, every stored
file keeps its content, the template names the path, and no byte outside of the template and its
terminator changes. -/
def CreatesNew (w : AppGuest) (t : Path) : Prop :=
  ∃ w' h, mkstemp w = .ok () w' ∧ w'.vfs.handles w.vfs.nextFd = some h ∧
    w.vfs.store h.path = none ∧
    (∀ p content, w.vfs.store p = some content → w'.vfs.store p = some content) ∧
    (0 ∉ h.path ∧ w'.mem.engine.Holds (w.mem.engine.arg 0) (h.path ++ [0])) ∧
    ∀ a, a < w.mem.engine.arg 0 ∨ w.mem.engine.arg 0 + t.length < a →
      w'.mem.engine.byte a = w.mem.engine.byte a

/-- The path that the function forms from a template. -/
def tempPath (w : AppGuest) (t : Path) : Path :=
  stem (t.take kCstrMax) ++ intText w.mkstempSeq

/-- The new descriptor. -/
theorem entered_handles (h : Vfs.Handle) (v : Vfs) (content : List UInt8) :
    (Vfs.entered h (v.stored h.path content)).handles v.nextFd = some h :=
  Function.update_self ..

/-- What is left to show of a call that returned. -/
theorem createsNew_of_run {w₁ : AppGuest} {m : Memory}
    (hfill : fillTemplate (w.mem.engine.arg 0) (t.take kCstrMax) (intText w.mkstempSeq)
      { w with mkstempSeq := Vfs.int32 (w.mkstempSeq + 1) } = .ok path w₁)
    (hw₁ : w₁ = { w with mem := m, mkstempSeq := Vfs.int32 (w.mkstempSeq + 1) })
    (habi : w.mem.engine.abi ≠ .x86) (ht : w.mem.engine.IsCstr (w.mem.engine.arg 0) t) :
    CreatesNew w t ↔ w.vfs.store path = none ∧
      (0 ∉ path ∧ m.engine.Holds (w.mem.engine.arg 0) (path ++ [0])) ∧
      ∀ a, a < w.mem.engine.arg 0 ∨ w.mem.engine.arg 0 + t.length < a →
        m.engine.byte a = w.mem.engine.byte a := by
  obtain ⟨v, hopen⟩ := openEmpty_eq path w₁
  have hrun := (mkstemp_eq habi ht).trans ((bind_ok hfill).trans hopen)
  rw [hw₁] at hrun
  constructor
  · rintro ⟨w', h, hcall, hhandle, hnew, -, hnames, hframe⟩
    obtain ⟨-, rfl⟩ := EStateM.Result.ok.inj (hrun.symm.trans hcall)
    rw [entered_handles] at hhandle
    obtain rfl := Option.some.inj hhandle
    exact ⟨hnew, hnames, hframe⟩
  · rintro ⟨hnew, hnames, hframe⟩
    refine ⟨_, { path, writable := true }, hrun, entered_handles .., hnew, ?_, hnames, hframe⟩
    intro p content hp
    have hne : p ≠ path := by
      rintro rfl
      rw [hnew] at hp
      cases hp
    exact (Function.update_of_ne hne ..).trans hp

/-- A byte behind the start of a write is one of those written, or is left alone. -/
theorem byte_setBytes_of_le {e : Engine} {a b : ℕ} (hab : a ≤ b) :
    (e.setBytes a x).byte b = x.getD (b - a) (e.byte b) := by
  rw [Engine.byte_setBytes, put, if_pos hab]

/-- Bytes are written from within a range on, and nothing outside of the range changes, exactly if
what does not fit into the range stands behind it already. -/
theorem written_within_iff {e : Engine} {a k : ℕ} (hrange : e.Accessible a n) (hk : k ≤ n) :
    (e.Accessible (a + k) x.length ∧
        ∀ b, b < a ∨ a + n ≤ b → (e.setBytes (a + k) x).byte b = e.byte b) ↔
      e.Holds (a + n) (x.drop (n - k)) := by
  obtain ⟨hfits, hmapped⟩ := hrange
  rw [Engine.Holds, List.length_drop]
  constructor
  · rintro ⟨⟨hfits', hmapped'⟩, hframe⟩
    refine ⟨⟨by omega, fun i hi => ?_⟩, List.ext_getElem (by simp) fun i hi _ => ?_⟩
    · have hi' := hmapped' (n - k + i) (by omega)
      rwa [show a + k + (n - k + i) = a + n + i by omega] at hi'
    · have hlt : n - k + i < x.length := by
        rw [length_slice] at hi
        omega
      have hbyte := hframe (a + n + i) (.inr (by omega))
      rw [byte_setBytes_of_le (by omega), show a + n + i - (a + k) = n - k + i by omega,
        List.getD_eq_getElem _ _ hlt] at hbyte
      simp only [slice, List.getElem_map, List.getElem_range, List.getElem_drop]
      exact hbyte.symm
  · rintro ⟨⟨hfits', hmapped'⟩, hslice⟩
    refine ⟨⟨by omega, fun i hi => ?_⟩, ?_⟩
    · by_cases hin : k + i < n
      · rw [Nat.add_assoc]
        exact hmapped (k + i) hin
      · have hi' := hmapped' (k + i - n) (by omega)
        rwa [show a + n + (k + i - n) = a + k + i by omega] at hi'
    · rintro b (hb | hb)
      · rw [Engine.byte_setBytes, put, if_neg (by omega)]
      · rw [byte_setBytes_of_le (by omega)]
        by_cases hlt : b - (a + k) < x.length
        · have hget := congrArg (fun l => l[b - (a + n)]?) hslice
          simp only [slice, List.getElem?_map, List.getElem?_range (show b - (a + n) <
            x.length - (n - k) by omega), Option.map_some, List.getElem?_drop] at hget
          rw [show a + n + (b - (a + n)) = b by omega,
            show n - k + (b - (a + n)) = b - (a + k) by omega,
            List.getElem?_eq_getElem hlt] at hget
          rw [List.getD_eq_getElem _ _ hlt]
          exact (Option.some.inj hget).symm
        · exact List.getD_eq_default _ _ (by omega)

/-- The template starts with the stem, and the counter is written behind it. -/
theorem holds_tempPath {e : Engine} {a : ℕ} (ht : e.Holds a (t ++ [0]))
    (haccess : e.Accessible (a + (stem (t.take n)).length) (suffix ++ [0]).length) :
    (e.setBytes (a + (stem (t.take n)).length) (suffix ++ [0])).Holds a
      (stem (t.take n) ++ suffix ++ [0]) := by
  have hstem : stem (t.take n) <+: t ++ [0] :=
    (stem_starts _).trans ((List.take_prefix _ _).trans (List.prefix_append _ _))
  have hfront : e.Holds a (stem (t.take n)) := by
    rw [List.prefix_iff_eq_take.mp hstem]
    exact ht.take _
  rw [List.append_assoc, Engine.holds_append (by simp)]
  exact ⟨hfront.setBytes (.inr le_rfl), Engine.holds_setBytes haccess⟩

/-- The call on a template with an `X` in its copy. -/
theorem createsNew_iff_of_mem (ht : w.mem.engine.IsCstr (w.mem.engine.arg 0) t)
    (habi : w.mem.engine.abi ≠ .x86) (hmem : 0x58 ∈ t.take kCstrMax) :
    CreatesNew w t ↔ w.vfs.store (w.tempPath t) = none ∧
      w.mem.engine.Holds (w.mem.engine.arg 0 + (t.length + 1))
        ((w.tempPath t ++ [0]).drop (t.length + 1)) := by
  have hrange : w.mem.engine.Accessible (w.mem.engine.arg 0) (t.length + 1) := by
    simpa using ht.holds.1
  have hk : (stem (t.take kCstrMax)).length ≤ t.length :=
    (stem_starts _).length_le.trans (List.length_take_le' ..)
  have hadd : add64 (w.mem.engine.arg 0) (stem (t.take kCstrMax)).length =
      w.mem.engine.arg 0 + (stem (t.take kCstrMax)).length := by
    have hfits := hrange.1
    exact add64_of_lt (by omega)
  have hbehind : (w.tempPath t ++ [0]).drop (t.length + 1) =
      (intText w.mkstempSeq ++ [0]).drop (t.length + 1 - (stem (t.take kCstrMax)).length) := by
    rw [tempPath, List.append_assoc, List.drop_append, List.drop_eq_nil_of_le (by omega),
      List.nil_append]
  have hwithin := written_within_iff (x := intText w.mkstempSeq ++ [0]) hrange (hk.trans (by omega))
  rw [hbehind, ← hwithin, ← hadd]
  by_cases haccess : w.mem.engine.Accessible
      (add64 (w.mem.engine.arg 0) (stem (t.take kCstrMax)).length)
      (intText w.mkstempSeq ++ [0]).length
  · have hzero : 0 ∉ w.tempPath t := by
      rw [tempPath, List.mem_append, not_or]
      refine ⟨fun h => ht.nonzero ?_, zero_not_mem_intText _⟩
      exact List.mem_of_mem_take ((stem_starts _).subset h)
    rw [createsNew_of_run (fillTemplate_ok hmem haccess) rfl habi ht]
    constructor
    · rintro ⟨hnew, -, hframe⟩
      exact ⟨hnew, haccess, hframe⟩
    · rintro ⟨hnew, -, hframe⟩
      refine ⟨hnew, ⟨hzero, ?_⟩, hframe⟩
      rw [hadd] at haccess ⊢
      exact holds_tempPath ht.holds haccess
  · refine iff_of_false ?_ (fun h => haccess h.2.1)
    rintro ⟨w', h, hrun, -⟩
    have herr := (mkstemp_eq habi ht).trans (bind_error (fillTemplate_error hmem haccess))
    rw [herr] at hrun
    cases hrun

/-- `mkstemp` creates a new file exactly if the guest passes arguments in registers, the template
has an `X` among its first 4096 bytes, the path that is formed is not stored, and what of it does
not fit into the template stands behind the template already. -/
theorem mkstemp_createsNew_iff (w : AppGuest) (t : Path)
    (ht : w.mem.engine.IsCstr (w.mem.engine.arg 0) t) (hends : List.replicate 6 0x58 <:+ t) :
    CreatesNew w t ↔ w.mem.engine.abi ≠ .x86 ∧ 0x58 ∈ t.take kCstrMax ∧
      w.vfs.store (w.tempPath t) = none ∧
      w.mem.engine.Holds (w.mem.engine.arg 0 + (t.length + 1))
        ((w.tempPath t ++ [0]).drop (t.length + 1)) := by
  by_cases habi : w.mem.engine.abi = .x86
  · obtain ⟨err, w', herr⟩ := mkstemp_x86 habi
    refine iff_of_false ?_ (fun h => h.1 habi)
    rintro ⟨_, _, hrun, -⟩
    rw [herr] at hrun
    cases hrun
  by_cases hmem : 0x58 ∈ t.take kCstrMax
  · rw [createsNew_iff_of_mem ht habi hmem]
    exact ⟨fun h => ⟨habi, hmem, h⟩, fun h => h.2.2⟩
  · -- The copy is opened as it is, and it is not the whole template.
    have hrun := createsNew_of_run (m := w.mem) (fillTemplate_of_not_mem hmem) rfl habi ht
    rw [hrun]
    refine iff_of_false ?_ (fun h => hmem h.2.1)
    rintro ⟨-, ⟨hzero, hholds⟩, -⟩
    have heq := hholds.cstr_unique ht.holds hzero ht.nonzero
    rw [heq] at hmem
    exact hmem (hends.subset (by simp))

/-- A guest with a template in its memory. -/
def templateGuest (t : Path) (store : Path → Option (List UInt8)) : AppGuest where
  mem :=
    { Memory.init .arm64 false false with
      engine := (((Engine.fresh .arm64).mapPages 0x1000 0x1000 3).setBytes 0x1000
        (t ++ [0])).writeUcReg (.arm64X 0) 0x1000 }
  vfs := { store }

theorem mkstemp_createsNew_fresh :
    CreatesNew (templateGuest (ascii "/tmp/fooXXXXXX") fun _ => none) (ascii "/tmp/fooXXXXXX") :=
  (mkstemp_createsNew_iff _ _ ⟨by decide, by decide +kernel, by decide⟩
    ⟨ascii "/tmp/foo", by decide⟩).mpr ⟨by decide, by decide, rfl, by decide +kernel⟩

/-- The file `/tmp/foo0` is taken, and is emptied. -/
theorem mkstemp_takes_stored :
    ¬CreatesNew (templateGuest (ascii "/tmp/fooXXXXXX")
        fun p => if p = ascii "/tmp/foo0" then some [7] else none) (ascii "/tmp/fooXXXXXX") ∧
      (final (mkstemp (templateGuest (ascii "/tmp/fooXXXXXX")
        fun p => if p = ascii "/tmp/foo0" then some [7] else none))).vfs.store
          (ascii "/tmp/foo0") = some [] := by
  constructor
  · rw [createsNew_iff_of_mem ⟨by decide, by decide +kernel, by decide⟩ (by decide) (by decide)]
    exact fun h => absurd h.1 (by decide +kernel)
  · decide +kernel

end AppGuest

end Vardoger
