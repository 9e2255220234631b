import Vardoger.Jni.HandleTable

/-!
# The handles of methods and fields

Members are cached under a key in which the name of the class, two letters, the name and the
signature of the member stand with a bar between them. Lookups with the same key return the same
handle, whatever they asked for, so the handles are faithful where the key can be taken apart again.
-/

namespace Vardoger

open Stateful Bytes

namespace JavaRuntime

/-- What a lookup asks for. -/
structure Member where
  owner : List UInt8
  isMethod : Bool
  isStatic : Bool
  name : List UInt8
  sig : List UInt8
  deriving DecidableEq, Repr

namespace Member

/-- The key of the cache. -/
def key (m : Member) : List UInt8 :=
  memberKey m.owner (if m.isMethod then "M" else "F") m.isStatic m.name m.sig

def kind (m : Member) : RecordKind := if m.isMethod then .method else .field

/-- The record that is made for the member. -/
def record (m : Member) : Record :=
  { kind := m.kind, name := m.name, sig := m.sig, owner := m.owner, isStatic := m.isStatic }

/-- Neither the class nor the member has a bar in its name. -/
def Plain (m : Member) : Prop := 0x7c ∉ m.owner ∧ 0x7c ∉ m.name

instance (m : Member) : Decidable m.Plain := inferInstanceAs (Decidable (_ ∧ _))

end Member

/-- The accessors of methods and of fields give back what was asked for. -/
def GivesBack (s : JavaRuntime) (m : Member) (h : BitVec 64) : Prop :=
  if m.isMethod then s.methodName h = m.name ∧ s.methodSig h = m.sig
  else s.fieldName h = m.name ∧ s.fieldOwner h = m.owner

/-- The calls in question. -/
inductive MemberCall
  | findClass (name : List UInt8)
  | getMethodId (clazz : BitVec 64) (name sig : List UInt8) (isStatic : Bool)
  | getFieldId (clazz : BitVec 64) (name sig : List UInt8) (isStatic : Bool)

namespace MemberCall

/-- The member that a call asks for. -/
def asks (s : JavaRuntime) : MemberCall → Option Member
  | .findClass _ => none
  | .getMethodId clazz name sig isStatic => some ⟨s.className clazz, true, isStatic, name, sig⟩
  | .getFieldId clazz name sig isStatic => some ⟨s.className clazz, false, isStatic, name, sig⟩

def run : MemberCall → JavaM (BitVec 64)
  | .findClass name => JavaRuntime.findClass name
  | .getMethodId clazz name sig isStatic => JavaRuntime.getMethodId clazz name sig isStatic
  | .getFieldId clazz name sig isStatic => JavaRuntime.getFieldId clazz name sig isStatic

end MemberCall

/-- The runtime and the lookups so far, each with the handle it returned. -/
structure Lookups where
  jrt : JavaRuntime
  log : List (Member × BitVec 64) := []

namespace Lookups

/-- Make a call; one that throws leaves no entry. -/
def step (w : Lookups) (c : MemberCall) : Lookups :=
  match c.run w.jrt with
  | .ok h s => ⟨s, w.log ++ ((c.asks w.jrt).map (·, h)).toList⟩
  | .error _ s => ⟨s, w.log⟩

/-- A run of calls on a fresh runtime. -/
def after (m : Memory) (calls : List MemberCall) : Lookups := calls.foldl step ⟨{ mem := m }, []⟩

/-- Any two lookups return the same handle if and only if they ask for the same member, and the
accessors give back what was asked for. -/
def Faithful (w : Lookups) : Prop :=
  (∀ l ∈ w.log, ∀ l' ∈ w.log, l.2 = l'.2 ↔ l.1 = l'.1) ∧ ∀ l ∈ w.log, w.jrt.GivesBack l.1 l.2

end Lookups

/-! ## The keys -/

theorem append_bar_inj {x x' y y' : List UInt8} (hx : 0x7c ∉ x) (hx' : 0x7c ∉ x')
    (h : x ++ 0x7c :: y = x' ++ 0x7c :: y') : x = x' ∧ y = y' := by
  induction x generalizing x' with
  | nil =>
    cases x' with
    | nil => exact ⟨rfl, List.tail_eq_of_cons_eq h⟩
    | cons c x' => exact absurd (List.head_eq_of_cons_eq h).symm fun hc => hx' (by simp [hc])
  | cons c x ih =>
    cases x' with
    | nil => exact absurd (List.head_eq_of_cons_eq h) fun hc => hx (by simp [hc])
    | cons c' x' =>
      obtain ⟨rfl, hrest⟩ := List.cons_eq_cons.mp h
      obtain ⟨rfl, rfl⟩ := ih (fun hmem => hx (by simp [hmem])) (fun hmem => hx' (by simp [hmem]))
        hrest
      exact ⟨rfl, rfl⟩

theorem Member.key_eq (m : Member) :
    m.key = m.owner ++ 0x7c :: ((if m.isStatic then 0x53 else 0x76) ::
      (if m.isMethod then 0x4d else 0x46) :: 0x7c :: (m.name ++ 0x7c :: m.sig)) := by
  obtain ⟨owner, isMethod, isStatic, name, sig⟩ := m
  cases isMethod <;> cases isStatic <;>
    simp [key, memberKey, ascii]

/-- Without bars in the names, a key can be taken apart. -/
theorem Member.Plain.eq_of_key_eq {m m' : Member} (hm : m.Plain) (hm' : m'.Plain)
    (h : m.key = m'.key) : m = m' := by
  rw [Member.key_eq, Member.key_eq] at h
  obtain ⟨howner, hrest⟩ := append_bar_inj hm.1 hm'.1 h
  obtain ⟨hstatic, hrest⟩ := List.cons_eq_cons.mp hrest
  obtain ⟨hmethod, hrest⟩ := List.cons_eq_cons.mp hrest
  obtain ⟨-, hrest⟩ := List.cons_eq_cons.mp hrest
  obtain ⟨hname, hsig⟩ := append_bar_inj hm.2 hm'.2 hrest
  have hstatic' : m.isStatic = m'.isStatic := by
    revert hstatic
    cases m.isStatic <;> cases m'.isStatic <;> simp
  have hmethod' : m.isMethod = m'.isMethod := by
    revert hmethod
    cases m.isMethod <;> cases m'.isMethod <;> simp
  obtain ⟨owner, isMethod, isStatic, name, sig⟩ := m
  simp_all

/-! ## Runs -/

/-- A lookup finds the member under its key, or makes a record for it; or there is no room. -/
theorem MemberCall.run_cases {s : JavaRuntime} (hs : Table s) {c : MemberCall} {m : Member}
    (hasks : c.asks s = some m) :
    (∃ err s', c.run s = .error err s' ∧ Table s' ∧ Later s s' ∧
        s'.memberCache = s.memberCache) ∨
      (∃ h, s.memberCache m.key = some h ∧ c.run s = .ok h s) ∨
      ∃ h s', c.run s = .ok h s' ∧ Table s' ∧ Later s s' ∧ s.memberCache m.key = none ∧
        s'.memberCache = Function.update s.memberCache m.key (some h) ∧ s.handles h = none ∧
        s'.handles h = some m.record := by
  cases c with
  | findClass name => cases hasks
  | getMethodId clazz name sig isStatic =>
    obtain rfl := Option.some.inj hasks
    exact memberId_table hs (.inl rfl) "M" clazz name sig isStatic
  | getFieldId clazz name sig isStatic =>
    obtain rfl := Option.some.inj hasks
    exact memberId_table hs (.inr rfl) "F" clazz name sig isStatic

namespace Lookups

/-- The cache has the key of every lookup so far and no other, with the record of a lookup that had
this key. -/
structure Inv (w : Lookups) : Prop where
  table : Table w.jrt
  logged : ∀ l ∈ w.log, w.jrt.memberCache l.1.key = some l.2
  cached : ∀ key h, w.jrt.memberCache key = some h → ∃ m, (m, h) ∈ w.log ∧ m.key = key ∧
    ∃ r, w.jrt.handles h = some r ∧ SameRecord m.record r

variable {w : Lookups}

/-- A step that leaves the cache and the log alone. -/
theorem Inv.later (hw : Inv w) {s : JavaRuntime} (htable : Table s) (hlater : Later w.jrt s)
    (hcache : s.memberCache = w.jrt.memberCache) : Inv ⟨s, w.log⟩ := by
  refine ⟨htable, fun l hl => hlater.members _ _ (hw.logged l hl), fun key h hkey => ?_⟩
  rw [show (⟨s, w.log⟩ : Lookups).jrt.memberCache = w.jrt.memberCache from hcache] at hkey
  obtain ⟨m, hmem, hmkey, r, hr, hsame⟩ := hw.cached key h hkey
  obtain ⟨r', hr', hsame'⟩ := hlater.records h r hr
  exact ⟨m, hmem, hmkey, r', hr', hsame.trans hsame'⟩

/-- A lookup that finds its key in the cache. -/
theorem Inv.found (hw : Inv w) {m : Member} {h : BitVec 64}
    (hkey : w.jrt.memberCache m.key = some h) : Inv ⟨w.jrt, w.log ++ [(m, h)]⟩ := by
  refine ⟨hw.table, fun l hl => ?_, fun key h' hkey' => ?_⟩
  · rcases List.mem_append.mp hl with hl | hl
    · exact hw.logged l hl
    · obtain rfl := List.mem_singleton.mp hl
      exact hkey
  · obtain ⟨m', hmem, hrest⟩ := hw.cached key h' hkey'
    exact ⟨m', List.mem_append_left _ hmem, hrest⟩

/-- A lookup that makes a record. -/
theorem Inv.made (hw : Inv w) {m : Member} {h : BitVec 64} {s : JavaRuntime} (htable : Table s)
    (hlater : Later w.jrt s)
    (hcache : s.memberCache = Function.update w.jrt.memberCache m.key (some h))
    (hrecord : s.handles h = some m.record) : Inv ⟨s, w.log ++ [(m, h)]⟩ := by
  refine ⟨htable, fun l hl => ?_, fun key h' hkey' => ?_⟩
  · rcases List.mem_append.mp hl with hl | hl
    · exact hlater.members _ _ (hw.logged l hl)
    · obtain rfl := List.mem_singleton.mp hl
      change s.memberCache m.key = some h
      rw [hcache, Function.update_self]
  · change s.memberCache key = some h' at hkey'
    rw [hcache] at hkey'
    by_cases hkey : key = m.key
    · subst hkey
      rw [Function.update_self] at hkey'
      obtain rfl := Option.some.inj hkey'
      exact ⟨m, by simp, rfl, m.record, hrecord, .refl _⟩
    · rw [Function.update_of_ne hkey] at hkey'
      obtain ⟨m', hmem, hmkey, r, hr, hsame⟩ := hw.cached key h' hkey'
      obtain ⟨r', hr', hsame'⟩ := hlater.records h' r hr
      exact ⟨m', List.mem_append_left _ hmem, hmkey, r', hr', hsame.trans hsame'⟩

theorem Inv.step (hw : Inv w) (c : MemberCall) : Inv (w.step c) := by
  unfold Lookups.step
  cases hasks : c.asks w.jrt with
  | none =>
    obtain ⟨name, rfl⟩ : ∃ name, c = .findClass name := by
      cases c with
      | findClass name => exact ⟨name, rfl⟩
      | getMethodId clazz name sig isStatic => cases hasks
      | getFieldId clazz name sig isStatic => cases hasks
    rcases findClass_table hw.table name with
      ⟨err, s, hrun, htable, hlater, hcache⟩ | ⟨h, s, hrun, htable, hlater, hcache, -⟩
    · rw [MemberCall.run, hrun]
      exact hw.later htable hlater hcache
    · rw [MemberCall.run, hrun]
      simpa only [Option.map_none, Option.toList_none, List.append_nil] using
        hw.later htable hlater hcache
  | some m =>
    rcases MemberCall.run_cases hw.table hasks with ⟨err, s, hrun, htable, hlater, hcache⟩ |
      ⟨h, hkey, hrun⟩ | ⟨h, s, hrun, htable, hlater, -, hcache, -, hrecord⟩
    · rw [hrun]
      exact hw.later htable hlater hcache
    · rw [hrun]
      exact hw.found hkey
    · rw [hrun]
      exact hw.made htable hlater hcache hrecord

theorem inv_after {m : Memory} (hm : m.JavaOk) (calls : List MemberCall) : Inv (after m calls) := by
  have hstart : Inv ⟨{ mem := m }, []⟩ :=
    ⟨table_init hm, fun _ hl => absurd hl List.not_mem_nil, fun _ _ hkey => by cases hkey⟩
  exact foldl_keeps (I := Inv) (fun _ c hw => hw.step c) hstart calls

/-- Two lookups return the same handle if and only if they have the same key. -/
theorem Inv.handle_eq_iff (hw : Inv w) {l l' : Member × BitVec 64} (hl : l ∈ w.log)
    (hl' : l' ∈ w.log) : l.2 = l'.2 ↔ l.1.key = l'.1.key := by
  constructor
  · intro heq
    obtain ⟨m, -, hkey, r, hr, hsame⟩ := hw.cached _ _ (hw.logged l hl)
    obtain ⟨m', -, hkey', r', hr', hsame'⟩ := hw.cached _ _ (hw.logged l' hl')
    obtain rfl := Option.some.inj (hr.symm.trans (heq ▸ hr'))
    have hmember : m = m' := by
      have hkind : m.kind = m'.kind := hsame.kind.symm.trans hsame'.kind
      have hname : m.name = m'.name := hsame.name.symm.trans hsame'.name
      have hsig : m.sig = m'.sig := hsame.sig.symm.trans hsame'.sig
      have howner : m.owner = m'.owner := hsame.owner.symm.trans hsame'.owner
      have hstatic : m.isStatic = m'.isStatic := hsame.isStatic.symm.trans hsame'.isStatic
      have hmethod : m.isMethod = m'.isMethod := by
        unfold Member.kind at hkind
        cases hmethod : m.isMethod <;> cases hmethod' : m'.isMethod <;>
          simp [hmethod, hmethod'] at hkind ⊢
      obtain ⟨owner, isMethod, isStatic, name, sig⟩ := m
      simp_all
    rw [← hkey, ← hkey', hmember]
  · intro heq
    exact Option.some.inj ((hw.logged l hl).symm.trans (heq ▸ hw.logged l' hl'))

/-- The accessors read the record of a lookup with the same key. -/
theorem Inv.givesBack (hw : Inv w) {l : Member × BitVec 64} (hl : l ∈ w.log) :
    ∃ m, (m, l.2) ∈ w.log ∧ m.key = l.1.key ∧ w.jrt.GivesBack m l.2 := by
  obtain ⟨m, hmem, hkey, r, hr, hsame⟩ := hw.cached _ _ (hw.logged l hl)
  refine ⟨m, hmem, hkey, ?_⟩
  have hkind : r.kind = m.kind := hsame.kind
  have hname : r.name = m.name := hsame.name
  have hsig : r.sig = m.sig := hsame.sig
  have howner : r.owner = m.owner := hsame.owner
  unfold GivesBack
  cases hmethod : m.isMethod with
  | true => simp [methodName, methodSig, text, hr, hkind, hname, hsig, Member.kind, hmethod]
  | false => simp [fieldName, fieldOwner, text, hr, hkind, hname, howner, Member.kind, hmethod]

end Lookups

/-- In every run of lookups in which no class and no member has a bar in its name, two lookups
return the same handle if and only if they ask for the same member, and the accessors give back what
was asked for. -/
theorem lookups_faithful {m : Memory} (hm : m.JavaOk) (calls : List MemberCall)
    (hplain : ∀ l ∈ (Lookups.after m calls).log, l.1.Plain) :
    (Lookups.after m calls).Faithful := by
  have hw := Lookups.inv_after hm calls
  constructor
  · intro l hl l' hl'
    rw [hw.handle_eq_iff hl hl']
    exact ⟨(hplain l hl).eq_of_key_eq (hplain l' hl'), congrArg Member.key⟩
  · intro l hl
    obtain ⟨m, hmem, hkey, hgives⟩ := hw.givesBack hl
    have hmember : m = l.1 := (hplain _ hmem).eq_of_key_eq (hplain l hl) hkey
    rwa [hmember] at hgives

/-- The runtime whose first handle is a class. -/
def oneClass : JavaRuntime :=
  final ((do
    modify fun s => { s with
      classByName := Function.update s.classByName (ascii "A") (some firstHandle) }
    write32 firstHandle.toNat firstHandle.toNat
    return firstHandle : JavaM (BitVec 64))
      (emplace firstHandle { kind := .clazz, name := ascii "A" } { mem := afterFirst }))

theorem findClass_init :
    findClass (ascii "A") { mem := Memory.init .arm64 false false } = .ok firstHandle oneClass := by
  rw [findClass, get_bind]
  exact (bind_ok (alloc_init _)).trans rfl

/-- Lookups of methods of one class. -/
def methodCalls (methods : List (String × String)) : List MemberCall :=
  .findClass (ascii "A") ::
    methods.map fun m => .getMethodId firstHandle (ascii m.1) (ascii m.2) false

theorem Lookups.step_findClass {name : List UInt8} {h : BitVec 64} {s s' : JavaRuntime}
    (hrun : JavaRuntime.findClass name s = .ok h s') (log : List (Member × BitVec 64)) :
    Lookups.step ⟨s, log⟩ (.findClass name) = ⟨s', log⟩ := by
  simp only [Lookups.step, MemberCall.run, hrun, MemberCall.asks, Option.map_none,
    Option.toList_none, List.append_nil]

theorem after_methodCalls (methods : List (String × String)) :
    Lookups.after (Memory.init .arm64 false false) (methodCalls methods) =
      (methods.map fun m => .getMethodId firstHandle (ascii m.1) (ascii m.2) false).foldl
        Lookups.step ⟨oneClass, []⟩ := by
  rw [Lookups.after, methodCalls, List.foldl_cons, Lookups.step_findClass findClass_init]

/-- A class with two methods. -/
theorem lookups_faithful_two :
    (Lookups.after (Memory.init .arm64 false false)
      (methodCalls [("a", "()V"), ("b", "()V")])).Faithful := by
  apply lookups_faithful (fun hnext => absurd rfl hnext)
  rw [after_methodCalls]
  decide +kernel

/-- Two methods whose names and signatures make one key get one handle. -/
theorem lookups_confused : ¬(Lookups.after (Memory.init .arm64 false false)
    (methodCalls [("a|b", "c"), ("a", "b|c")])).Faithful := by
  rw [after_methodCalls]
  intro hfaithful
  obtain ⟨w, hw⟩ : ∃ w, w = List.foldl Lookups.step ⟨oneClass, []⟩
      ([("a|b", "c"), ("a", "b|c")].map fun m : String × String =>
        .getMethodId firstHandle (ascii m.1) (ascii m.2) false) := ⟨_, rfl⟩
  have hlog : w.log = [(⟨ascii "A", true, false, ascii "a|b", ascii "c"⟩, firstHandle + 0x80),
      (⟨ascii "A", true, false, ascii "a", ascii "b|c"⟩, firstHandle + 0x80)] := by
    rw [hw]
    decide +kernel
  rw [← hw, Lookups.Faithful, hlog] at hfaithful
  have hsame :=
    (hfaithful.1 _ List.mem_cons_self _ (List.mem_cons_of_mem _ List.mem_cons_self)).mp rfl
  exact absurd hsame (by decide)

end JavaRuntime

end Vardoger
