import Vardoger.Gdb.Stub

/-!
# What the dispatcher does with a packet

Every packet either resumes the guest or is answered with one text. No text holds the characters
that frame a packet, so a client finds the replies in what it receives.
-/

namespace Vardoger.Gdb

open Bytes Hex Stateful

/-- A payload that cannot be mistaken for the start or the end of a packet. -/
def IsText (text : List UInt8) : Prop := 0x23 ∉ text ∧ 0x24 ∉ text

instance (text : List UInt8) : Decidable (IsText text) := inferInstanceAs (Decidable (_ ∧ _))

/-- The packet that turns acknowledgements off. -/
def startsNoAck (pkt : List UInt8) : Bool := pkt == ascii "QStartNoAckMode"

/-- The packets that resume the guest or end the session: `c`, `C`, `s`, `S`, `vCont`, `D`, `k`. -/
def isResume : List UInt8 → Bool
  | [] => false
  | cmd :: x => (ascii "cCsSDk").contains cmd || (ascii "vCont;").isPrefixOf (cmd :: x)

/-- The room that the buffer of a memory packet takes. -/
def bufferSize : List UInt8 → ℕ
  | [] => 0
  | cmd :: x =>
    let len := (parseHexU64 0 (skipChar 0x2c (parseHexU64 0 x).2)).1
    if cmd = 'm'.toUInt8 then if 0x100000 < len then 0 else len
    else if cmd = 'M'.toUInt8 ∨ cmd = 'X'.toUInt8 then len
    else 0

/-- The host can provide room for a buffer. -/
def Fits (allocates : ℕ → Bool) (len : ℕ) : Prop :=
  len = 0 ∨ len ≤ kMaxSize ∧ allocates len = true

instance (allocates : ℕ → Bool) (len : ℕ) : Decidable (Fits allocates len) :=
  inferInstanceAs (Decidable (_ ∨ _))

/-! ## The texts of the replies -/

theorem IsText.append {x y : List UInt8} (hx : IsText x) (hy : IsText y) : IsText (x ++ y) :=
  ⟨by simp [hx.1, hy.1], by simp [hx.2, hy.2]⟩

theorem IsText.of_subset {x y : List UInt8} (hx : IsText x) (hsub : y ⊆ x) : IsText y :=
  ⟨fun h => hx.1 (hsub h), fun h => hx.2 (hsub h)⟩

theorem isText_ite {c : Prop} [Decidable c] {x y : List UInt8} (hx : IsText x) (hy : IsText y) :
    IsText (if c then x else y) := by
  split
  · exact hx
  · exact hy

theorem isText_of_isHex {x : List UInt8} (hx : IsHex x) : IsText x := by
  refine ⟨fun h => ?_, fun h => ?_⟩
  · exact absurd (hx _ h) (by decide)
  · exact absurd (hx _ h) (by decide)

theorem isHex_regsHex (e : Engine) (regs : List RegDesc) : IsHex (regsHex e regs) := by
  induction regs with
  | nil => simp [IsHex, regsHex]
  | cons r rs ih =>
    intro c hc
    rcases List.mem_append.mp hc with hc | hc
    · exact isHex_regHex e r c hc
    · exact ih c hc

theorem isText_readOneRegHex (e : Engine) (n : ℕ) : IsText (readOneRegHex e n) := by
  unfold readOneRegHex
  split
  · decide
  · exact isText_of_isHex (isHex_regHex e _)

theorem isText_decimal (n : ℕ) : IsText (decimal n) :=
  ⟨fun h => absurd (mem_decimal h).1 (by decide), fun h => absurd (mem_decimal h).1 (by decide)⟩

/-- The texts of a register description. -/
def RegDesc.texts (r : RegDesc) : List UInt8 :=
  ascii r.name ++ ascii (r.type.getD "") ++ ascii (r.generic.getD "")

theorem isText_texts {abi : Abi} {r : RegDesc} (hr : r ∈ (tableFor abi).regs) :
    IsText r.texts := by
  have h64 : ∀ r ∈ kArm64, IsText r.texts := by decide +kernel
  have h32 : ∀ r ∈ kArm32, IsText r.texts := by decide +kernel
  cases abi with
  | arm64 => exact h64 r hr
  | arm32 => exact h32 r hr
  | x86 => exact h32 r hr
  | x8664 => exact h32 r hr

section Texts

variable {r : RegDesc} (hr : IsText r.texts)
include hr

theorem isText_name : IsText (ascii r.name) :=
  hr.of_subset fun c hc => by simp [RegDesc.texts, hc]

theorem isText_type {type : String} (htype : r.type = some type) : IsText (ascii type) :=
  hr.of_subset fun c hc => by simp [RegDesc.texts, htype, hc]

theorem isText_generic {g : String} (hg : r.generic = some g) : IsText (ascii g) :=
  hr.of_subset fun c hc => by simp [RegDesc.texts, hg, hc]

theorem isText_registerRole (n : ℕ) : IsText (registerRole r n) := by
  have hkind : IsText (if r.fpu ∧ r.bits = 128 then
      ascii "encoding:vector;format:vector-uint8;set:Floating Point Registers"
    else if r.fpu then ascii "encoding:uint;format:hex;set:Floating Point Registers"
    else ascii "encoding:uint;format:hex;set:General Purpose Registers") :=
    isText_ite (by decide +kernel) (isText_ite (by decide +kernel) (by decide +kernel))
  have hnumbers := ((((hkind.append (y := ascii ";gcc:") (by decide)).append
    (isText_decimal n)).append (y := ascii ";dwarf:") (by decide)).append
    (isText_decimal n)).append (y := ascii ";") (by decide)
  refine hnumbers.append ?_
  split
  · decide
  · rename_i g hg
    exact isText_ite
      (((show IsText (ascii "generic:") by decide).append (isText_generic hr hg)).append
        (by decide)) (by decide)

theorem isText_regLine (n : ℕ) : IsText (regLine r n) := by
  have htype : IsText (regType r) := by
    unfold regType
    split
    · rename_i type htype
      exact ((show IsText (ascii " type=\"") by decide).append (isText_type hr htype)).append
        (by decide)
    · exact isText_ite (by decide) (by decide)
  have hname := ((show IsText (ascii "    <reg name=\"") by decide).append (isText_name hr)).append
    (y := ascii "\" bitsize=\"") (by decide)
  have hnumbers := (((hname.append (isText_decimal r.bits)).append
    (y := ascii "\" regnum=\"") (by decide)).append (isText_decimal n)).append
    (y := ascii "\"") (by decide)
  exact (hnumbers.append htype).append (by decide)

end Texts

theorem isText_registerInfo (abi : Abi) (n : ℕ) : IsText (registerInfo abi n) := by
  unfold registerInfo
  split
  · decide
  · rename_i r hr
    have htexts : IsText r.texts := isText_texts (List.mem_of_getElem? hr)
    have hname := ((show IsText (ascii "name:") by decide).append (isText_name htexts)).append
      (y := ascii ";bitsize:") (by decide)
    have hnumbers := (((hname.append (isText_decimal r.bits)).append
      (y := ascii ";offset:") (by decide)).append
      (isText_decimal (regOffset (tableFor abi).regs n))).append (y := ascii ";") (by decide)
    exact hnumbers.append (isText_registerRole htexts n)

/-- Lines that are texts make up a text. -/
theorem isText_flatMap {α : Type} {xs : List α} {f : α → List UInt8}
    (h : ∀ a ∈ xs, IsText (f a)) : IsText (xs.flatMap f) := by
  refine ⟨fun hmem => ?_, fun hmem => ?_⟩
  · obtain ⟨a, ha, hc⟩ := List.mem_flatMap.mp hmem
    exact (h a ha).1 hc
  · obtain ⟨a, ha, hc⟩ := List.mem_flatMap.mp hmem
    exact (h a ha).2 hc

theorem isText_targetXml (abi : Abi) : IsText (targetXml abi) := by
  have hline : ∀ r ∈ (tableFor abi).regs.zipIdx, IsText (regLine r.1 r.2) := fun r hr =>
    isText_regLine (isText_texts (List.fst_mem_of_mem_zipIdx hr)) r.2
  have hcore : IsText ((tableFor abi).regs.zipIdx.flatMap fun r =>
      if r.1.fpu then [] else regLine r.1 r.2) :=
    isText_flatMap fun r hr => isText_ite (by decide) (hline r hr)
  have hfpu : IsText ((tableFor abi).regs.zipIdx.flatMap fun r =>
      if r.1.fpu then regLine r.1 r.2 else []) :=
    isText_flatMap fun r hr => isText_ite (hline r hr) (by decide)
  have harch : IsText (ascii (tableFor abi).arch) := by cases abi <;> decide +kernel
  have hfeature : IsText (ascii (tableFor abi).feature) := by cases abi <;> decide +kernel
  have hxml : IsText
      (ascii "<?xml version=\"1.0\"?>\n<!DOCTYPE target SYSTEM \"gdb-target.dtd\">\n") := by
    decide +kernel
  have hhead := (((hxml.append (y := ascii "<target version=\"1.0\">\n  <architecture>")
    (by decide)).append harch).append
    (y := ascii "</architecture>\n  <feature name=\"") (by decide)).append hfeature
  have hbody := ((hhead.append (y := ascii "\">\n") (by decide)).append hcore).append
    (y := ascii "  </feature>\n") (by decide)
  have hrest := isText_ite (c := (tableFor abi).regs.any RegDesc.fpu = true)
    (((show IsText (ascii "  <feature name=\"org.gnu.gdb.aarch64.fpu\">\n")
      by decide +kernel).append hfpu).append (y := ascii "  </feature>\n") (by decide)) (y := [])
        (by decide)
  exact (hbody.append hrest).append (by decide)

theorem isText_chunk {xml : List UInt8} (hxml : IsText xml) (off len : ℕ) :
    IsText (chunk xml off len) := by
  unfold chunk
  split
  · decide
  · refine IsText.append ?_ ?_
    · split <;> decide
    · exact hxml.of_subset fun c hc => List.mem_of_mem_drop (List.mem_of_mem_take hc)

theorem isText_queryReply (abi : Abi) (pkt : List UInt8) : IsText (queryReply abi pkt) := by
  -- Only the host's description and the register layout depend on the architecture.
  have hhost : IsText (ascii "triple:" ++
      bytesToHex (if abi = .arm64 then ascii "aarch64-unknown-linux-android"
        else ascii "arm-unknown-linux-android") ++
      ascii ";endian:little;ptrsize:" ++ (if abi = .arm64 then ascii "8" else ascii "4") ++
      ascii ";") := by
    cases abi <;> decide +kernel
  have hprocess : IsText (ascii "pid:1;endian:little;ptrsize:" ++
      (if abi = .arm64 then ascii "8" else ascii "4") ++ ascii ";") := by
    cases abi <;> decide +kernel
  exact isText_ite (by decide +kernel) <| isText_ite (by decide) <| isText_ite (by decide) <|
    isText_ite (by decide) <| isText_ite (by decide) <| isText_ite hhost <| isText_ite hprocess <|
    isText_ite (isText_registerInfo _ _) <|
    isText_ite (isText_chunk (isText_targetXml _) _ _) (by decide)

/-! ## What the dispatcher does with a packet -/

/-- Handling a packet either resumes the guest and leaves the stub as it is, or yields one reply and
sends nothing itself. -/
def Settles (pkt : List UInt8) (x : GdbM Answer) : Prop :=
  ∀ s,
    (isResume pkt = true ∧ ∃ how, x s = .ok (.resume how) s) ∨
    (isResume pkt = false ∧ ∃ text engine breakpoints,
      IsText text ∧
        x s = .ok (.reply text)
          { s with engine, breakpoints, armNoAck := s.armNoAck || startsNoAck pkt })

section Dispatcher

variable {allocates : ℕ → Bool} {pkt text : List UInt8}

theorem settles_resume (hresume : isResume pkt = true) (how : Resume) :
    Settles pkt (pure (.resume how)) := fun _ => .inl ⟨hresume, how, rfl⟩

/-- A packet that asks for something the state tells. -/
theorem settles_reply (hresume : isResume pkt = false) (hack : startsNoAck pkt = false)
    {x : GdbM Answer}
    (hx : ∀ s, ∃ text engine breakpoints, IsText text ∧
      x s = .ok (.reply text) { s with engine, breakpoints }) : Settles pkt x := by
  intro s
  obtain ⟨text, engine, breakpoints, htext, hx⟩ := hx s
  refine .inr ⟨hresume, text, engine, breakpoints, htext, ?_⟩
  rw [hx, hack, Bool.or_false]

theorem settles_pure (hresume : isResume pkt = false) (hack : startsNoAck pkt = false)
    (htext : IsText text) : Settles pkt (pure (.reply text)) :=
  settles_reply hresume hack fun s => ⟨text, s.engine, s.breakpoints, htext, rfl⟩

/-- A buffer that fits is allocated. -/
theorem newBuffer_of_fits {len : ℕ} (hfits : Fits allocates len) (tooLong : String) (s : GdbStub) :
    newBuffer allocates tooLong len s = .ok () s := by
  unfold newBuffer
  by_cases hlen : len = 0
  · rw [if_pos hlen]
    rfl
  · obtain ⟨hmax, halloc⟩ := hfits.resolve_left hlen
    rw [if_neg hlen, if_neg (by omega), if_pos halloc]
    rfl

theorem storeBytes_replies (addr : ℕ) (buf : List UInt8) (s : GdbStub) :
    ∃ text engine breakpoints, IsText text ∧
      storeBytes addr buf s = .ok (.reply text) { s with engine, breakpoints } := by
  cases hwrite : s.engine.write addr buf with
  | ok engine =>
    refine ⟨ascii "OK", engine, s.breakpoints, by decide, ?_⟩
    rw [storeBytes, get_bind, hwrite]
    rfl
  | error err =>
    refine ⟨ascii "E01", s.engine, s.breakpoints, by decide, ?_⟩
    rw [storeBytes, get_bind, hwrite]
    rfl

theorem readMemory_replies {x : List UInt8}
    (hfits : Fits allocates (bufferSize ('m'.toUInt8 :: x))) (s : GdbStub) :
    ∃ text engine breakpoints, IsText text ∧
      readMemory allocates x s = .ok (.reply text) { s with engine, breakpoints } := by
  unfold readMemory
  split
  · exact ⟨ascii "E01", s.engine, s.breakpoints, by decide, rfl⟩
  · rename_i hlen
    rw [not_or, Nat.not_lt] at hlen
    rw [bufferSize, if_pos rfl, if_neg (by omega)] at hfits
    rw [bind_ok (newBuffer_of_fits hfits _ s), get_bind]
    cases s.engine.read (parseHexU64 0 x).1
        (parseHexU64 0 (skipChar 0x2c (parseHexU64 0 x).2)).1 with
    | ok buf =>
      exact ⟨_, s.engine, s.breakpoints, isText_of_isHex (isHex_bytesToHex buf), rfl⟩
    | error err => exact ⟨ascii "E01", s.engine, s.breakpoints, by decide, rfl⟩

theorem writeMemory_replies {x : List UInt8}
    (hfits : Fits allocates (bufferSize ('M'.toUInt8 :: x))) (s : GdbStub) :
    ∃ text engine breakpoints, IsText text ∧
      writeMemory allocates x s = .ok (.reply text) { s with engine, breakpoints } := by
  have hroom : Fits allocates (parseHexU64 0 (skipChar 0x2c (parseHexU64 0 x).2)).1 := hfits
  rw [writeMemory, bind_ok (newBuffer_of_fits hroom _ s)]
  exact storeBytes_replies _ _ s

theorem writeBinary_replies {x : List UInt8}
    (hfits : Fits allocates (bufferSize ('X'.toUInt8 :: x))) (s : GdbStub) :
    ∃ text engine breakpoints, IsText text ∧
      writeBinary allocates x s = .ok (.reply text) { s with engine, breakpoints } := by
  have hroom : Fits allocates (parseHexU64 0 (skipChar 0x2c (parseHexU64 0 x).2)).1 := hfits
  rw [writeBinary, bind_ok (newBuffer_of_fits hroom _ s)]
  split
  · exact ⟨ascii "OK", s.engine, s.breakpoints, by decide, rfl⟩
  · exact storeBytes_replies _ _ s

theorem setBreakpoint_replies (present : Bool) (x : List UInt8) (s : GdbStub) :
    ∃ text engine breakpoints, IsText text ∧
      setBreakpoint present x s = .ok (.reply text) { s with engine, breakpoints } := by
  cases x with
  | nil => exact ⟨ascii "E01", s.engine, s.breakpoints, by decide, rfl⟩
  | cons type x =>
    rw [setBreakpoint]
    split
    · exact ⟨[], s.engine, s.breakpoints, by decide, rfl⟩
    · exact ⟨ascii "OK", s.engine, _, by decide, rfl⟩

theorem settles_vPacket (x : List UInt8) :
    Settles ('v'.toUInt8 :: x) (pure (vPacket ('v'.toUInt8 :: x))) := by
  unfold vPacket
  split
  · rename_i hquery
    rw [hquery]
    exact settles_pure rfl rfl (by decide)
  · split
    · rename_i hcont
      exact settles_resume (by rw [isResume, hcont, Bool.or_true]) _
    · rename_i hcont
      refine settles_pure ?_ rfl (by decide)
      rw [isResume, Bool.eq_false_of_not_eq_true hcont]
      rfl

theorem settles_ite {c : Prop} [Decidable c] {x y : GdbM Answer} (hx : c → Settles pkt x)
    (hy : ¬c → Settles pkt y) : Settles pkt (if c then x else y) := by
  by_cases hc : c
  · rw [if_pos hc]
    exact hx hc
  · rw [if_neg hc]
    exact hy hc

/-- A packet whose first letter means nothing neither resumes the guest nor ends
acknowledgements. -/
theorem not_resume_of_unknown {cmd : UInt8} {x : List UInt8} (hletter : cmd ∉ ascii "cCsSDk")
    (hv : cmd ≠ 'v'.toUInt8) (hQ : cmd ≠ 'Q'.toUInt8) :
    isResume (cmd :: x) = false ∧ startsNoAck (cmd :: x) = false := by
  have hcont : ¬ascii "vCont;" <+: cmd :: x := fun h => hv (List.cons_prefix_cons.mp h).1.symm
  have hstarts : (ascii "vCont;").isPrefixOf (cmd :: x) = false := by
    rw [← Bool.not_eq_true, List.isPrefixOf_iff_prefix]
    exact hcont
  refine ⟨?_, beq_eq_false_iff_ne.mpr fun h => hQ (List.cons.inj h).1⟩
  rw [isResume, hstarts, Bool.or_false, ← Bool.not_eq_true, List.contains_iff_mem]
  exact hletter

/-- The dispatcher answers every packet once, unless it starts with an interrupt byte or asks for a
buffer that the host cannot provide. -/
theorem settles_handlePacket (hhead : pkt.head? ≠ some 0x03)
    (hfits : Fits allocates (bufferSize pkt)) : Settles pkt (handlePacket allocates pkt) := by
  cases pkt with
  | nil => exact settles_pure rfl rfl (by decide)
  | cons cmd x =>
    have hcmd : cmd ≠ 0x03 := fun h => hhead (congrArg some h)
    rw [handlePacket, if_neg hcmd]
    refine settles_ite (fun hwhy => ?_) fun _ => settles_ite (fun hg => ?_) fun _ =>
      settles_ite (fun hG => ?_) fun _ => settles_ite (fun hp => ?_) fun _ =>
      settles_ite (fun hP => ?_) fun _ => settles_ite (fun hm => ?_) fun _ =>
      settles_ite (fun hM => ?_) fun _ => settles_ite (fun hX => ?_) fun _ =>
      settles_ite (fun hc => ?_) fun hnc => settles_ite (fun hs => ?_) fun hns =>
      settles_ite (fun hZ => ?_) fun _ => settles_ite (fun hz => ?_) fun _ =>
      settles_ite (fun hH => ?_) fun _ => settles_ite (fun hD => ?_) fun hnD =>
      settles_ite (fun hk => ?_) fun hnk => settles_ite (fun hq => ?_) fun _ =>
      settles_ite (fun hQ => settles_ite (fun hstart => ?_) fun hstart => ?_) fun hnQ =>
      settles_ite (fun hv => ?_) fun hnv => ?_
    · subst hwhy
      exact settles_pure rfl rfl (by decide)
    · subst hg
      exact settles_reply rfl rfl fun s =>
        ⟨_, s.engine, s.breakpoints, isText_of_isHex (isHex_regsHex s.engine _), rfl⟩
    · subst hG
      exact settles_reply rfl rfl fun s => ⟨ascii "OK", _, s.breakpoints, by decide, rfl⟩
    · subst hp
      exact settles_reply rfl rfl fun s =>
        ⟨_, s.engine, s.breakpoints, isText_readOneRegHex s.engine _, rfl⟩
    · subst hP
      exact settles_reply rfl rfl fun s => ⟨ascii "OK", _, s.breakpoints, by decide, rfl⟩
    · subst hm
      exact settles_reply rfl rfl (readMemory_replies hfits)
    · subst hM
      exact settles_reply rfl rfl (writeMemory_replies hfits)
    · subst hX
      exact settles_reply rfl rfl (writeBinary_replies hfits)
    · rcases hc with rfl | rfl <;> exact settles_resume rfl _
    · rcases hs with rfl | rfl <;> exact settles_resume rfl _
    · subst hZ
      exact settles_reply rfl rfl (setBreakpoint_replies true x)
    · subst hz
      exact settles_reply rfl rfl (setBreakpoint_replies false x)
    · subst hH
      exact settles_pure rfl rfl (by decide)
    · subst hD
      exact settles_resume rfl _
    · subst hk
      exact settles_resume rfl _
    · subst hq
      exact settles_reply rfl rfl fun s =>
        ⟨_, s.engine, s.breakpoints, isText_queryReply s.engine.abi _, rfl⟩
    · subst hQ
      have hack : startsNoAck ('Q'.toUInt8 :: x) = true := beq_iff_eq.mpr hstart
      refine fun s => .inr ⟨rfl, ascii "OK", s.engine, s.breakpoints, by decide, ?_⟩
      rw [modify_bind, hack, Bool.or_true]
      rfl
    · subst hQ
      exact settles_pure rfl (beq_eq_false_iff_ne.mpr hstart) (by decide)
    · subst hv
      exact settles_vPacket x
    · have hletter : cmd ∉ ascii "cCsSDk" := by
        have hletters : ascii "cCsSDk" =
            ['c'.toUInt8, 'C'.toUInt8, 's'.toUInt8, 'S'.toUInt8, 'D'.toUInt8, 'k'.toUInt8] := by
          decide
        rw [hletters]
        simp only [List.mem_cons, List.not_mem_nil, or_false, not_or] at hnc hns ⊢
        exact ⟨hnc.1, hnc.2, hns.1, hns.2, hnD, hnk⟩
      obtain ⟨hresume, hack⟩ := not_resume_of_unknown (x := x) hletter hnv hnQ
      exact settles_pure hresume hack (by decide)

end Dispatcher

end Vardoger.Gdb
