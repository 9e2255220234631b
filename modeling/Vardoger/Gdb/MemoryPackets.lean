import Vardoger.Gdb.Dispatch

/-!
# Memory writes by the client

The packets `M` and `X` name an address, a length and the bytes to write, as digits or as raw bytes
with escapes. The handler allocates a buffer of the given length, fills it from the payload as far
as that goes, and answers by whether the engine took it. We compare this with what the packet says:
the address and the length as numbers of any size, and the bytes that the payload encodes.
-/

namespace Vardoger.Gdb

open Bytes Hex Words Stateful

/-- The two packets that write memory. -/
inductive WriteCommand
  | hex | binary
  deriving DecidableEq, Repr

/-- What a packet says behind its letter. -/
structure WriteRequest where
  addr : ℕ
  len : ℕ
  payload : List UInt8
  deriving DecidableEq, Repr

/-- An address, a length and a payload; the `,` and the `:` may be missing. -/
def writeRequest (x : List UInt8) : WriteRequest :=
  let addr := hexFront x
  let len := hexFront (skipChar 0x2c addr.2)
  ⟨addr.1, len.1, skipChar 0x3a len.2⟩

/-- The bytes of pairs of digits. -/
def hexPayload (payload : List UInt8) : Option (List UInt8) :=
  if payload.length % 2 = 0 ∧ payload.all isxdigit then some (hexToBytes payload) else none

/-- The bytes of a binary payload; a `0x7d` at its end escapes nothing. -/
def binaryPayload : List UInt8 → Option (List UInt8)
  | [] => some []
  | b :: x =>
    if b = 0x7d then
      match x with
      | [] => none
      | c :: x => (binaryPayload x).map (List.cons (c ^^^ 0x20))
    else (binaryPayload x).map (List.cons b)

namespace WriteCommand

def letter : WriteCommand → UInt8
  | hex => 'M'.toUInt8
  | binary => 'X'.toUInt8

/-- The bytes that a payload encodes. -/
def decode : WriteCommand → List UInt8 → Option (List UInt8)
  | hex => hexPayload
  | binary => binaryPayload

/-- What the handler writes for a length and a payload: missing digits are zeros, and missing raw
bytes shorten the write. -/
def buffer (len : ℕ) (payload : List UInt8) : WriteCommand → List UInt8
  | hex => zeroFill len ((hexToBytes payload).take len)
  | binary => unescape len payload

end WriteCommand

/-- The payload encodes as many bytes as the packet says. -/
def WriteRequest.Encodes (r : WriteRequest) (cmd : WriteCommand) (bytes : List UInt8) : Prop :=
  cmd.decode r.payload = some bytes ∧ bytes.length = r.len

/-- The packet is answered, with `OK` only if exactly the encoded bytes were written where the
packet says, and with an error and without a change if the payload does not encode as many bytes
as the packet says or their range cannot be written. -/
def WritesExactly (allocates : ℕ → Bool) (cmd : WriteCommand) (x : List UInt8) (s : GdbStub) :
    Prop :=
  let r := writeRequest x
  ∃ text s', handlePacket allocates (cmd.letter :: x) s = .ok (.reply text) s' ∧
    (text = ascii "OK" → ∃ bytes, r.Encodes cmd bytes ∧
      s' = { s with engine := s.engine.setBytes r.addr bytes }) ∧
    ((¬∃ bytes, r.Encodes cmd bytes) ∨ ¬s.engine.Accessible r.addr r.len →
      text.head? = some 'E'.toUInt8 ∧ s' = s)

/-- The host can allocate the buffer, and what is written is what was asked for: if the range that
the handler writes to is mapped, then the payload encodes as many bytes as the packet says, and the
range that the packet names is mapped. -/
def Writable (allocates : ℕ → Bool) (cmd : WriteCommand) (x : List UInt8) (s : GdbStub) : Prop :=
  let r := writeRequest x
  Fits allocates (r.len % 2 ^ 64) ∧
    (s.engine.Accessible (r.addr % 2 ^ 64) (cmd.buffer (r.len % 2 ^ 64) r.payload).length →
      (∃ bytes, r.Encodes cmd bytes) ∧ s.engine.Accessible r.addr r.len)

/-! ## Payloads -/

/-- A binary payload fits a buffer of the length that it encodes. The induction follows the
escapes. -/
theorem unescape_of_binaryPayload {payload bytes : List UInt8}
    (h : binaryPayload payload = some bytes) :
    unescape bytes.length payload = bytes ∧ bytes.length ≤ payload.length := by
  induction payload using binaryPayload.induct generalizing bytes with
  | case1 =>
    obtain rfl := Option.some.inj h
    exact ⟨rfl, Nat.le_refl 0⟩
  | case2 => cases h
  | case3 c x ih =>
    change (binaryPayload x).map (List.cons (c ^^^ 0x20)) = some bytes at h
    obtain ⟨rest, hrest, rfl⟩ := Option.map_eq_some_iff.mp h
    obtain ⟨hbuffer, hlength⟩ := ih hrest
    rw [List.length_cons, unescape, if_pos rfl, List.length_cons, List.length_cons]
    exact ⟨congrArg _ hbuffer, by omega⟩
  | case4 b x hb ih =>
    rw [binaryPayload.eq_def] at h
    simp only [if_neg hb] at h
    obtain ⟨rest, hrest, rfl⟩ := Option.map_eq_some_iff.mp h
    obtain ⟨hbuffer, hlength⟩ := ih hrest
    rw [List.length_cons, unescape.eq_def, List.length_cons]
    simp only [if_neg hb]
    exact ⟨congrArg _ hbuffer, by omega⟩

/-- The handler writes the encoded bytes if the length is theirs. -/
theorem WriteCommand.buffer_of_decode {cmd : WriteCommand} {payload bytes : List UInt8}
    (h : cmd.decode payload = some bytes) :
    cmd.buffer bytes.length payload = bytes ∧ bytes.length ≤ payload.length := by
  cases cmd with
  | binary => exact unescape_of_binaryPayload h
  | hex =>
    change hexPayload payload = some bytes at h
    unfold hexPayload at h
    split at h
    next heven =>
      obtain rfl := Option.some.inj h
      have hlength : (hexToBytes payload).length = payload.length / 2 :=
        length_hexToBytes (by have := heven.1; omega)
      constructor
      · rw [WriteCommand.buffer, List.take_length, zeroFill, Nat.sub_self, List.replicate_zero,
          List.append_nil]
      · omega
    · cases h

theorem length_skipChar_le (c : UInt8) (x : List UInt8) : (skipChar c x).length ≤ x.length := by
  cases x with
  | nil => exact Nat.le_refl 0
  | cons a x =>
    rw [skipChar]
    split
    · exact Nat.le_succ _
    · exact Nat.le_refl _

theorem length_payload_le (x : List UInt8) : (writeRequest x).payload.length ≤ x.length := by
  have hfront : ∀ y : List UInt8, (hexFront y).2.length ≤ y.length := fun y =>
    (List.dropWhile_sublist _).length_le
  calc (writeRequest x).payload.length
      ≤ (hexFront (skipChar 0x2c (hexFront x).2)).2.length := length_skipChar_le _ _
    _ ≤ (skipChar 0x2c (hexFront x).2).length := hfront _
    _ ≤ (hexFront x).2.length := length_skipChar_le _ _
    _ ≤ x.length := hfront x

/-! ## The handler -/

section Handler

variable {allocates : ℕ → Bool} {s : GdbStub}

theorem newBuffer_of_not_fits {len : ℕ} (h : ¬Fits allocates len) (tooLong : String) (s : GdbStub) :
    ∃ err, newBuffer allocates tooLong len s = .error err s := by
  unfold newBuffer
  rw [Fits, not_or, not_and] at h
  rw [if_neg h.1]
  split
  · exact ⟨_, rfl⟩
  next hmax =>
    rw [if_neg (h.2 (by omega))]
    exact ⟨_, rfl⟩

theorem storeBytes_eq (addr : ℕ) (buf : List UInt8) (s : GdbStub) :
    storeBytes addr buf s =
      if s.engine.Accessible addr buf.length then
        .ok (.reply (ascii "OK")) { s with engine := s.engine.setBytes addr buf }
      else .ok (.reply (ascii "E01")) s := by
  rw [storeBytes, get_bind, Engine.write]
  by_cases h : s.engine.Accessible addr buf.length
  · rw [if_pos h, if_pos h]
    rfl
  · rw [if_neg h, if_neg h]
    rfl

/-- An empty buffer is not written, which is as good as writing it. -/
theorem storeBytes_nil {addr : ℕ} (haddr : addr < 2 ^ 64) (s : GdbStub) :
    storeBytes addr [] s = .ok (.reply (ascii "OK")) s := by
  have haccess : s.engine.Accessible addr 0 := ⟨by omega, by simp⟩
  rw [storeBytes_eq, List.length_nil, if_pos haccess, Engine.setBytes_nil]

/-- Both packets allocate a buffer of the given length and write what they fill of it. -/
theorem handlePacket_write (allocates : ℕ → Bool) (cmd : WriteCommand) (x : List UInt8)
    (s : GdbStub) :
    ∃ tooLong, handlePacket allocates (cmd.letter :: x) s =
      (newBuffer allocates tooLong ((writeRequest x).len % 2 ^ 64) >>= fun _ =>
        storeBytes ((writeRequest x).addr % 2 ^ 64)
          (cmd.buffer ((writeRequest x).len % 2 ^ 64) (writeRequest x).payload)) s := by
  have haddr : (parseHexU64 0 x) = ((writeRequest x).addr % 2 ^ 64, (hexFront x).2) :=
    parseHexU64_eq x
  have hlen : parseHexU64 0 (skipChar 0x2c (hexFront x).2) =
      ((writeRequest x).len % 2 ^ 64, (hexFront (skipChar 0x2c (hexFront x).2)).2) :=
    parseHexU64_eq _
  cases cmd with
  | hex =>
    refine ⟨"cannot create std::vector larger than max_size()", ?_⟩
    have hrun : handlePacket allocates (WriteCommand.hex.letter :: x) s =
        writeMemory allocates x s := rfl
    rw [hrun, writeMemory]
    simp only [haddr, hlen]
    rfl
  | binary =>
    refine ⟨"vector::reserve", ?_⟩
    have hrun : handlePacket allocates (WriteCommand.binary.letter :: x) s =
        writeBinary allocates x s := rfl
    have hstore : ∀ buf, (if buf = [] then pure (.reply (ascii "OK")) else
        storeBytes ((writeRequest x).addr % 2 ^ 64) buf : GdbM Answer) =
        storeBytes ((writeRequest x).addr % 2 ^ 64) buf := by
      intro buf
      split
      next hempty =>
        funext t
        rw [hempty, storeBytes_nil (Nat.mod_lt _ (by decide))]
        rfl
      · rfl
    rw [hrun, writeBinary]
    simp only [haddr, hlen, hstore]
    rfl

/-- A payload of the right length fills the buffer. -/
theorem WriteRequest.Encodes.buffer_eq {r : WriteRequest} {cmd : WriteCommand} {bytes : List UInt8}
    (h : r.Encodes cmd bytes) (hpayload : r.payload.length < 2 ^ 64) :
    cmd.buffer (r.len % 2 ^ 64) r.payload = bytes := by
  obtain ⟨hdecode, hlen⟩ := h
  obtain ⟨hbuffer, hle⟩ := WriteCommand.buffer_of_decode hdecode
  rw [← hlen, Nat.mod_eq_of_lt (by omega), hbuffer]

/-- An address of a mapped byte does not wrap. -/
theorem setBytes_mod {e : Engine} {addr : ℕ} {bytes : List UInt8}
    (h : e.Accessible addr bytes.length) :
    e.setBytes (addr % 2 ^ 64) bytes = e.setBytes addr bytes := by
  cases bytes with
  | nil => rw [Engine.setBytes_nil, Engine.setBytes_nil]
  | cons b bytes =>
    have hfits : addr + (bytes.length + 1) ≤ 2 ^ 64 := h.1
    rw [Nat.mod_eq_of_lt (by omega)]

/-- A packet is handled exactly as it says if and only if the host can allocate the buffer and the
bytes that are written are those that were asked for. -/
theorem memory_writes_exact_iff (allocates : ℕ → Bool) (cmd : WriteCommand) {x : List UInt8}
    (hx : x.length < 2 ^ 64) (s : GdbStub) :
    WritesExactly allocates cmd x s ↔ Writable allocates cmd x s := by
  have hpayload := (length_payload_le x).trans_lt hx
  obtain ⟨tooLong, hrun⟩ := handlePacket_write allocates cmd x s
  obtain ⟨r, hr⟩ : ∃ r, r = writeRequest x := ⟨_, rfl⟩
  obtain ⟨buf, hbuf⟩ : ∃ buf, buf = cmd.buffer (r.len % 2 ^ 64) r.payload := ⟨_, rfl⟩
  unfold WritesExactly Writable
  dsimp only
  rw [← hr] at hrun hpayload ⊢
  rw [← hbuf] at hrun ⊢
  by_cases hfits : Fits allocates (r.len % 2 ^ 64)
  · rw [bind_ok (newBuffer_of_fits hfits tooLong s), storeBytes_eq] at hrun
    by_cases haccess : s.engine.Accessible (r.addr % 2 ^ 64) buf.length
    · rw [if_pos haccess] at hrun
      constructor
      · rintro ⟨text, s', hreply, hok, herror⟩
        obtain ⟨htext, -⟩ := EStateM.Result.ok.inj (hreply.symm.trans hrun)
        obtain rfl := Answer.reply.inj htext
        obtain ⟨bytes, hencodes, -⟩ := hok rfl
        refine ⟨hfits, fun _ => ⟨⟨bytes, hencodes⟩, ?_⟩⟩
        by_contra hout
        exact absurd (herror (.inr hout)).1 (by decide)
      · rintro ⟨-, hasked⟩
        obtain ⟨⟨bytes, hencodes⟩, hin⟩ := hasked haccess
        have hwritten : buf = bytes := hbuf.trans (hencodes.buffer_eq hpayload)
        refine ⟨_, _, hrun, fun _ => ⟨bytes, hencodes, ?_⟩, ?_⟩
        · rw [hwritten, setBytes_mod (hencodes.2 ▸ hin)]
        · rintro (hnone | hout)
          · exact absurd ⟨bytes, hencodes⟩ hnone
          · exact absurd hin hout
    · rw [if_neg haccess] at hrun
      constructor
      · intro _
        exact ⟨hfits, fun h => absurd h haccess⟩
      · intro _
        refine ⟨_, _, hrun, fun hok => ?_, fun _ => ⟨by decide, rfl⟩⟩
        exact absurd hok (by decide)
  · obtain ⟨err, herr⟩ := newBuffer_of_not_fits hfits tooLong s
    rw [bind_error herr] at hrun
    constructor
    · rintro ⟨text, s', hreply, -⟩
      cases hreply.symm.trans hrun
    · intro h
      exact absurd h.1 hfits

end Handler

/-- A stub whose guest has one page at `0x1000`. -/
def pageStub : GdbStub where
  engine := (Engine.fresh .arm64).mapPages 0x1000 0x1000 3
  inp := []

theorem memory_writes_exact_page :
    WritesExactly (fun _ => true) .hex (ascii "1000,2:abcd") pageStub := by
  refine (memory_writes_exact_iff _ .hex (by decide) pageStub).mpr ⟨by decide, fun _ => ⟨?_, ?_⟩⟩
  · exact ⟨[0xab, 0xcd], by decide, by decide⟩
  · decide

/-- Two bytes are announced and one is given: the handler writes a zero for the other and answers
`OK`. -/
theorem short_payload_accepted :
    ¬WritesExactly (fun _ => true) .hex (ascii "1000,2:ab") pageStub := by
  rintro ⟨text, s', hreply, hok, -⟩
  have hrun := handlePacket_write (fun _ => true) .hex (ascii "1000,2:ab") pageStub
  obtain ⟨tooLong, hrun⟩ := hrun
  rw [bind_ok (newBuffer_of_fits (by decide) tooLong pageStub), storeBytes_eq,
    if_pos (by decide)] at hrun
  obtain ⟨htext, -⟩ := EStateM.Result.ok.inj (hreply.symm.trans hrun)
  obtain ⟨bytes, ⟨hdecode, hlen⟩, -⟩ := hok (Answer.reply.inj htext)
  have hbytes : bytes = [0xab] := (Option.some.inj (hdecode.symm.trans (by decide)))
  rw [hbytes] at hlen
  exact absurd hlen (by decide)

end Vardoger.Gdb
