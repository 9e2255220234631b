import Vardoger.Gdb.Dispatch

/-!
# One reply to each request

A debugger and the stub stay in step only if every packet that does not resume the guest is answered
by exactly one packet. The reader, the dispatcher and the switch to unacknowledged packets together
keep this as long as no interrupt byte is read as a request: that byte is answered twice.
-/

namespace Vardoger.Gdb

open Bytes Hex Stateful

/-- What a client sends: packets with their checksum digits, interrupt bytes, and acknowledgements
of the packets it receives. -/
inductive Token
  | packet (payload : List UInt8) (hi lo : UInt8)
  | interrupt
  | ack (c : UInt8)

namespace Token

def bytes : Token → List UInt8
  | packet payload hi lo => 0x24 :: payload ++ [0x23, hi, lo]
  | interrupt => [0x03]
  | ack c => [c]

/-- A packet ends at its first `#` and carries its checksum; an acknowledgement is `+` or `-`. -/
def WellFramed : Token → Prop
  | packet payload hi lo =>
    0x23 ∉ payload ∧ isxdigit hi = true ∧ isxdigit lo = true ∧ checksum payload = byteOf hi lo
  | interrupt => True
  | ack c => c = 0x2b ∨ c = 0x2d

instance (t : Token) : Decidable t.WellFramed :=
  match t with
  | packet _ _ _ => inferInstanceAs (Decidable (_ ∧ _ ∧ _ ∧ _))
  | interrupt => inferInstanceAs (Decidable True)
  | ack _ => inferInstanceAs (Decidable (_ ∨ _))

end Token

/-- The acknowledgement of a packet that was read. -/
def ackOf (noAck : Bool) : List UInt8 := if noAck then [] else ascii "+"

/-- The dispatcher's reply to a packet, and the guest behind it. -/
def RepliesTo (allocates : ℕ → Bool) (pkt : List UInt8) (e : Engine) (text : List UInt8)
    (e' : Engine) : Prop :=
  ∃ s s' : GdbStub, s.engine = e ∧ s'.engine = e' ∧
    handlePacket allocates pkt s = .ok (.reply text) s'

/-- What the stub is to send on a stream: an acknowledgement and one packet with the reply to each
packet that does not resume the guest, the acknowledgement alone for the packet that resumes it and
ends the stream, and at most one packet for an interrupt. Acknowledgements end behind the packet
that turns them off. -/
inductive Answers (allocates : ℕ → Bool) : Engine → Bool → List Token → List UInt8 → Prop
  | done {e noAck} : Answers allocates e noAck [] []
  | reply {e e' noAck pkt hi lo rest text sent} : isResume pkt = false → IsText text →
      RepliesTo allocates pkt e text e' →
      Answers allocates e' (noAck || startsNoAck pkt) rest sent →
      Answers allocates e noAck (.packet pkt hi lo :: rest) (ackOf noAck ++ frame text ++ sent)
  | resume {e noAck pkt hi lo rest} : isResume pkt = true →
      Answers allocates e noAck (.packet pkt hi lo :: rest) (ackOf noAck)
  | silent {e noAck rest sent} : Answers allocates e noAck rest sent →
      Answers allocates e noAck (.interrupt :: rest) sent
  | stop {e noAck rest text sent} : IsText text → Answers allocates e noAck rest sent →
      Answers allocates e noAck (.interrupt :: rest) (frame text ++ sent)
  | ack {e noAck c rest sent} : Answers allocates e noAck rest sent →
      Answers allocates e noAck (.ack c :: rest) sent

/-- The streams on which client and stub take turns. No request starts with an interrupt byte, the
host has room for the buffers that are asked for, and while a reply is still to be acknowledged
(`awaited`) the client sends no packet. -/
def Orderly (allocates : ℕ → Bool) : Bool → Bool → List Token → Prop
  | _, _, [] => True
  | noAck, _, .ack _ :: rest => Orderly allocates noAck false rest
  | noAck, awaited, .interrupt :: rest => awaited = true ∧ Orderly allocates noAck false rest
  | noAck, awaited, .packet pkt _ _ :: rest =>
    awaited = false ∧ pkt.head? ≠ some 0x03 ∧ Fits allocates (bufferSize pkt) ∧
      (isResume pkt = false → Orderly allocates (noAck || startsNoAck pkt) (!noAck) rest)

instance decidableOrderly (allocates : ℕ → Bool) :
    ∀ (noAck awaited : Bool) (tokens : List Token),
      Decidable (Orderly allocates noAck awaited tokens)
  | _, _, [] => inferInstanceAs (Decidable True)
  | noAck, _, .ack _ :: rest => decidableOrderly allocates noAck false rest
  | noAck, _, .interrupt :: rest =>
    have := decidableOrderly allocates noAck false rest
    inferInstanceAs (Decidable (_ ∧ _))
  | noAck, _, .packet pkt _ _ :: rest =>
    have := decidableOrderly allocates (noAck || startsNoAck pkt) (!noAck) rest
    inferInstanceAs (Decidable (_ ∧ _ ∧ _ ∧ (_ → _)))

/-! ## The reader -/

section Reader

variable {noAck : Bool} {x : List UInt8}

/-- A byte that starts no request is skipped. -/
theorem readFrames_skip {c : UInt8} (hinterrupt : c ≠ 0x03) (hstart : c ≠ 0x24) (fuel : ℕ) :
    readFrames noAck (fuel + 1) (c :: x) = readFrames noAck (fuel + 1) x := by
  have hdrop : (c :: x).dropWhile (fun c => c ≠ 0x03 && c ≠ 0x24) =
      x.dropWhile fun c => c ≠ 0x03 && c ≠ 0x24 :=
    List.dropWhile_cons_of_pos (by simp [hinterrupt, hstart])
  rw [readFrames, readFrames, hdrop]

/-- A packet ends at its first `#`, and its check characters decide about it. -/
theorem readFrames_frame {pkt rest : List UInt8} {hi lo : UInt8} (hpkt : 0x23 ∉ pkt) (fuel : ℕ) :
    readFrames noAck (fuel + 1) (0x24 :: pkt ++ [0x23, hi, lo] ++ rest) =
      if checksum pkt = byteOf hi lo then (ackOf noAck, some (pkt, rest))
      else ((if noAck then [] else ascii "-") ++ (readFrames noAck fuel rest).1,
        (readFrames noAck fuel rest).2) := by
  have hpayload : ∀ c ∈ pkt, decide (c ≠ 0x23) = true := by
    intro c hc
    exact decide_eq_true fun h => hpkt (h ▸ hc)
  have htake : (pkt ++ 0x23 :: hi :: lo :: rest).takeWhile (fun c => c ≠ 0x23) = pkt := by
    rw [List.takeWhile_append_of_pos hpayload]
    simp
  have hdrop : (pkt ++ 0x23 :: hi :: lo :: rest).dropWhile (fun c => c ≠ 0x23) =
      0x23 :: hi :: lo :: rest := by
    rw [List.dropWhile_append_of_pos hpayload]
    rfl
  have hstream : 0x24 :: pkt ++ [0x23, hi, lo] ++ rest =
      0x24 :: (pkt ++ 0x23 :: hi :: lo :: rest) := by simp
  have hfront : (0x24 :: (pkt ++ 0x23 :: hi :: lo :: rest)).dropWhile
      (fun c => c ≠ 0x03 && c ≠ 0x24) = 0x24 :: (pkt ++ 0x23 :: hi :: lo :: rest) := rfl
  rw [hstream, readFrames, hfront]
  simp only [hdrop, htake]
  rfl

/-- A packet with its checksum is read and acknowledged. -/
theorem readFrames_packet {pkt rest : List UInt8} {hi lo : UInt8} (hpkt : 0x23 ∉ pkt)
    (hsum : checksum pkt = byteOf hi lo) (fuel : ℕ) :
    readFrames noAck (fuel + 1) (0x24 :: pkt ++ [0x23, hi, lo] ++ rest) =
      (ackOf noAck, some (pkt, rest)) := by
  rw [readFrames_frame hpkt, if_pos hsum]

/-- The reader has enough fuel for every packet with a wrong checksum. -/
theorem readFrames_succ {fuel : ℕ} (hfuel : x.length < fuel) :
    readFrames noAck (fuel + 1) x = readFrames noAck fuel x := by
  induction fuel generalizing x with
  | zero => omega
  | succ fuel ih =>
    rw [readFrames.eq_def, readFrames.eq_def noAck (fuel + 1)]
    simp only
    split
    · rfl
    · rename_i c y hx
      split
      · rfl
      · split
        · rename_i mark hi lo rest hy
          have hshorter : rest.length < fuel := by
            have hxlength :=
              (List.dropWhile_sublist (fun c => c ≠ 0x03 && c ≠ 0x24) (l := x)).length_le
            have hylength := (List.dropWhile_sublist (fun c => c ≠ 0x23) (l := y)).length_le
            rw [hx, List.length_cons] at hxlength
            rw [hy, List.length_cons, List.length_cons, List.length_cons] at hylength
            omega
          rw [ih hshorter]
        · rfl

end Reader

/-! ## One round of serving -/

section Round

variable {allocates : ℕ → Bool} {s : GdbStub} {rest : List UInt8}

/-- What the reader found decides the packet and the rest of the stream. -/
theorem readPacket_eq {acks : List UInt8} {found : Option (List UInt8 × List UInt8)}
    (hframes : readFrames s.noAck (s.inp.length + 1) s.inp = (acks, found)) :
    readPacket s =
      .ok (found.map Prod.fst)
        { s with out := s.out ++ acks, inp := (found.map Prod.snd).getD [] } := by
  have hreceived :
      readPacket s = .ok (received s (acks, found)).1 (received s (acks, found)).2 := by
    rw [← hframes]
    rfl
  rw [hreceived]
  cases found <;> rfl

theorem readPacket_nil (hinp : s.inp = []) : readPacket s = .ok none s := by
  have hframes : readFrames s.noAck (s.inp.length + 1) s.inp = ([], none) := by rw [hinp]; rfl
  rw [readPacket_eq hframes, List.append_nil, Option.map_none, Option.map_none, Option.getD_none,
    ← hinp]

theorem readPacket_skip {c : UInt8} (hinterrupt : c ≠ 0x03) (hstart : c ≠ 0x24)
    (hinp : s.inp = c :: rest) : readPacket s = readPacket { s with inp := rest } := by
  have hframes : readFrames s.noAck (s.inp.length + 1) s.inp =
      readFrames s.noAck (rest.length + 1) rest := by
    rw [hinp, readFrames_skip hinterrupt hstart, List.length_cons,
      readFrames_succ (Nat.lt_succ_self _)]
  rw [readPacket_eq hframes, readPacket_eq (s := { s with inp := rest }) rfl]

theorem readPacket_packet {pkt : List UInt8} {hi lo : UInt8}
    (hframed : (Token.packet pkt hi lo).WellFramed)
    (hinp : s.inp = (Token.packet pkt hi lo).bytes ++ rest) :
    readPacket s =
      .ok (some pkt) { s with out := s.out ++ ackOf s.noAck, inp := rest } := by
  obtain ⟨hpkt, -, -, hsum⟩ := hframed
  have hframes : readFrames s.noAck (s.inp.length + 1) s.inp =
      (ackOf s.noAck, some (pkt, rest)) := by
    rw [hinp]
    exact readFrames_packet hpkt hsum _
  rw [readPacket_eq hframes]
  rfl

/-- The connection has ended. -/
theorem serveLoop_nil (hinp : s.inp = []) (fuel : ℕ) :
    serveLoop allocates (fuel + 1) s = .ok .closed s := by
  rw [serveLoop, bind_ok (readPacket_nil hinp)]
  rfl

/-- Serving goes on behind a byte that starts no request. -/
theorem serveLoop_skip {c : UInt8} (hinterrupt : c ≠ 0x03) (hstart : c ≠ 0x24)
    (hinp : s.inp = c :: rest) (fuel : ℕ) :
    serveLoop allocates (fuel + 1) s = serveLoop allocates (fuel + 1) { s with inp := rest } := by
  have hread := readPacket_skip hinterrupt hstart hinp
  rw [serveLoop]
  change EStateM.bind _ _ _ = EStateM.bind _ _ _
  simp only [EStateM.bind, hread]

section Packet

variable {pkt : List UInt8} {hi lo : UInt8} (hframed : (Token.packet pkt hi lo).WellFramed)
  (hinp : s.inp = (Token.packet pkt hi lo).bytes ++ rest)
include hframed hinp

/-- A packet that resumes the guest is acknowledged and ends serving. -/
theorem serveLoop_resume {how : Resume}
    (hhandle : handlePacket allocates pkt
        { s with out := s.out ++ ackOf s.noAck, inp := rest, armNoAck := false } =
      .ok (.resume how)
        { s with out := s.out ++ ackOf s.noAck, inp := rest, armNoAck := false }) (fuel : ℕ) :
    serveLoop allocates (fuel + 1) s =
      .ok how { s with out := s.out ++ ackOf s.noAck, inp := rest, armNoAck := false } := by
  rw [serveLoop, bind_ok (readPacket_packet hframed hinp)]
  exact (modify_bind _ _ _).trans (bind_ok hhandle)

/-- A packet with a reply is acknowledged and answered; then serving goes on with what the client
sent behind its acknowledgement. -/
theorem serveLoop_reply {text : List UInt8} {engine : Engine} {breakpoints : ℕ → Bool}
    (hhandle : handlePacket allocates pkt
        { s with out := s.out ++ ackOf s.noAck, inp := rest, armNoAck := false } =
      .ok (.reply text)
        { s with
          out := s.out ++ ackOf s.noAck, inp := rest, engine, breakpoints,
          armNoAck := startsNoAck pkt }) (fuel : ℕ) :
    serveLoop allocates (fuel + 1) s =
      serveLoop allocates fuel
        { s with
          out := s.out ++ ackOf s.noAck ++ frame text, engine, breakpoints,
          inp := if s.noAck then rest else rest.drop 1,
          noAck := s.noAck || startsNoAck pkt, armNoAck := startsNoAck pkt } := by
  rw [serveLoop, bind_ok (readPacket_packet hframed hinp)]
  exact (modify_bind _ _ _).trans (bind_ok hhandle)

end Packet

end Round

/-! ## Whole streams -/

/-- The bytes of a stream. -/
def stream (tokens : List Token) : List UInt8 := tokens.flatMap Token.bytes

/-- The stub answers every orderly stream. While it waits for an acknowledgement it has taken the
first byte of what is left. -/
theorem serveLoop_answers {allocates : ℕ → Bool} {tokens : List Token}
    (hframed : ∀ t ∈ tokens, t.WellFramed) {s : GdbStub} (awaited : Bool)
    (hinp : s.inp = if awaited then (stream tokens).drop 1 else stream tokens)
    (horderly : Orderly allocates s.noAck awaited tokens) {fuel : ℕ} (hfuel : s.inp.length < fuel) :
    ∃ how s' sent, serveLoop allocates fuel s = .ok how s' ∧ s'.out = s.out ++ sent ∧
      Answers allocates s.engine s.noAck tokens sent := by
  induction tokens generalizing s awaited fuel with
  | nil =>
    obtain ⟨fuel, rfl⟩ := Nat.exists_eq_add_one_of_ne_zero (Nat.ne_zero_of_lt hfuel)
    have hnil : s.inp = [] := by cases awaited <;> exact hinp
    exact ⟨.closed, s, [], serveLoop_nil hnil fuel, (List.append_nil _).symm, .done⟩
  | cons t rest ih =>
    obtain ⟨fuel, rfl⟩ := Nat.exists_eq_add_one_of_ne_zero (Nat.ne_zero_of_lt hfuel)
    have hrest : ∀ t ∈ rest, t.WellFramed := fun t ht => hframed t (by simp [ht])
    cases t with
    | ack c =>
      rw [Orderly] at horderly
      cases awaited with
      | true =>
        -- The stub took this byte for the acknowledgement of its last packet.
        obtain ⟨how, s', sent, hserve, hout, hanswers⟩ := ih hrest false hinp horderly hfuel
        exact ⟨how, s', sent, hserve, hout, .ack hanswers⟩
      | false =>
        have hc : c = 0x2b ∨ c = 0x2d := hframed (.ack c) (by simp)
        have hnoise : c ≠ 0x03 ∧ c ≠ 0x24 := by rcases hc with rfl | rfl <;> decide
        have hcons : s.inp = c :: stream rest := hinp
        have hshorter : (stream rest).length < fuel + 1 := by
          rw [hcons, List.length_cons] at hfuel
          omega
        obtain ⟨how, s', sent, hserve, hout, hanswers⟩ := ih hrest
          (s := { s with inp := stream rest }) false rfl horderly hshorter
        rw [← serveLoop_skip hnoise.1 hnoise.2 hcons] at hserve
        exact ⟨how, s', sent, hserve, hout, .ack hanswers⟩
    | interrupt =>
      obtain ⟨rfl, horderly⟩ := horderly
      obtain ⟨how, s', sent, hserve, hout, hanswers⟩ := ih hrest false hinp horderly hfuel
      exact ⟨how, s', sent, hserve, hout, .silent hanswers⟩
    | packet pkt hi lo =>
      obtain ⟨rfl, hhead, hfits, horderly⟩ := horderly
      have hpacket : (Token.packet pkt hi lo).WellFramed := hframed _ (by simp)
      have hinp : s.inp = (Token.packet pkt hi lo).bytes ++ stream rest := hinp
      rcases settles_handlePacket hhead hfits
        { s with out := s.out ++ ackOf s.noAck, inp := stream rest, armNoAck := false } with
        ⟨hresume, how, hhandle⟩ | ⟨hresume, text, engine, breakpoints, htext, hhandle⟩
      · exact ⟨how, _, _, serveLoop_resume hpacket hinp hhandle fuel, rfl, .resume hresume⟩
      · have hnext : (if s.noAck then stream rest else (stream rest).drop 1) =
            if !s.noAck then (stream rest).drop 1 else stream rest := by
          cases s.noAck <;> rfl
        have hshorter : (if s.noAck then stream rest else (stream rest).drop 1).length < fuel := by
          have hle : (if s.noAck then stream rest else (stream rest).drop 1).length ≤
              (stream rest).length := by
            split <;> simp
          have hbytes : 0 < (Token.packet pkt hi lo).bytes.length := by simp [Token.bytes]
          rw [hinp, List.length_append] at hfuel
          omega
        obtain ⟨how, s', sent, hserve, hout, hanswers⟩ := ih hrest
          (s := { s with
            out := s.out ++ ackOf s.noAck ++ frame text, engine, breakpoints,
            inp := if s.noAck then stream rest else (stream rest).drop 1,
            noAck := s.noAck || startsNoAck pkt, armNoAck := startsNoAck pkt })
          (!s.noAck) hnext (horderly hresume) hshorter
        rw [Bool.false_or] at hhandle
        rw [← serveLoop_reply hpacket hinp hhandle] at hserve
        refine ⟨how, s', ackOf s.noAck ++ frame text ++ sent, hserve, ?_,
          .reply hresume htext ⟨_, _, ?_, ?_, hhandle⟩ hanswers⟩
        · rw [hout]
          simp only [List.append_assoc]
        · rfl
        · rfl

/-- On every stream of well-framed packets, interrupts and acknowledgements on which client and stub
take turns, serving returns and sends exactly what the protocol asks for. -/
theorem serve_answers_of_orderly (allocates : ℕ → Bool) (s : GdbStub) (tokens : List Token)
    (hframed : ∀ t ∈ tokens, t.WellFramed) (hinp : s.inp = stream tokens)
    (horderly : Orderly allocates s.noAck false tokens) :
    ∃ how s' sent, serve allocates s = .ok how s' ∧ s'.out = s.out ++ sent ∧
      Answers allocates s.engine s.noAck tokens sent :=
  serveLoop_answers hframed false hinp horderly (Nat.lt_succ_self _)

/-- A client asks for the stop reason, turns acknowledgements off, asks for the thread and
continues. -/
theorem serve_answers_of_orderly_handshake :
    ∃ how s' sent,
      serve (fun _ => true)
        { engine := .fresh .arm64, inp := ascii "$?#3f+$QStartNoAckMode#b0+$qC#b4$c#63" } =
          .ok how s' ∧
        s'.out = sent ∧
        Answers (fun _ => true) (.fresh .arm64) false
          [.packet (ascii "?") 0x33 0x66, .ack 0x2b,
            .packet (ascii "QStartNoAckMode") 0x62 0x30, .ack 0x2b,
            .packet (ascii "qC") 0x62 0x34, .packet (ascii "c") 0x36 0x33] sent :=
  serve_answers_of_orderly (fun _ => true)
    { engine := .fresh .arm64, inp := ascii "$?#3f+$QStartNoAckMode#b0+$qC#b4$c#63" }
    [.packet (ascii "?") 0x33 0x66, .ack 0x2b,
      .packet (ascii "QStartNoAckMode") 0x62 0x30, .ack 0x2b,
      .packet (ascii "qC") 0x62 0x34, .packet (ascii "c") 0x36 0x33]
    (by decide) (by decide) (by decide)

/-! ## The interrupt byte -/

/-- Every packet that is sent holds one `#`. -/
theorem count_frame {text : List UInt8} (htext : IsText text) : (frame text).count 0x23 = 1 := by
  have hdigit : ∀ v, hexDigit v ≠ 0x23 := fun v h =>
    absurd (isxdigit_hexDigit v) (by rw [h]; decide)
  rw [frame, List.count_append, List.count_cons_of_ne (by decide),
    List.count_eq_zero_of_not_mem htext.1, List.count_cons_self,
    List.count_cons_of_ne (hdigit _), List.count_cons_of_ne (hdigit _), List.count_nil]

/-- Acknowledgements are no requests. -/
def Token.isRequest : Token → Bool
  | .ack _ => false
  | _ => true

theorem count_ackOf (noAck : Bool) : (ackOf noAck).count 0x23 = 0 := by cases noAck <;> rfl

/-- No more packets are sent than requests were made. -/
theorem Answers.count_le {allocates : ℕ → Bool} {e : Engine} {noAck : Bool} {tokens : List Token}
    {sent : List UInt8} (h : Answers allocates e noAck tokens sent) :
    sent.count 0x23 ≤ tokens.countP Token.isRequest := by
  induction h with
  | done => rfl
  | reply hresume htext hreply hrest ih =>
    rw [List.count_append, List.count_append, count_ackOf, count_frame htext,
      List.countP_cons_of_pos rfl]
    omega
  | resume hresume => rw [count_ackOf]; exact Nat.zero_le _
  | silent hrest ih => rw [List.countP_cons_of_pos rfl]; omega
  | stop htext hrest ih =>
    rw [List.count_append, count_frame htext, List.countP_cons_of_pos rfl]
    omega
  | ack hrest ih => rw [List.countP_cons_of_neg Bool.false_ne_true]; exact ih

/-- An interrupt byte that the reader sees is answered with a stop reply and an empty reply. -/
theorem serveLoop_interrupt {allocates : ℕ → Bool} {s : GdbStub} {rest : List UInt8}
    (hinp : s.inp = 0x03 :: rest) (fuel : ℕ) :
    serveLoop allocates (fuel + 1) s =
      serveLoop allocates fuel
        { s with
          out := s.out ++ frame (stopText s.engine kSigInt) ++ frame [],
          inp := if s.noAck then rest else (rest.drop 1).drop 1,
          noAck := s.noAck || false, armNoAck := false, lastSignal := kSigInt } := by
  have hframes : readFrames s.noAck (s.inp.length + 1) s.inp = ([], some ([0x03], rest)) := by
    rw [hinp]
    rfl
  rw [serveLoop, bind_ok (readPacket_eq hframes), List.append_nil]
  cases s with
  | mk engine breakpoints noAck armNoAck lastSignal inp out => cases noAck <;> rfl

/-- A single interrupt, with acknowledgements for both packets that it draws. -/
theorem interrupt_answered_twice :
    ∃ s', serve (fun _ => true) { engine := .fresh .arm64, inp := 0x03 :: ascii "++" } =
        .ok .closed s' ∧
      s'.out = frame (stopText (.fresh .arm64) kSigInt) ++ frame [] ∧
      stream [.interrupt, .ack 0x2b, .ack 0x2b] = 0x03 :: ascii "++" ∧
      ¬Answers (fun _ => true) (.fresh .arm64) false [.interrupt, .ack 0x2b, .ack 0x2b] s'.out := by
  have hcount : (frame (stopText (.fresh .arm64) kSigInt) ++ frame []).count 0x23 = 2 := by
    decide +kernel
  have hserve : ∃ s', serveLoop (fun _ => true) 4
      { engine := .fresh .arm64, inp := 0x03 :: ascii "++" } = .ok .closed s' ∧
      s'.out = frame (stopText (.fresh .arm64) kSigInt) ++ frame [] := by
    rw [serveLoop_interrupt rfl, serveLoop_nil rfl]
    exact ⟨_, rfl, congrArg (· ++ frame []) (List.nil_append _)⟩
  obtain ⟨s', hserve, hout⟩ := hserve
  refine ⟨s', hserve, hout, rfl, fun hanswers => ?_⟩
  have hle : s'.out.count 0x23 ≤ 1 := hanswers.count_le
  rw [hout, hcount] at hle
  omega

end Vardoger.Gdb
