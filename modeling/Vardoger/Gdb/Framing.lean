import Vardoger.Gdb.Replies

/-!
# Framing

A client sends frames, each with two check digits behind its payload, and other bytes between them.
The reader is to return the payloads of the frames that carry their checksum and to skip the others.
It reads a check character that is no digit as zero, so it also takes a frame where such a character
stands for a digit `0`. We say on which streams it takes the good frames only.
-/

namespace Vardoger.Gdb

open Bytes Hex Stateful

/-- What a stream is made of: bytes between frames, and frames with their check characters. -/
inductive Piece
  | noise (c : UInt8)
  | frame (payload : List UInt8) (hi lo : UInt8)
  deriving DecidableEq, Repr

namespace Piece

def bytes : Piece → List UInt8
  | noise c => [c]
  | frame payload hi lo => 0x24 :: payload ++ [0x23, hi, lo]

/-- A byte between frames starts no frame and is no interrupt; a payload has no `#`. -/
def Valid : Piece → Prop
  | noise c => c ≠ 0x03 ∧ c ≠ 0x24
  | frame payload _ _ => 0x23 ∉ payload

instance (p : Piece) : Decidable p.Valid :=
  match p with
  | noise _ => inferInstanceAs (Decidable (_ ∧ _))
  | frame _ _ _ => inferInstanceAs (Decidable (_ ∉ _))

/-- The check characters of the frame are two digits, and they are those of the checksum. -/
def isGood : Piece → Bool
  | noise _ => false
  | frame payload hi lo => isxdigit hi && isxdigit lo && checksum payload = byteOf hi lo

/-- With every character that is no digit read as zero, the check characters give the checksum. -/
def looksGood : Piece → Bool
  | noise _ => false
  | frame payload hi lo => checksum payload = byteOf hi lo

def payload : Piece → List UInt8
  | noise _ => []
  | frame payload _ _ => payload

/-- The acknowledgement of a piece by a reader that takes some of the frames. -/
def ack (takes : Piece → Bool) : Piece → List UInt8
  | noise _ => []
  | frame payload hi lo => if takes (frame payload hi lo) then ascii "+" else ascii "-"

theorem looksGood_of_isGood {p : Piece} (h : p.isGood = true) : p.looksGood = true := by
  cases p with
  | noise c => cases h
  | frame payload hi lo =>
    simp only [isGood, Bool.and_eq_true] at h
    exact h.2

end Piece

/-- The bytes of a stream. -/
def streamOf (pieces : List Piece) : List UInt8 := pieces.flatMap Piece.bytes

/-- The payloads of the frames that a reader takes. -/
def taken (takes : Piece → Bool) (pieces : List Piece) : List (List UInt8) :=
  (pieces.filter takes).map Piece.payload

/-- The acknowledgements of such a reader, as long as packets are acknowledged. -/
def acksOf (takes : Piece → Bool) (noAck : Bool) (pieces : List Piece) : List UInt8 :=
  if noAck then [] else pieces.flatMap (Piece.ack takes)

/-- Call `read_packet` until the connection has ended. -/
def readPackets : ℕ → GdbM (List (List UInt8))
  | 0 => return []
  | fuel + 1 => do
    match ← readPacket with
    | none => return []
    | some pkt => return pkt :: (← readPackets fuel)

/-- On the stream, repeated reads return the payloads of the frames that are taken and acknowledge
each frame. -/
def ReadsFrames (takes : Piece → Bool) (pieces : List Piece) : Prop :=
  ∀ s : GdbStub, s.inp = streamOf pieces → ∀ fuel, pieces.countP takes < fuel →
    readPackets fuel s =
      .ok (taken takes pieces)
        { s with out := s.out ++ acksOf takes s.noAck pieces, inp := [] }

/-! ## One piece -/

section Reader

variable {noAck : Bool} {x rest payload : List UInt8} {hi lo : UInt8} {s : GdbStub}

/-- Fuel beyond the length of the stream changes nothing. -/
theorem readFrames_of_lt {fuel : ℕ} (hfuel : x.length < fuel) :
    readFrames noAck fuel x = readFrames noAck (x.length + 1) x := by
  obtain ⟨more, rfl⟩ : ∃ more, fuel = x.length + 1 + more := ⟨fuel - (x.length + 1), by omega⟩
  induction more with
  | zero => rfl
  | succ more ih => rw [← Nat.add_assoc, readFrames_succ (by omega), ih (by omega)]

/-- A frame whose check characters give its checksum is returned. -/
theorem readPacket_taken (hpayload : 0x23 ∉ payload) (hsum : checksum payload = byteOf hi lo)
    (hinp : s.inp = (Piece.frame payload hi lo).bytes ++ rest) :
    readPacket s = .ok (some payload) { s with out := s.out ++ ackOf s.noAck, inp := rest } := by
  have hframes : readFrames s.noAck (s.inp.length + 1) s.inp =
      (ackOf s.noAck, some (payload, rest)) := by
    rw [hinp]
    exact readFrames_packet hpayload hsum _
  rw [readPacket_eq hframes]
  rfl

/-- Another frame is rejected, and the reader goes on behind it. -/
theorem readPacket_damaged (hpayload : 0x23 ∉ payload) (hsum : checksum payload ≠ byteOf hi lo)
    (hinp : s.inp = (Piece.frame payload hi lo).bytes ++ rest) :
    readPacket s = readPacket
      { s with out := s.out ++ (if s.noAck then [] else ascii "-"), inp := rest } := by
  have hlt : rest.length < s.inp.length := by
    rw [hinp]
    simp only [Piece.bytes, List.length_append, List.length_cons]
    omega
  have hframes : readFrames s.noAck (s.inp.length + 1) s.inp =
      ((if s.noAck then [] else ascii "-") ++
          (readFrames s.noAck (rest.length + 1) rest).1,
        (readFrames s.noAck (rest.length + 1) rest).2) := by
    obtain ⟨fuel, hfuel⟩ : ∃ fuel, fuel = s.inp.length := ⟨_, rfl⟩
    rw [← readFrames_of_lt hlt, ← hfuel, hinp]
    exact (readFrames_frame hpayload fuel).trans (if_neg hsum)
  obtain ⟨t, ht⟩ : ∃ t : GdbStub, t =
    { s with out := s.out ++ (if s.noAck then [] else ascii "-"), inp := rest } := ⟨_, rfl⟩
  obtain ⟨acks, found, hrest⟩ : ∃ acks found,
    readFrames s.noAck (rest.length + 1) rest = (acks, found) := ⟨_, _, rfl⟩
  have hnext : readFrames t.noAck (t.inp.length + 1) t.inp = (acks, found) := by rw [ht, hrest]
  rw [hrest] at hframes
  rw [← ht, readPacket_eq hframes, readPacket_eq hnext, ht, List.append_assoc]

end Reader

/-! ## Streams -/

theorem readPackets_congr {s s' : GdbStub} (h : readPacket s = readPacket s') (fuel : ℕ) :
    readPackets (fuel + 1) s = readPackets (fuel + 1) s' := by
  cases hread : readPacket s' with
  | ok found t => rw [readPackets, bind_ok (h.trans hread), bind_ok hread]
  | error err t => rw [readPackets, bind_error (h.trans hread), bind_error hread]

theorem readPackets_some {s t t' : GdbStub} {pkt : List UInt8} {pkts : List (List UInt8)}
    {fuel : ℕ} (h : readPacket s = .ok (some pkt) t) (hrest : readPackets fuel t = .ok pkts t') :
    readPackets (fuel + 1) s = .ok (pkt :: pkts) t' := by
  rw [readPackets, bind_ok h]
  exact bind_ok hrest

theorem acksOf_cons (takes : Piece → Bool) (noAck : Bool) (p : Piece) (pieces : List Piece) :
    acksOf takes noAck (p :: pieces) =
      (if noAck then [] else p.ack takes) ++ acksOf takes noAck pieces := by
  cases noAck <;> rfl

theorem taken_cons (takes : Piece → Bool) (p : Piece) (pieces : List Piece) :
    taken takes (p :: pieces) =
      if takes p then p.payload :: taken takes pieces else taken takes pieces := by
  simp only [taken, List.filter_cons]
  split
  · rfl
  · rfl

/-- The reader takes the frames that look good to it. The induction is on the pieces; behind a piece
that is not taken the same call of `read_packet` goes on. -/
theorem readsFrames_looksGood {pieces : List Piece} (hvalid : ∀ p ∈ pieces, p.Valid) :
    ReadsFrames Piece.looksGood pieces := by
  induction pieces with
  | nil =>
    intro s hinp fuel hfuel
    obtain ⟨fuel, rfl⟩ : ∃ n, fuel = n + 1 := ⟨fuel - 1, by omega⟩
    have hinp : s.inp = [] := hinp
    have hstate : { s with out := s.out ++ acksOf Piece.looksGood s.noAck [], inp := [] } = s := by
      have hacks : acksOf Piece.looksGood s.noAck [] = [] := ite_self _
      rw [hacks, List.append_nil, ← hinp]
    rw [hstate, readPackets, bind_ok (readPacket_nil hinp)]
    rfl
  | cons p pieces ih =>
    intro s hinp fuel hfuel
    obtain ⟨fuel, rfl⟩ : ∃ n, fuel = n + 1 := ⟨fuel - 1, by omega⟩
    have ih := ih fun q hq => hvalid q (List.mem_cons_of_mem _ hq)
    have hp := hvalid p List.mem_cons_self
    rw [streamOf, List.flatMap_cons, ← streamOf] at hinp
    rw [acksOf_cons, taken_cons, ← List.append_assoc]
    cases p with
    | noise c =>
      have hinp : s.inp = c :: streamOf pieces := hinp
      have hread := readPacket_skip hp.1 hp.2 hinp
      rw [readPackets_congr hread, ih { s with inp := streamOf pieces } rfl (fuel + 1) hfuel]
      simp [Piece.looksGood, Piece.ack]
    | frame payload hi lo =>
      by_cases hsum : checksum payload = byteOf hi lo
      · have hlooks : (Piece.frame payload hi lo).looksGood = true := decide_eq_true hsum
        have hread := readPacket_taken hp hsum hinp
        rw [List.countP_cons_of_pos hlooks] at hfuel
        have hrest := ih { s with out := s.out ++ ackOf s.noAck, inp := streamOf pieces } rfl
          fuel (by omega)
        rw [readPackets_some hread hrest, if_pos hlooks, Piece.ack, if_pos hlooks]
        rfl
      · have hlooks : ¬(Piece.frame payload hi lo).looksGood = true := by
          simpa [Piece.looksGood] using hsum
        have hread := readPacket_damaged hp hsum hinp
        rw [List.countP_cons_of_neg hlooks] at hfuel
        have hrest := ih { s with
            out := s.out ++ (if s.noAck then [] else ascii "-"), inp := streamOf pieces } rfl
          (fuel + 1) hfuel
        rw [readPackets_congr hread, hrest, if_neg hlooks, Piece.ack, if_neg hlooks]

theorem ReadsFrames.congr {pieces : List Piece} {takes takes' : Piece → Bool}
    (h : ReadsFrames takes' pieces) (hsame : ∀ p ∈ pieces, takes p = takes' p) :
    ReadsFrames takes pieces := by
  have htaken : taken takes pieces = taken takes' pieces := by
    rw [taken, List.filter_congr hsame, taken]
  have hcount : pieces.countP takes = pieces.countP takes' := by
    rw [List.countP_eq_length_filter, List.filter_congr hsame, ← List.countP_eq_length_filter]
  have hacks : ∀ noAck, acksOf takes noAck pieces = acksOf takes' noAck pieces := by
    intro noAck
    have hflat : pieces.flatMap (Piece.ack takes) = pieces.flatMap (Piece.ack takes') := by
      apply List.flatMap_congr
      intro p hp
      cases p with
      | noise c => rfl
      | frame payload hi lo => rw [Piece.ack, hsame _ hp, Piece.ack]
    rw [acksOf, hflat, acksOf]
  intro s hinp fuel hfuel
  rw [htaken, hacks]
  exact h s hinp fuel (hcount ▸ hfuel)

/-- Repeated reads have one outcome on a stream. -/
theorem ReadsFrames.taken_eq {pieces : List Piece} {takes takes' : Piece → Bool}
    (h : ReadsFrames takes pieces) (h' : ReadsFrames takes' pieces) :
    taken takes pieces = taken takes' pieces := by
  obtain ⟨s, hs⟩ : ∃ s : GdbStub, s = ⟨Engine.fresh .arm64, fun _ => false, false, false, kSigTrap,
    streamOf pieces, []⟩ := ⟨_, rfl⟩
  obtain ⟨fuel, hfuel, hfuel'⟩ : ∃ fuel, pieces.countP takes < fuel ∧
    pieces.countP takes' < fuel := ⟨pieces.length + 1, by
      have := List.countP_le_length (p := takes) (l := pieces); omega, by
      have := List.countP_le_length (p := takes') (l := pieces); omega⟩
  have hrun := (h s (by rw [hs]) fuel hfuel).symm.trans (h' s (by rw [hs]) fuel hfuel')
  exact (EStateM.Result.ok.inj hrun).1

/-- If the reader took no more frames than the good ones, then no other frame looks good to it. -/
theorem isGood_of_taken_eq {pieces : List Piece}
    (h : taken Piece.isGood pieces = taken Piece.looksGood pieces) :
    ∀ p ∈ pieces, p.looksGood = true → p.isGood = true := by
  have hlength := congrArg List.length h
  simp only [taken, List.length_map] at hlength
  have hsub : (pieces.filter Piece.isGood).Sublist (pieces.filter Piece.looksGood) := by
    apply List.monotone_filter_right
    intro p
    exact Piece.looksGood_of_isGood
  have hsame := hsub.eq_of_length hlength
  intro p hp hlooks
  have hmem : p ∈ pieces.filter Piece.isGood := by
    rw [hsame]
    exact List.mem_filter.mpr ⟨hp, hlooks⟩
  exact (List.mem_filter.mp hmem).2

/-- Repeated reads return the payloads of the good frames and acknowledge each frame by what it is,
exactly if no damaged frame looks good: none has, in place of a digit `0`, a character that is no
digit. What `send_packet` sends is always read back. -/
theorem framing_exact_iff {pieces : List Piece} (hvalid : ∀ p ∈ pieces, p.Valid) :
    (ReadsFrames Piece.isGood pieces ↔
        ∀ p ∈ pieces, p.isGood = false → p.looksGood = false) ∧
      ∀ payload rest, ∀ s : GdbStub, 0x23 ∉ payload → s.inp = frame payload ++ rest →
        readPacket s =
          .ok (some payload) { s with out := s.out ++ ackOf s.noAck, inp := rest } := by
  have hlooks := readsFrames_looksGood hvalid
  refine ⟨⟨fun hgood p hp hbad => ?_, fun hnone => ?_⟩, fun payload rest s hpayload hinp => ?_⟩
  · by_contra hp_looks
    have hp_good := isGood_of_taken_eq (hgood.taken_eq hlooks) p hp (by simpa using hp_looks)
    rw [hp_good] at hbad
    cases hbad
  · have hsame : ∀ p ∈ pieces, p.isGood = p.looksGood := by
      intro p hp
      cases hgood : p.isGood with
      | true => exact (Piece.looksGood_of_isGood hgood).symm
      | false => exact (hnone p hp hgood).symm
    exact hlooks.congr hsame
  · exact readPacket_taken hpayload (byteOf_hexDigit _).symm hinp

/-- A stream with noise, a good frame and a damaged one. -/
theorem framing_exact_three :
    ReadsFrames Piece.isGood
      [.noise 0x2b, .frame (ascii "g") 0x36 0x37, .frame (ascii "g") 0x36 0x38] := by
  refine (framing_exact_iff ?_).1.mpr ?_
  · decide
  · decide

/-- The frame `$p#7z` is damaged, but the reader takes `z` for the digit `0`. -/
theorem damaged_frame_taken :
    (∀ p ∈ [Piece.frame (ascii "p") 0x37 0x7a], p.Valid ∧ p.isGood = false) ∧
      ¬ReadsFrames Piece.isGood [.frame (ascii "p") 0x37 0x7a] := by
  refine ⟨by decide, fun h => ?_⟩
  have hlooks : ReadsFrames Piece.looksGood [.frame (ascii "p") 0x37 0x7a] :=
    readsFrames_looksGood (by decide)
  have hgood := isGood_of_taken_eq (h.taken_eq hlooks) _ List.mem_cons_self (by decide)
  exact absurd hgood (by decide)

end Vardoger.Gdb
