import Vardoger.Gdb.MemoryPackets

/-!
# The transfer of the target description

A client reads the target description in chunks of its own choice: it asks for a length at an
offset, goes on behind what it received and stops at the first chunk that is marked as the last.
The stub forms the end of a chunk in 64 bits. When that wraps, it sends all that is left without the
mark, and the next chunk is empty and marked.
-/

namespace Vardoger.Gdb

open Bytes Hex Words Stateful

/-- The request for a chunk of the target description. -/
def featuresRequest (off len : ℕ) : List UInt8 :=
  ascii "qXfer:features:read:target.xml:" ++ (hexText off ++ 0x2c :: hexText len)

/-- A client that asks for chunks of the lengths `lens i`, `lens (i + 1)`, …, the first of them at
`off`. It takes what it receives and stops at the first chunk marked `l`. Any reply other than a
chunk, or the end of the requests that it may make, gives nothing. -/
def fetchFeatures (allocates : ℕ → Bool) (lens : ℕ → ℕ) :
    (requests i off : ℕ) → GdbM (Option (List UInt8))
  | 0, _, _ => pure none
  | requests + 1, i, off => do
    match ← handlePacket allocates (featuresRequest off (lens i)) with
    | .reply (mark :: data) =>
      if mark = 'l'.toUInt8 then pure (some data)
      else if mark = 'm'.toUInt8 then do
        let rest ← fetchFeatures allocates lens requests (i + 1) (off + data.length)
        pure (rest.map (data ++ ·))
      else pure none
    | _ => pure none

/-! ## One request -/

theorem getD_of_isPrefix {x y : List UInt8} {b c : UInt8} (h : List.IsPrefix x (b :: c :: y)) :
    x.getD 1 c = c := by
  obtain ⟨z, hz⟩ := h
  match x, hz with
  | [], _ => rfl
  | [_], _ => rfl
  | _ :: c' :: _, hz => exact (List.cons.inj (List.cons.inj hz).2).1

/-- Of all queries, only the transfer of features has an `X` behind the `q`. -/
theorem queryReply_features (abi : Abi) (x : List UInt8) :
    queryReply abi (ascii "qXfer:features:read:target.xml:" ++ x) =
      chunk (targetXml abi) (parseHexU64 0 x).1
        (parseHexU64 0 (skipChar 0x2c (parseHexU64 0 x).2)).1 := by
  obtain ⟨y, hy⟩ : ∃ y, ascii "qXfer:features:read:target.xml:" ++ x = 0x71 :: 0x58 :: y :=
    ⟨_, rfl⟩
  have hother {s : String} (hs : (ascii s).getD 1 0x58 ≠ 0x58) :
      ¬(ascii s).isPrefixOf (ascii "qXfer:features:read:target.xml:" ++ x) = true := by
    rw [hy, List.isPrefixOf_iff_prefix]
    exact fun h => hs (getD_of_isPrefix h)
  have hne {s : String} (hs : (ascii s).getD 1 0x58 ≠ 0x58) :
      ascii "qXfer:features:read:target.xml:" ++ x ≠ ascii s := by
    rw [hy]
    exact fun h => hs (getD_of_isPrefix ⟨[], by rw [List.append_nil, h]⟩)
  have hfeatures : (ascii "qXfer:features:read:").isPrefixOf
      (ascii "qXfer:features:read:target.xml:" ++ x) = true := rfl
  have hnumbers : (((ascii "qXfer:features:read:target.xml:" ++ x).drop 20).dropWhile
      fun c => c ≠ 0x3a).drop 1 = x := rfl
  rw [queryReply]
  simp only
  rw [if_neg (hother (by decide)), if_neg (hne (by decide)), if_neg (hne (by decide)),
    if_neg (hne (by decide)), if_neg (hne (by decide)), if_neg (hne (by decide)),
    if_neg (hne (by decide)), if_neg (hother (by decide)), if_pos hfeatures, hnumbers]

/-- A request is answered with the chunk of the description that it names. -/
theorem handlePacket_featuresRequest (allocates : ℕ → Bool) {off len : ℕ} (hoff : off < 2 ^ 64)
    (hlen : len < 2 ^ 64) (s : GdbStub) :
    handlePacket allocates (featuresRequest off len) s =
      .ok (.reply (chunk (targetXml s.engine.abi) off len)) s := by
  have hquery : handlePacket allocates (featuresRequest off len) s =
      .ok (.reply (queryReply s.engine.abi (featuresRequest off len))) s := rfl
  have hoffset : parseHexU64 0 (hexText off ++ 0x2c :: hexText len) = (off, 0x2c :: hexText len) :=
    parseHexU64_hexText hoff fun c hc => by rw [← Option.some.inj hc]; decide
  have hlength : parseHexU64 0 (hexText len) = (len, []) := by
    have hread := parseHexU64_hexText (x := []) hlen (by simp)
    rwa [List.append_nil] at hread
  rw [hquery, featuresRequest, queryReply_features, hoffset, skipChar, if_pos rfl, hlength]

/-- The chunk at an offset is all that is left, marked as the last one; or it is a part of it or
all of it without the mark, and not empty. -/
theorem chunk_cases {xml : List UInt8} {len : ℕ} (off : ℕ) (hxml : xml.length < 2 ^ 64)
    (hpos : 0 < len) (hlen : len < 2 ^ 64) :
    chunk xml off len = 'l'.toUInt8 :: xml.drop off ∨
      ∃ data, chunk xml off len = 'm'.toUInt8 :: data ∧ data ≠ [] ∧
        data ++ xml.drop (off + data.length) = xml.drop off := by
  rw [chunk]
  split
  next hend =>
    left
    rw [List.drop_eq_nil_of_le hend]
    rfl
  next hin =>
    -- The end wraps at most once, to a number below the offset; the difference wraps back.
    obtain ⟨n, hn⟩ : ∃ n, n = sub64 (min (add64 off len) xml.length) off := ⟨_, rfl⟩
    dsimp only
    rw [← hn]
    have hadd : add64 off len = (off + len) % 2 ^ 64 := rfl
    have hsub : n = (min (add64 off len) xml.length + (2 ^ 64 - off % 2 ^ 64)) % 2 ^ 64 := hn
    split
    next hmore =>
      right
      refine ⟨(xml.drop off).take n, rfl, ?_, ?_⟩
      · have hlength : 0 < ((xml.drop off).take n).length := by
          rw [List.length_take, List.length_drop]
          omega
        exact List.ne_nil_of_length_pos hlength
      · rw [← List.drop_drop]
        exact List.prefix_iff_eq_append.mp (List.take_prefix n _)
    next hlast =>
      left
      have hall : xml.length - off ≤ n := by omega
      rw [List.take_of_length_le (by rwa [List.length_drop])]
      rfl

/-! ## The transfer -/

theorem length_targetXml_lt (abi : Abi) : (targetXml abi).length < 2 ^ 64 := by
  have harm64 : (targetXml .arm64).length < 2 ^ 64 := by decide +kernel
  have harm32 : (targetXml .arm32).length < 2 ^ 64 := by decide +kernel
  cases abi with
  | arm64 => exact harm64
  | arm32 => exact harm32
  | x86 => exact harm32
  | x8664 => exact harm32

section Transfer

variable {allocates : ℕ → Bool} {lens : ℕ → ℕ} {s : GdbStub}

/-- What is left is received, whatever lengths are asked for. The induction is on what is left. -/
theorem fetchFeatures_drop (hlens : ∀ i, 0 < lens i ∧ lens i < 2 ^ 64) {off : ℕ}
    (hoff : off ≤ (targetXml s.engine.abi).length) (i : ℕ) :
    ∃ requests, fetchFeatures allocates lens requests i off s =
      .ok (some ((targetXml s.engine.abi).drop off)) s := by
  have hxml := length_targetXml_lt s.engine.abi
  induction hleft : (targetXml s.engine.abi).length - off using Nat.strong_induction_on
    generalizing off i with
  | _ left ih =>
    obtain ⟨hpos, hlen⟩ := hlens i
    have hreply := handlePacket_featuresRequest allocates (by omega : off < 2 ^ 64) hlen s
    rcases chunk_cases off hxml hpos hlen with hlast | ⟨data, hmore, hdata, happend⟩
    · refine ⟨1, ?_⟩
      rw [fetchFeatures, bind_ok hreply, hlast]
      rfl
    · have hlength : data.length + ((targetXml s.engine.abi).length - (off + data.length)) =
          (targetXml s.engine.abi).length - off := by
        have hsizes := congrArg List.length happend
        rwa [List.length_append, List.length_drop, List.length_drop] at hsizes
      have hsome : 0 < data.length := List.length_pos_of_ne_nil hdata
      have hstep : off + data.length ≤ (targetXml s.engine.abi).length := by omega
      obtain ⟨requests, hrest⟩ := ih _ (by omega) hstep (i + 1) rfl
      refine ⟨requests + 1, ?_⟩
      rw [fetchFeatures, bind_ok hreply, hmore]
      refine (bind_ok hrest).trans ?_
      rw [Option.map_some, happend]
      rfl

/-- Every sequence of positive 64-bit chunk lengths gives the whole description. -/
theorem target_description_received (hlens : ∀ i, 0 < lens i ∧ lens i < 2 ^ 64) :
    ∃ requests, fetchFeatures allocates lens requests 0 0 s =
      .ok (some (targetXml s.engine.abi)) s :=
  fetchFeatures_drop hlens (Nat.zero_le _) 0

end Transfer

/-- Chunks of `0x200` bytes, then a length that wraps. -/
theorem target_description_received_wrapping :
    ∃ requests, fetchFeatures (fun _ => true) (fun i => if i < 2 then 0x200 else 2 ^ 64 - 1)
      requests 0 0 pageStub = .ok (some (targetXml .arm64)) pageStub := by
  apply target_description_received
  intro i
  split <;> decide

end Vardoger.Gdb
