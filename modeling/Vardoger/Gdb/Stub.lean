import Vardoger.Base.Stateful
import Vardoger.Gdb.Registers

/-!
# The debugger stub

`serve` reads packets from the client, answers them and returns when the client resumes the guest or
goes away. The connection is the list of bytes that the client has sent and the stub has not
received yet, and the list of bytes that the stub has sent; the end of the first is the end of the
connection. A packet is a payload between `$` and `#` with two digits of checksum behind it, or a
single `0x03` byte.
-/

namespace Vardoger.Gdb

open Bytes LittleEndian Hex Words

def kSigTrap : ℕ := 5

def kSigInt : ℕ := 2

/-- How serving ends. -/
inductive Resume
  | cont | step | detach | kill | closed
  deriving DecidableEq, Repr

/-- What a packet is answered with: a reply, or none because it resumes the guest. -/
inductive Answer
  | reply (text : List UInt8)
  | resume (how : Resume)
  deriving DecidableEq, Repr

/-- The state of the stub. -/
structure GdbStub where
  engine : Engine
  breakpoints : ℕ → Bool := fun _ => false
  noAck : Bool := false
  armNoAck : Bool := false
  lastSignal : ℕ := kSigTrap
  /-- What the client has sent and the stub has not received. -/
  inp : List UInt8
  /-- What the stub has sent. -/
  out : List UInt8 := []

abbrev GdbM := EStateM Failure GdbStub

/-! ## Transport -/

/-- The sum of the bytes of a payload. -/
def checksum (payload : List UInt8) : UInt8 := payload.foldl (· + ·) 0

/-- A payload between `$` and `#`, with its checksum. -/
def frame (payload : List UInt8) : List UInt8 :=
  0x24 :: payload ++
    [0x23, hexDigit ((checksum payload).toNat >>> 4), hexDigit ((checksum payload).toNat &&& 0xf)]

/-- Send a packet and, as long as packets are acknowledged, take one byte for the client's `+`. -/
def sendPacket (payload : List UInt8) : GdbM Unit :=
  modify fun s =>
    { s with out := s.out ++ frame payload, inp := if s.noAck then s.inp else s.inp.drop 1 }

/-- The loop of `read_packet`: the acknowledgements it sends, and the packet it finds with the bytes
behind it. The fuel bounds the packets with a wrong checksum, which are skipped. -/
def readFrames (noAck : Bool) : ℕ → List UInt8 → List UInt8 × Option (List UInt8 × List UInt8)
  | 0, _ => ([], none)
  | fuel + 1, inp =>
    match inp.dropWhile fun c => c ≠ 0x03 && c ≠ 0x24 with
    | [] => ([], none)
    | c :: x =>
      if c = 0x03 then ([], some ([0x03], x))
      else
        match x.dropWhile fun c => c ≠ 0x23 with
        | _ :: hi :: lo :: rest =>
          if checksum (x.takeWhile fun c => c ≠ 0x23) = byteOf hi lo then
            (if noAck then [] else ascii "+", some (x.takeWhile fun c => c ≠ 0x23, rest))
          else
            ((if noAck then [] else ascii "-") ++ (readFrames noAck fuel rest).1,
              (readFrames noAck fuel rest).2)
        | _ => ([], none)

/-- The packet that the reader found, and the stub behind it. -/
def received (s : GdbStub) :
    List UInt8 × Option (List UInt8 × List UInt8) → Option (List UInt8) × GdbStub
  | (acks, none) => (none, { s with out := s.out ++ acks, inp := [] })
  | (acks, some (pkt, rest)) => (some pkt, { s with out := s.out ++ acks, inp := rest })

/-- Read one packet; the connection is at its end when there is none. -/
def readPacket : GdbM (Option (List UInt8)) :=
  modifyGet fun s => received s (readFrames s.noAck (s.inp.length + 1) s.inp)

/-! ## Stop replies -/

/-- The value of a register as hex. -/
def regToHex (v bits : ℕ) : List UInt8 := bytesToHex (toBytes (bits / 8) v)

/-- The text of a stop reply: the signal, then the program counter and the stack pointer. -/
def stopText (e : Engine) (signal : ℕ) : List UInt8 :=
  ascii "T" ++ [hexDigit (signal >>> 4), hexDigit signal] ++
    ((tableFor e.abi).regs.zipIdx.flatMap fun r =>
      if r.1.generic = some "pc" ∨ r.1.generic = some "sp" then
        [hexDigit (r.2 >>> 4), hexDigit r.2] ++ ascii ":" ++
          regToHex (e.readUcReg r.1.ucId) r.1.bits ++ ascii ";"
      else []) ++
    ascii "thread:1;"

def sendStopReply (signal : ℕ) : GdbM Unit := do
  modify fun s => { s with lastSignal := signal }
  let s ← get
  sendPacket (stopText s.engine signal)

/-! ## The target description -/

/-- The type attribute of a register: its own, `uint128` for a vector, or none. -/
def regType (r : RegDesc) : List UInt8 :=
  match r.type with
  | some type => ascii " type=\"" ++ ascii type ++ ascii "\""
  | none => if r.bits = 128 then ascii " type=\"uint128\"" else []

/-- The `<reg>` line of a register. -/
def regLine (r : RegDesc) (regnum : ℕ) : List UInt8 :=
  ascii "    <reg name=\"" ++ ascii r.name ++ ascii "\" bitsize=\"" ++ decimal r.bits ++
    ascii "\" regnum=\"" ++ decimal regnum ++ ascii "\"" ++ regType r ++ ascii "/>\n"

def targetXml (abi : Abi) : List UInt8 :=
  let t := tableFor abi
  ascii "<?xml version=\"1.0\"?>\n<!DOCTYPE target SYSTEM \"gdb-target.dtd\">\n" ++
    ascii "<target version=\"1.0\">\n  <architecture>" ++ ascii t.arch ++
    ascii "</architecture>\n  <feature name=\"" ++ ascii t.feature ++ ascii "\">\n" ++
    (t.regs.zipIdx.flatMap fun r => if r.1.fpu then [] else regLine r.1 r.2) ++
    ascii "  </feature>\n" ++
    (if t.regs.any RegDesc.fpu then
      ascii "  <feature name=\"org.gnu.gdb.aarch64.fpu\">\n" ++
        (t.regs.zipIdx.flatMap fun r => if r.1.fpu then regLine r.1 r.2 else []) ++
        ascii "  </feature>\n"
    else []) ++
    ascii "</target>\n"

/-- The chunk of a text from an offset on, marked as the last one or not. -/
def chunk (xml : List UInt8) (off len : ℕ) : List UInt8 :=
  if xml.length ≤ off then ascii "l"
  else
    let fin := min (add64 off len) xml.length
    (if fin < xml.length then ascii "m" else ascii "l") ++ (xml.drop off).take (sub64 fin off)

/-! ## Packets -/

/-- Skip one character if it is the one expected. -/
def skipChar (c : UInt8) : List UInt8 → List UInt8
  | [] => []
  | a :: x => if a = c then x else a :: x

/-- The size a `std::vector<uint8_t>` cannot exceed. -/
def kMaxSize : ℕ := 2 ^ 63 - 1

section Packets

variable (allocates : ℕ → Bool)

/-- The room of a buffer, if the host can allocate it. -/
def newBuffer (tooLong : String) (len : ℕ) : GdbM Unit :=
  if len = 0 then pure ()
  else if kMaxSize < len then throw (.runtime tooLong)
  else if allocates len then pure ()
  else throw (.runtime "std::bad_alloc")

/-- `m addr,len`: read memory. -/
def readMemory (x : List UInt8) : GdbM Answer := do
  let addr := parseHexU64 0 x
  let len := parseHexU64 0 (skipChar 0x2c addr.2)
  if len.1 = 0 ∨ 0x100000 < len.1 then pure (.reply (ascii "E01"))
  else
    newBuffer allocates "cannot create std::vector larger than max_size()" len.1
    let s ← get
    match s.engine.read addr.1 len.1 with
    | .ok buf => pure (.reply (bytesToHex buf))
    | .error _ => pure (.reply (ascii "E01"))

/-- Write bytes and answer `OK`, or `E01` when the engine refuses. -/
def storeBytes (addr : ℕ) (buf : List UInt8) : GdbM Answer := do
  let s ← get
  match s.engine.write addr buf with
  | .ok engine =>
    set { s with engine }
    pure (.reply (ascii "OK"))
  | .error _ => pure (.reply (ascii "E01"))

/-- `M addr,len:hex`: write memory. -/
def writeMemory (x : List UInt8) : GdbM Answer := do
  let addr := parseHexU64 0 x
  let len := parseHexU64 0 (skipChar 0x2c addr.2)
  newBuffer allocates "cannot create std::vector larger than max_size()" len.1
  storeBytes addr.1 (zeroFill len.1 ((hexToBytes (skipChar 0x3a len.2)).take len.1))

/-- The bytes of a binary payload: `0x7d` escapes the byte behind it. -/
def unescape : ℕ → List UInt8 → List UInt8
  | 0, _ => []
  | _ + 1, [] => []
  | room + 1, b :: x =>
    if b = 0x7d then
      match x with
      | [] => []
      | c :: x => (c ^^^ 0x20) :: unescape room x
    else b :: unescape room x

/-- `X addr,len:bytes`: write memory. -/
def writeBinary (x : List UInt8) : GdbM Answer := do
  let addr := parseHexU64 0 x
  let len := parseHexU64 0 (skipChar 0x2c addr.2)
  newBuffer allocates "vector::reserve" len.1
  let buf := unescape len.1 (skipChar 0x3a len.2)
  if buf = [] then pure (.reply (ascii "OK")) else storeBytes addr.1 buf

/-- `Z type,addr` and `z type,addr`: insert or remove a breakpoint. -/
def setBreakpoint (present : Bool) : List UInt8 → GdbM Answer
  | [] => pure (.reply (ascii "E01"))
  | type :: x =>
    if type ≠ 0x30 ∧ type ≠ 0x31 then pure (.reply [])
    else do
      modify fun s =>
        { s with
          breakpoints := Function.update s.breakpoints (parseHexU64 0 (x.drop 1)).1 present }
      pure (.reply (ascii "OK"))

/-- The replies to the `q` packets, which depend on the architecture only. -/
def queryReply (abi : Abi) (pkt : List UInt8) : List UInt8 :=
  let ptrsize := if abi = .arm64 then ascii "8" else ascii "4"
  if (ascii "qSupported").isPrefixOf pkt then
    ascii "PacketSize=4000;qXfer:features:read+;QStartNoAckMode+;swbreak+;" ++
      ascii "hwbreak+;vContSupported+"
  else if pkt = ascii "qC" then ascii "QC1"
  else if pkt = ascii "qAttached" then ascii "1"
  else if pkt = ascii "qfThreadInfo" then ascii "m1"
  else if pkt = ascii "qsThreadInfo" then ascii "l"
  else if pkt = ascii "qHostInfo" then
    ascii "triple:" ++
      bytesToHex (if abi = .arm64 then ascii "aarch64-unknown-linux-android"
        else ascii "arm-unknown-linux-android") ++
      ascii ";endian:little;ptrsize:" ++ ptrsize ++ ascii ";"
  else if pkt = ascii "qProcessInfo" then
    ascii "pid:1;endian:little;ptrsize:" ++ ptrsize ++ ascii ";"
  else if (ascii "qRegisterInfo").isPrefixOf pkt then
    registerInfo abi (parseHexU64 0 (pkt.drop 13)).1
  else if (ascii "qXfer:features:read:").isPrefixOf pkt then
    let off := parseHexU64 0 (((pkt.drop 20).dropWhile fun c => c ≠ 0x3a).drop 1)
    let len := parseHexU64 0 (skipChar 0x2c off.2)
    chunk (targetXml abi) off.1 len.1
  else []

/-- The `v` packets. -/
def vPacket (pkt : List UInt8) : Answer :=
  if pkt = ascii "vCont?" then .reply (ascii "vCont;c;C;s;S")
  else if (ascii "vCont;").isPrefixOf pkt then
    let act := (pkt.drop 6).headD 0x63
    .resume (if act = 0x73 ∨ act = 0x53 then .step else .cont)
  else .reply []

/-- The big switch over the first character of a packet. -/
def handlePacket : List UInt8 → GdbM Answer
  | [] => pure (.reply [])
  | cmd :: x =>
    if cmd = 0x03 then do
      sendStopReply kSigInt
      pure (.reply [])
    else if cmd = '?'.toUInt8 then pure (.reply (ascii "S05"))
    else if cmd = 'g'.toUInt8 then do
      let s ← get
      pure (.reply (readAllRegsHex s.engine))
    else if cmd = 'G'.toUInt8 then do
      modify fun s => { s with engine := writeAllRegsHex s.engine x }
      pure (.reply (ascii "OK"))
    else if cmd = 'p'.toUInt8 then do
      let s ← get
      pure (.reply (readOneRegHex s.engine (parseHexU64 0 x).1))
    else if cmd = 'P'.toUInt8 then do
      let n := parseHexU64 0 x
      modify fun s => { s with engine := writeOneRegHex s.engine n.1 (skipChar 0x3d n.2) }
      pure (.reply (ascii "OK"))
    else if cmd = 'm'.toUInt8 then readMemory allocates x
    else if cmd = 'M'.toUInt8 then writeMemory allocates x
    else if cmd = 'X'.toUInt8 then writeBinary allocates x
    else if cmd = 'c'.toUInt8 ∨ cmd = 'C'.toUInt8 then pure (.resume .cont)
    else if cmd = 's'.toUInt8 ∨ cmd = 'S'.toUInt8 then pure (.resume .step)
    else if cmd = 'Z'.toUInt8 then setBreakpoint true x
    else if cmd = 'z'.toUInt8 then setBreakpoint false x
    else if cmd = 'H'.toUInt8 then pure (.reply (ascii "OK"))
    else if cmd = 'D'.toUInt8 then pure (.resume .detach)
    else if cmd = 'k'.toUInt8 then pure (.resume .kill)
    else if cmd = 'q'.toUInt8 then do
      let s ← get
      pure (.reply (queryReply s.engine.abi (cmd :: x)))
    else if cmd = 'Q'.toUInt8 then
      if cmd :: x = ascii "QStartNoAckMode" then do
        modify fun s => { s with armNoAck := true }
        pure (.reply (ascii "OK"))
      else pure (.reply [])
    else if cmd = 'v'.toUInt8 then pure (vPacket (cmd :: x))
    else pure (.reply [])

/-- The loop of `serve`; every round takes at least one byte from the connection. -/
def serveLoop : ℕ → GdbM Resume
  | 0 => pure .closed
  | fuel + 1 => do
    match ← readPacket with
    | none => pure .closed
    | some pkt =>
      modify fun s => { s with armNoAck := false }
      match ← handlePacket allocates pkt with
      | .resume how => pure how
      | .reply text =>
        sendPacket text
        -- The reply to `QStartNoAckMode` is the last packet that is acknowledged.
        modify fun s => { s with noAck := s.noAck || s.armNoAck }
        serveLoop fuel

def serve : GdbM Resume := do
  let s ← get
  serveLoop allocates (s.inp.length + 1)

end Packets

end Vardoger.Gdb
