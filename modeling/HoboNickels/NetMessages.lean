import HoboNickels.WalletZap

/-!
# Messages from a peer

The socket thread passes what it receives to `CNode::ReceiveMsgBytes`, in pieces of any size, which
puts messages together in the queue `vRecvMsg`. The message thread calls `ProcessMessages`, which
hands the complete messages to `ProcessMessage` and may stop after any of them. `Peer.run` is a
connection on which the two calls are made in any order; the effects of `ProcessMessage` are left
out.
-/

namespace HoboNickels.NetMessages

structure CMessageHeader where
  pchMessageStart : Bytes
  pchCommand : Bytes
  nMessageSize : Nat
  nChecksum : Nat
  deriving DecidableEq

namespace CMessageHeader

def ofBytes (b : Bytes) : CMessageHeader where
  pchMessageStart := b.take 4
  pchCommand := (b.drop 4).take 12
  nMessageSize := littleEndian ((b.drop 16).take 4)
  nChecksum := littleEndian ((b.drop 20).take 4)

def getCommand (hdr : CMessageHeader) : Bytes :=
  if hdr.pchCommand.getLast? = some 0 then hdr.pchCommand.takeWhile (· ≠ 0) else hdr.pchCommand

/-- Printable characters, and only zeros after the first zero. -/
def commandOk : Bytes → Bool
  | [] => true
  | p :: rest =>
    if p = 0 then rest.all (· = 0)
    else if p < 0x20 || p > 0x7e then false
    else commandOk rest

def isValid (pchMessageStart : Bytes) (hdr : CMessageHeader) : Bool :=
  hdr.pchMessageStart = pchMessageStart && commandOk hdr.pchCommand &&
    decide (hdr.nMessageSize ≤ MAX_SIZE)

end CMessageHeader

/-! ## Receiving -/

structure CNetMessage where
  in_data : Bool
  hdrbuf : Bytes
  hdr : CMessageHeader
  nHdrPos : Nat
  vRecv : Bytes
  nDataPos : Nat
  deriving DecidableEq

def memcpy (buf : Bytes) (pos : Nat) (src : Bytes) : Bytes :=
  buf.take pos ++ src ++ buf.drop (pos + src.length)

def resize (buf : Bytes) (n : Nat) : Bytes := buf.take n ++ List.replicate (n - buf.length) 0

namespace CNetMessage

/-- `CNetMessage(nTypeIn, nVersionIn)`; the header is the one of `CMessageHeader()`. -/
def new (pchMessageStart : Bytes) : CNetMessage where
  in_data := false
  hdrbuf := List.replicate 24 0
  hdr := ⟨pchMessageStart, 0 :: 1 :: List.replicate 10 0, 2 ^ 32 - 1, 0⟩
  nHdrPos := 0
  vRecv := []
  nDataPos := 0

def complete (msg : CNetMessage) : Bool := msg.in_data && msg.hdr.nMessageSize == msg.nDataPos

/-- `readHeader`, and the number of bytes used; no number stands for `-1`. -/
def readHeader (msg : CNetMessage) (pch : Bytes) : CNetMessage × Option Nat :=
  let nRemaining := 24 - msg.nHdrPos
  let nCopy := min nRemaining pch.length
  let msg₁ := { msg with
    hdrbuf := memcpy msg.hdrbuf msg.nHdrPos (pch.take nCopy), nHdrPos := msg.nHdrPos + nCopy }
  if msg₁.nHdrPos < 24 then (msg₁, some nCopy)
  else
    let msg₂ := { msg₁ with hdr := CMessageHeader.ofBytes msg₁.hdrbuf }
    if msg₂.hdr.nMessageSize > MAX_SIZE then (msg₂, none)
    else ({ msg₂ with in_data := true }, some nCopy)

def readData (msg : CNetMessage) (pch : Bytes) : CNetMessage × Option Nat :=
  let nRemaining := msg.hdr.nMessageSize - msg.nDataPos
  let nCopy := min nRemaining pch.length
  let vRecv :=
    if msg.vRecv.length < msg.nDataPos + nCopy then
      resize msg.vRecv (min msg.hdr.nMessageSize (msg.nDataPos + nCopy + 256 * 1024))
    else msg.vRecv
  ({ msg with
      vRecv := memcpy vRecv msg.nDataPos (pch.take nCopy), nDataPos := msg.nDataPos + nCopy },
    some nCopy)

end CNetMessage

/-- What does not change during a connection: the magic bytes of the network, and the checksum of
a payload. -/
structure NetParams where
  pchMessageStart : Bytes
  checksum : Bytes → Nat

variable (net : NetParams)

/-- The current incomplete message, or a new one, and the messages before it. -/
def openMessage (vRecvMsg : List CNetMessage) : List CNetMessage × CNetMessage :=
  match vRecvMsg.getLast? with
  | none => (vRecvMsg, .new net.pchMessageStart)
  | some msg =>
    if msg.complete then (vRecvMsg, .new net.pchMessageStart) else (vRecvMsg.dropLast, msg)

/-- The loop of `ReceiveMsgBytes`; every iteration uses at least one byte. -/
def receiveFrom : Nat → List CNetMessage → Bytes → List CNetMessage × Bool
  | 0, vRecvMsg, _ => (vRecvMsg, true)
  | fuel + 1, vRecvMsg, pch =>
    if pch.isEmpty then (vRecvMsg, true)
    else
      let (front, msg) := openMessage net vRecvMsg
      match if msg.in_data then msg.readData pch else msg.readHeader pch with
      | (msg', none) => (front ++ [msg'], false)
      | (msg', some handled) => receiveFrom fuel (front ++ [msg']) (pch.drop handled)

def receiveMsgBytes (vRecvMsg : List CNetMessage) (pch : Bytes) : List CNetMessage × Bool :=
  receiveFrom net pch.length vRecvMsg pch

/-- What a pass of `ProcessMessages` meets at the messages it looks at, counted from the first. -/
structure PassCalls where
  fSendFull : Nat → Bool
  /-- The time slice is used up, or the node is shutting down, after the message is processed. -/
  fSliceOver : Nat → Bool

/-- The commands and payloads that a pass hands to `ProcessMessage`, the queue it leaves and its
answer. -/
structure PassResult where
  handed : List (Bytes × Bytes)
  vRecvMsg : List CNetMessage
  fOk : Bool

def processFrom (calls : PassCalls) : Nat → List CNetMessage → PassResult
  | _, [] => ⟨[], [], true⟩
  | i, msg :: rest =>
    if calls.fSendFull i || !msg.complete then ⟨[], msg :: rest, true⟩
    else if msg.hdr.pchMessageStart ≠ net.pchMessageStart then ⟨[], rest, false⟩
    else if !msg.hdr.isValid net.pchMessageStart then processFrom calls (i + 1) rest
    else if net.checksum (msg.vRecv.take msg.hdr.nMessageSize) ≠ msg.hdr.nChecksum then
      processFrom calls (i + 1) rest
    else
      let message := (msg.hdr.getCommand, msg.vRecv)
      if calls.fSliceOver i then ⟨[message], rest, true⟩
      else
        let later := processFrom calls (i + 1) rest
        { later with handed := message :: later.handed }

def processMessages (calls : PassCalls) (vRecvMsg : List CNetMessage) : PassResult :=
  processFrom net calls 0 vRecvMsg

/-! ## A connection -/

/-- The message of the stream at which the connection is given up, counted from zero. -/
inductive Rejection where
  | tooLarge (n : Nat)
  | badStart (n : Nat)
  deriving DecidableEq

def Rejection.index : Rejection → Nat
  | tooLarge n => n
  | badStart n => n

/-- The queue, what was handed over so far, how many messages were erased, and the end of the
connection. -/
structure Peer where
  vRecvMsg : List CNetMessage
  handed : List (Bytes × Bytes)
  nErased : Nat
  rejected : Option Rejection

def Peer.empty : Peer := ⟨[], [], 0, none⟩

inductive NetEvent where
  | receive (pch : Bytes)
  | process (calls : PassCalls)

/-- `CloseSocketDisconnect` clears the queue, and nothing happens after it. -/
def Peer.step (s : Peer) (event : NetEvent) : Peer :=
  match s.rejected, event with
  | some _, _ => s
  | none, .receive pch =>
    let (vRecvMsg, fOk) := receiveMsgBytes net s.vRecvMsg pch
    if fOk then { s with vRecvMsg := vRecvMsg }
    else
      { s with vRecvMsg := [], rejected := some (.tooLarge (s.nErased + (vRecvMsg.length - 1))) }
  | none, .process calls =>
    let result := processMessages net calls s.vRecvMsg
    let nErased := s.nErased + (s.vRecvMsg.length - result.vRecvMsg.length)
    if result.fOk then ⟨result.vRecvMsg, s.handed ++ result.handed, nErased, none⟩
    else ⟨[], s.handed ++ result.handed, nErased, some (.badStart (nErased - 1))⟩

def Peer.run (events : List NetEvent) : Peer := events.foldl (Peer.step net) Peer.empty

def NetEvent.bytes : NetEvent → Bytes
  | receive pch => pch
  | process _ => []

def received (events : List NetEvent) : Bytes := events.flatMap NetEvent.bytes

end HoboNickels.NetMessages
