/-
Messages between nodes: the header, the queue of buffers a node sends from,
and the messages a node puts together from what it receives.
-/
import Pinkcoin.Wire

namespace Pinkcoin

open CScript (leBytes leNat)
open CDataStream (read)
open StateError

def COMMAND_SIZE : Nat := 12

def HEADER_SIZE : Nat := 24

def MESSAGE_SIZE_OFFSET : Nat := 16

def CHECKSUM_OFFSET : Nat := 20

structure CMessageHeader where
  pchMessageStart : List UInt8
  pchCommand : List UInt8
  nMessageSize : Nat
  nChecksum : Nat
  deriving DecidableEq

namespace CMessageHeader

/-- `CMessageHeader()`. -/
def init (start : List UInt8) : CMessageHeader := ⟨start, 0 :: 1 :: List.replicate 10 0, 2 ^ 32 - 1, 0⟩

/-- `strncpy` of a command that ends with a zero byte. -/
def command (pszCommand : List UInt8) : List UInt8 := (pszCommand.takeWhile (· ≠ 0) ++ List.replicate COMMAND_SIZE 0).take COMMAND_SIZE

/-- `CMessageHeader(pszCommand, 0)`. -/
def ofCommand (start pszCommand : List UInt8) : CMessageHeader := ⟨start, command pszCommand, 0, 0⟩

def serialize (hdr : CMessageHeader) : List UInt8 :=
  hdr.pchMessageStart ++ (hdr.pchCommand ++ (leBytes 4 hdr.nMessageSize ++ leBytes 4 hdr.nChecksum))

def unserialize : StreamM CMessageHeader := do
  let pchMessageStart ← read 4
  let pchCommand ← read COMMAND_SIZE
  let nMessageSize ← readUInt 4
  let nChecksum ← readUInt 4
  pure ⟨pchMessageStart, pchCommand, nMessageSize, nChecksum⟩

end CMessageHeader

/-- `memcpy` to a position of a buffer. -/
def overwrite (buffer : List UInt8) (pos : Nat) (chunk : List UInt8) : List UInt8 :=
  buffer.take pos ++ (chunk ++ buffer.drop (pos + chunk.length))

/-- `resize`. -/
def resize (buffer : List UInt8) (n : Nat) : List UInt8 := buffer.take n ++ List.replicate (n - buffer.length) 0

/-! ## Receiving -/

/-- A message that is received. The stream `hdrbuf` is empty once the header
has been read off it. -/
structure CNetMessage where
  in_data : Bool
  hdrbuf : CDataStream
  hdr : CMessageHeader
  nHdrPos : Nat
  vRecv : List UInt8
  nDataPos : Nat
  nTime : Int
  deriving DecidableEq

namespace CNetMessage

/-- `CNetMessage(…)`. -/
def init (start : List UInt8) : CNetMessage := ⟨false, ⟨List.replicate 24 0, 0⟩, .init start, 0, [], 0, 0⟩

def complete (msg : CNetMessage) : Bool := msg.in_data && msg.hdr.nMessageSize = msg.nDataPos

/-- `readHeader`. Nothing is handled when -1 is returned. -/
def readHeader (msg : CNetMessage) (pch : List UInt8) : Option Nat × CNetMessage :=
  let nCopy := min (24 - msg.nHdrPos) pch.length
  let msg := { msg with hdrbuf := ⟨overwrite msg.hdrbuf.vch msg.nHdrPos (pch.take nCopy), msg.hdrbuf.nReadPos⟩,
                        nHdrPos := msg.nHdrPos + nCopy }
  if msg.nHdrPos < 24 then (some nCopy, msg)
  else match CMessageHeader.unserialize msg.hdrbuf with
    | .error _ hdrbuf => (none, { msg with hdrbuf })
    | .ok hdr hdrbuf =>
      let msg := { msg with hdrbuf, hdr }
      if MAX_SIZE < hdr.nMessageSize then (none, msg)
      else (some nCopy, { msg with in_data := true, vRecv := resize msg.vRecv hdr.nMessageSize })

/-- `readData`. -/
def readData (msg : CNetMessage) (pch : List UInt8) : Option Nat × CNetMessage :=
  let nCopy := min (msg.hdr.nMessageSize - msg.nDataPos) pch.length
  (some nCopy, { msg with vRecv := overwrite msg.vRecv msg.nDataPos (pch.take nCopy), nDataPos := msg.nDataPos + nCopy })

/-- One of the two. -/
def absorb (msg : CNetMessage) (pch : List UInt8) : Option Nat × CNetMessage :=
  if msg.in_data then msg.readData pch else msg.readHeader pch

/-- The messages before the one that is put together, and that one: the last,
or a new one. -/
def current (start : List UInt8) (vRecvMsg : List CNetMessage) : List CNetMessage × CNetMessage :=
  match vRecvMsg.getLast? with
  | none => (vRecvMsg, .init start)
  | some msg => if msg.complete then (vRecvMsg, .init start) else (vRecvMsg.dropLast, msg)

/-- The loop of `ReceiveMsgBytes`. `clock` is what `GetTimeMicros` gives when
so many bytes are left; each round handles a byte at least. -/
def receiveLoop (start : List UInt8) (clock : Nat → Int) : Nat → List CNetMessage → List UInt8 → Bool × List CNetMessage
  | 0, vRecvMsg, pch => (pch.isEmpty, vRecvMsg)
  | fuel + 1, vRecvMsg, pch =>
    if pch.isEmpty then (true, vRecvMsg)
    else
      let (front, msg) := current start vRecvMsg
      match msg.absorb pch with
      | (none, msg) => (false, front ++ [msg])
      | (some handled, msg) =>
        let pch := pch.drop handled
        receiveLoop start clock fuel (front ++ [if msg.complete then { msg with nTime := clock pch.length } else msg]) pch

/-- `CNode::ReceiveMsgBytes`. -/
def receiveMsgBytes (start : List UInt8) (clock : Nat → Int) (vRecvMsg : List CNetMessage) (pch : List UInt8) :
    Bool × List CNetMessage := receiveLoop start clock pch.length vRecvMsg pch

end CNetMessage

/-! ## Sending -/

/-- What a call of `send` comes to: so many bytes are taken, or it fails, with
an error that closes the socket or with one that does not. -/
inductive SendResult
  | taken (nBytes : Nat)
  | failed (fatal : Bool)
  deriving DecidableEq

/-- A node as far as it sends: `sent` are the bytes its socket took, `results`
is what the next calls of `send` come to. -/
structure SendNode where
  ssSend : List UInt8
  vSendMsg : List (List UInt8)
  nSendOffset : Nat
  nSendSize : Nat
  closed : Bool
  sent : List UInt8
  results : Nat → SendResult

abbrev SendM := EStateM String SendNode

namespace SendNode

/-- `send`. No more bytes are taken than there are, and none by a socket that
is closed. -/
def send (data : List UInt8) : SendM SendResult := fun s =>
  match s.results 0 with
  | .failed fatal => .ok (.failed fatal) { s with results := fun i => s.results (i + 1) }
  | .taken nBytes =>
    if s.closed then .ok (.failed true) { s with results := fun i => s.results (i + 1) }
    else .ok (.taken (min nBytes data.length)) { s with results := fun i => s.results (i + 1), sent := s.sent ++ data.take nBytes }

/-- The loop of `SocketSendData`, over the buffers that are left. -/
def sendLoop : List (List UInt8) → SendM (List (List UInt8))
  | [] => pure []
  | data :: rest => do
    let s ← get
    rejectIf (¬ s.nSendOffset < data.length) "assert(data.size() > pnode->nSendOffset)"
    let result ← send (data.drop s.nSendOffset)
    match result with
    | .taken nBytes =>
      if 0 < nBytes then
        if s.nSendOffset + nBytes = data.length then do
          modify fun s => { s with nSendOffset := 0, nSendSize := s.nSendSize - data.length }
          sendLoop rest
        else do
          modify fun s => { s with nSendOffset := s.nSendOffset + nBytes }
          pure (data :: rest)
      else pure (data :: rest)
    | .failed fatal => do
      onlyIf (fatal = true) (modify fun s => { s with closed := true })
      pure (data :: rest)

/-- `SocketSendData`. -/
def socketSendData : SendM Unit := do
  let s ← get
  let rest ← sendLoop s.vSendMsg
  let s ← get
  onlyIf (rest = []) do
    rejectIf (s.nSendOffset ≠ 0) "assert(pnode->nSendOffset == 0)"
    rejectIf (s.nSendSize ≠ 0) "assert(pnode->nSendSize == 0)"
  modify fun s => { s with vSendMsg := rest }

-- the network's start bytes and the hash of the checksum
variable (start : List UInt8) (hash : List UInt8 → Uint256)

/-- `BeginMessage`. -/
def beginMessage (pszCommand : List UInt8) : SendM Unit := do
  let s ← get
  rejectIf (s.ssSend.length ≠ 0) "assert(ssSend.size() == 0)"
  modify fun s => { s with ssSend := s.ssSend ++ (CMessageHeader.ofCommand start pszCommand).serialize }

/-- The first four bytes of the hash. -/
def checksum (data : List UInt8) : Nat := hash data % 2 ^ 32

/-- The size and the checksum, put in the header. -/
def finished (ssSend : List UInt8) : List UInt8 :=
  let nSize := (ssSend.length - HEADER_SIZE) % 2 ^ 32
  let ssSend := overwrite ssSend MESSAGE_SIZE_OFFSET (leBytes 4 nSize)
  overwrite ssSend CHECKSUM_OFFSET (leBytes 4 (checksum hash (ssSend.drop HEADER_SIZE)))

/-- `EndMessage`; `dropping` is the outcome of `-dropmessagestest`. -/
def endMessage (dropping : Bool) : SendM Unit := do
  let s ← get
  if dropping then modify fun s => { s with ssSend := [] }
  else if s.ssSend.length = 0 then pure ()
  else do
    let data := finished hash s.ssSend
    rejectIf (¬ CHECKSUM_OFFSET + 4 ≤ data.length) "assert(ssSend.size () >= CMessageHeader::CHECKSUM_OFFSET + sizeof(nChecksum))"
    modify fun s => { s with vSendMsg := s.vSendMsg ++ [data], ssSend := [], nSendSize := s.nSendSize + data.length }
    onlyIf (s.vSendMsg = []) socketSendData

/-- `PushMessage`, of a message whose fields come to these bytes. -/
def pushMessage (pszCommand payload : List UInt8) (dropping : Bool) : SendM Unit := do
  beginMessage start pszCommand
  modify fun s => { s with ssSend := s.ssSend ++ payload }
  endMessage hash dropping

end SendNode

end Pinkcoin
