/- module: DistributedClipboard/Interfaces/AppCalls
   source: src/src/interfaces/appif.c
   layer: model
   digest: A turn of `appif_slave` as the calls it makes on its buffers. -/

import DistributedClipboard.Common
import DistributedClipboard.Interfaces.ClipSlave

set_option autoImplicit false
set_option relaxedAutoImplicit false

namespace DistributedClipboard.Interfaces.AppCalls

open DistributedClipboard.Common
open DistributedClipboard.Interfaces.ClipSlave (Call SlaveState World malloc forward)
open DistributedClipboard.Utils.Packet

/-- What the slave of an application does not decide: beside the answers of the calls it shares with
the slave of a clipboard, the bytes that `mem_get` and `mem_wait` copy. -/
structure AppWorld extends World where
  memGet : List Call → List UInt8
  memWait : List Call → List UInt8

structure Response where
  buffer : Nat
  bytes : List UInt8
  sendSize : UInt32
  deriving DecidableEq, Repr

/-- `free`, which does nothing with `NULL`. -/
def free (s : SlaveState) : Option Nat → SlaveState
  | none => s
  | some b => s.call (.free b)

section Model

variable (w : AppWorld)

def place (s : SlaveState) (dataBuffer : Nat) (pd : PacketData) (data : List UInt8) :
    SlaveState × Option Response :=
  let timeN := w.timeMNow s.log
  let s := s.call (.timeMNow timeN)
  let pBytes := w.memPut s.log
  let s := s.call (.memPut pd.region data pd.dataSize.toNat timeN pBytes)
  let (s, pf) := malloc w.toWorld s packetFetchSize
  let response := pf.map fun pf =>
    ⟨pf, PacketFetch.bytes ⟨PacketType.responseAck.code, pd.region, .ofNat pBytes⟩,
      .ofNat packetFetchSize⟩
  if pBytes = 0 then (s.call (.free dataBuffer), response)
  else (forward w.toWorld s dataBuffer (PacketData.bytes { pd with recvAt := timeN } ++ data),
    response)

variable {m : Type → Type} [Monad m] (recvData : Nat → m (Int × List UInt8))
  (sendData : List UInt8 → Nat → m Int)

def fetchRequest (type : PacketType) (fetch : List Call → List UInt8) (emptyEnds : Bool)
    (s : SlaveState) (head : List UInt8) : m (SlaveState × Option Response) := do
  let (err, rest) ← recvData (packetFetchSize - packetSize)
  let s := { s with err := err }
  if err ≠ (packetFetchSize - packetSize : Nat) then return (s, none)
  let pf := PacketFetch.ofBytes (head ++ rest)
  let (s, dataBuffer) := malloc w.toWorld s (plusHeader pf.dataSize).toNat
  match dataBuffer with
  | none => return (s, none)
  | some dataBuffer =>
    let now := w.timeMNow s.log
    let s := s.call (.timeMNow now)
    let data := (fetch s.log).take pf.dataSize.toNat
    let pd : PacketData := ⟨type.code, pf.region, .ofNat data.length, now⟩
    let s := if emptyEnds ∧ data.length = 0 then { s with err := 0 } else s
    return (s, some ⟨dataBuffer, pd.bytes ++ data, plusHeader (.ofNat data.length)⟩)

/-- `case PACKET_REQUEST_PASTE` -/
def pasteRequest := fetchRequest w recvData .responsePaste w.memGet false

/-- `case PACKET_REQUEST_WAIT` -/
def waitRequest := fetchRequest w recvData .responseNotify w.memWait true

/-- `case PACKET_REQUEST_COPY` -/
def copyRequest (s : SlaveState) (head : List UInt8) : m (SlaveState × Option Response) := do
  let (err, rest) ← recvData (packetDataSize - packetSize)
  let s := { s with err := err }
  if err ≠ (packetDataSize - packetSize : Nat) then return (s, none)
  let pd := PacketData.ofBytes (head ++ rest)
  let pBytes := pd.dataSize
  let (s, dataBuffer) := malloc w.toWorld s (plusHeader pBytes).toNat
  match dataBuffer with
  | none => return (s, none)
  | some dataBuffer =>
    let (err, data) ← recvData pBytes.toNat
    let s := { s with err := err }
    -- free(pd), and pd is still NULL
    if err ≠ pBytes.toNat then return (free s none, none)
    return place w s dataBuffer pd data

/-- `switch(p->packetType)` -/
def request (s : SlaveState) (head : List UInt8) : m (SlaveState × Option Response) :=
  match PacketType.ofCode (head.getD 0 0) with
  | some .requestPaste => pasteRequest w recvData s head
  | some .requestWait => waitRequest w recvData s head
  | some .requestCopy => copyRequest w recvData s head
  | some .goodbye => return ({ s with err := 0 }, none)
  | _ => return (s, none)

/-- `err = MIN(sendData(sock,response,sendSize),err)` and `free(response)` -/
def respond (s : SlaveState) : Option Response → m SlaveState
  | none => return s
  | some r => do
    let err ← minMacroM (sendData r.bytes r.sendSize.toNat) s.err
    return free { s with err := err } (some r.buffer)

/-- One turn of the loop of `appif_slave`. -/
def appifSlave (s : SlaveState) : m (Option SlaveState) := do
  if s.err < 1 then return none
  let (err, head) ← recvData packetSize
  if err ≠ packetSize then return some { s with err := err }
  let (s, response) ← request w recvData { s with err := err } head
  let s ← respond sendData s response
  return some s

end Model

end DistributedClipboard.Interfaces.AppCalls
