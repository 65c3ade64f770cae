/- module: DistributedClipboard/Interfaces/AppBuffers
   source: src/src/interfaces/appif.c
   layer: model
   digest: A turn of `appif_slave` with the packets it allocates and the lengths it computes. -/

import DistributedClipboard.Interfaces.LinkCodec
import DistributedClipboard.Mem.Representation

set_option autoImplicit false
set_option relaxedAutoImplicit false

namespace DistributedClipboard.Interfaces.AppBuffers

open DistributedClipboard.Common
open DistributedClipboard.Interfaces.LinkCodec (sendSize)
open DistributedClipboard.Lib.Stream
open DistributedClipboard.Mem.Clmem
open DistributedClipboard.Mem.Representation
open DistributedClipboard.Utils.Packet

/-- What a turn does not decide: whether its buffers are granted, the clock, the memory as it is
when it is read or put to, and what becomes of a packet to broadcast. -/
structure Env where
  packetGranted : Bool
  fetchGranted : Bool
  timeMNow : UInt32
  mem : Memory
  clipifAddBroadcast : Int

/-- A turn that is granted all it asks for, on an empty memory. -/
def generous : Env := ⟨true, true, 1, memInit, 0⟩

inductive Use
  /-- `malloc(pDataSize + dataSize)`, granted. -/
  | malloc (dataSize : UInt32)
  /-- `recvData` of `dataSize` bytes. -/
  | recvData (dataSize : UInt32)
  /-- `sendData(sock,response,sendSize)` -/
  | sendData (sendSize : UInt32) (response : List UInt8)
  /-- `clipif_add_broadcast`, accepted. -/
  | clipifAddBroadcast (packet : List UInt8)
  deriving DecidableEq, Repr

/-- `err`, the number of the turn, and the lengths used so far. -/
structure SlaveState where
  err : Int
  turn : Nat
  uses : List Use
  deriving DecidableEq, Repr

/-- The slave before its first turn. -/
def SlaveState.start : SlaveState := ⟨1, 0, []⟩

def SlaveState.use (s : SlaveState) (u : Use) : SlaveState := { s with uses := s.uses ++ [u] }

structure Response where
  bytes : List UInt8
  sendSize : UInt32
  deriving DecidableEq, Repr

section Model

variable (e : Env)

def mallocPacket (s : SlaveState) (dataSize : UInt32) : Proc UInt8 (SlaveState × Option Nat) :=
  if e.packetGranted = false then .done (s, none)
  else if (plusHeader dataSize).toNat < packetDataSize then .fault
  else .done (s.use (.malloc dataSize), some (plusHeader dataSize).toNat)

def fetchPacket (type : PacketType) (fetch : Memory → Int → Nat → Option (List UInt8))
    (emptyEnds : Bool) (s : SlaveState) (pf : PacketFetch) :
    Proc UInt8 (SlaveState × Option Response) := do
  let (s, room) ← mallocPacket e s pf.dataSize
  match room with
  | none => return (s, none)
  | some room =>
    match fetch e.mem pf.region.toNat pf.dataSize.toNat with
    | none => .fault
    | some data =>
      if room < packetDataSize + data.length then .fault
      else
        let pd : PacketData := ⟨type.code, pf.region, .ofNat data.length, e.timeMNow⟩
        let s := if emptyEnds ∧ data.length = 0 then { s with err := 0 } else s
        return (s, some ⟨pd.bytes ++ data, plusHeader (.ofNat data.length)⟩)

def fetchRequest (type : PacketType) (fetch : Memory → Int → Nat → Option (List UInt8))
    (emptyEnds : Bool) (s : SlaveState) (head : List UInt8) :
    Proc UInt8 (SlaveState × Option Response) := do
  let (err, rest) ← recvData (packetFetchSize - packetSize)
  if err ≠ (packetFetchSize - packetSize : Nat) then return ({ s with err := err }, none)
  fetchPacket e type fetch emptyEnds { s with err := err } (PacketFetch.ofBytes (head ++ rest))

/-- `case PACKET_REQUEST_PASTE` -/
def pasteRequest := fetchRequest e .responsePaste memGet false

/-- `case PACKET_REQUEST_WAIT`, once an update has ended the wait. -/
def waitRequest := fetchRequest e .responseNotify memWaitReturn true

def place (s : SlaveState) (pd : PacketData) (data : List UInt8) :
    SlaveState × Option Response :=
  let pBytes := (memPut e.mem pd.region.toNat data e.timeMNow.toNat).1
  let pf : PacketFetch := ⟨PacketType.responseAck.code, pd.region, .ofNat pBytes⟩
  let response := if e.fetchGranted then some ⟨pf.bytes, .ofNat packetFetchSize⟩ else none
  if pBytes = 0 ∨ e.clipifAddBroadcast ≠ 0 then (s, response)
  else (s.use (.clipifAddBroadcast (PacketData.bytes { pd with recvAt := e.timeMNow } ++ data)),
    response)

def copyPacket (s : SlaveState) (pd : PacketData) : Proc UInt8 (SlaveState × Option Response) := do
  let (s, room) ← mallocPacket e s pd.dataSize
  match room with
  | none => return (s, none)
  | some room =>
    let (err, data) ← recvData pd.dataSize.toNat
    let s := { s with err := err }.use (.recvData pd.dataSize)
    if room < packetDataSize + data.length then .fault
    else if err ≠ pd.dataSize.toNat then return (s, none)
    else return place e s pd data

/-- `case PACKET_REQUEST_COPY` -/
def copyRequest (s : SlaveState) (head : List UInt8) :
    Proc UInt8 (SlaveState × Option Response) := do
  let (err, rest) ← recvData (packetDataSize - packetSize)
  if err ≠ (packetDataSize - packetSize : Nat) then return ({ s with err := err }, none)
  copyPacket e { s with err := err } (PacketData.ofBytes (head ++ rest))

/-- `switch(p->packetType)` -/
def request (s : SlaveState) (head : List UInt8) : Proc UInt8 (SlaveState × Option Response) :=
  match PacketType.ofCode (head.getD 0 0) with
  | some .requestPaste => pasteRequest e s head
  | some .requestWait => waitRequest e s head
  | some .requestCopy => copyRequest e s head
  | some .goodbye => return ({ s with err := 0 }, none)
  | _ => return (s, none)

def respond (s : SlaveState) : Option Response → Proc UInt8 SlaveState
  | none => return s
  | some r => do
    let err ← minMacroM (sendData r.bytes r.sendSize.toNat) s.err
    return { s with err := err }.use (.sendData r.sendSize r.bytes)

end Model

/-- One turn of the loop of `appif_slave`. -/
def appifSlave (env : Nat → Env) (s : SlaveState) : Proc UInt8 (Option SlaveState) := do
  if s.err < 1 then return none
  let (err, head) ← recvData packetSize
  if err ≠ packetSize then return some { s with err := err, turn := s.turn + 1 }
  let (s, response) ← request (env s.turn) { s with err := err } head
  let s ← respond s response
  return some { s with turn := s.turn + 1 }

/-- A well-formed request. The size field of a copy is the length of its payload. -/
inductive Request
  | paste (region : UInt8) (dataSize : UInt32)
  | wait (region : UInt8) (dataSize : UInt32)
  | copy (region : UInt8) (recvAt : UInt32) (payload : List UInt8)
      (length : payload.length < 2 ^ 32)
  | goodbye

def Request.bytes : Request → List UInt8
  | .paste region dataSize => PacketFetch.bytes ⟨PacketType.requestPaste.code, region, dataSize⟩
  | .wait region dataSize => PacketFetch.bytes ⟨PacketType.requestWait.code, region, dataSize⟩
  | .copy region recvAt payload _ =>
    PacketData.bytes ⟨PacketType.requestCopy.code, region, .ofNat payload.length, recvAt⟩ ++ payload
  | .goodbye => [PacketType.goodbye.code]

end DistributedClipboard.Interfaces.AppBuffers
