/- module: DistributedClipboard/Interfaces/AppSlave
   source: src/src/interfaces/appif.c
   layer: model
   digest: A turn of `appif_slave`, and what it does with a whole request. -/

import DistributedClipboard.Lib.Stream
import DistributedClipboard.Mem.Clmem
import DistributedClipboard.Utils.Packet

set_option autoImplicit false
set_option relaxedAutoImplicit false

namespace DistributedClipboard.Interfaces.AppSlave

open DistributedClipboard.Common
open DistributedClipboard.Lib.Stream
open DistributedClipboard.Mem.Clmem
open DistributedClipboard.Utils.Packet
open Proc (Runs)

/-- What a turn of the slave works on: the memory, the packets handed to `clipif_add_broadcast`,
the number of times the clock has been read, and `err`. -/
structure SlaveState where
  mem : Memory
  queued : List (PacketData × List UInt8)
  readings : Nat
  err : Int

structure Response where
  bytes : List UInt8
  size : Nat
  deriving DecidableEq, Repr

/-- `mem_wait`: the bytes copied when a copy to the region wakes the caller. -/
def memWait (region : Int) (size : Nat) : Proc UInt8 (List UInt8) :=
  match regionOf region with
  | none => .done []
  | some _ => .await fun data => .done (data.take size)

variable (clock : Nat → UInt32)

/-- `case PACKET_REQUEST_PASTE` -/
def pasteRequest (s : SlaveState) (head : List UInt8) :
    Proc UInt8 (SlaveState × Option Response) := do
  let (err, rest) ← recvData (packetFetchSize - packetSize)
  if err ≠ (packetFetchSize - packetSize : Nat) then return ({ s with err := err }, none)
  let pf := PacketFetch.ofBytes (head ++ rest)
  let now := clock s.readings
  match memGet s.mem pf.region.toNat pf.dataSize.toNat with
  | none => .fault
  | some data =>
    let pd : PacketData :=
      ⟨PacketType.responsePaste.code, pf.region, .ofNat data.length, now⟩
    return ({ s with err := err, readings := s.readings + 1 },
      some ⟨pd.bytes ++ data, packetDataSize + data.length⟩)

/-- `case PACKET_REQUEST_WAIT` -/
def waitRequest (s : SlaveState) (head : List UInt8) :
    Proc UInt8 (SlaveState × Option Response) := do
  let (err, rest) ← recvData (packetFetchSize - packetSize)
  if err ≠ (packetFetchSize - packetSize : Nat) then return ({ s with err := err }, none)
  let pf := PacketFetch.ofBytes (head ++ rest)
  let now := clock s.readings
  let data ← memWait pf.region.toNat pf.dataSize.toNat
  let pd : PacketData := ⟨PacketType.responseNotify.code, pf.region, .ofNat data.length, now⟩
  let err := if data.length = 0 then 0 else err
  return ({ s with err := err, readings := s.readings + 1 },
    some ⟨pd.bytes ++ data, packetDataSize + data.length⟩)

/-- `case PACKET_REQUEST_COPY` -/
def copyRequest (s : SlaveState) (head : List UInt8) :
    Proc UInt8 (SlaveState × Option Response) := do
  let (err, rest) ← recvData (packetDataSize - packetSize)
  if err ≠ (packetDataSize - packetSize : Nat) then return ({ s with err := err }, none)
  let pd := PacketData.ofBytes (head ++ rest)
  let (err, data) ← recvData pd.dataSize.toNat
  if err ≠ pd.dataSize.toNat then return ({ s with err := err }, none)
  let now := clock s.readings
  let (pBytes, mem) := memPut s.mem pd.region.toNat data now.toNat
  let pf : PacketFetch := ⟨PacketType.responseAck.code, pd.region, .ofNat pBytes⟩
  let queued := if pBytes = 0 then s.queued else s.queued ++ [({ pd with recvAt := now }, data)]
  return (⟨mem, queued, s.readings + 1, err⟩, some ⟨pf.bytes, packetFetchSize⟩)

/-- `switch(p->packetType)` -/
def request (s : SlaveState) (head : List UInt8) : Proc UInt8 (SlaveState × Option Response) :=
  match PacketType.ofCode (head.getD 0 0) with
  | some .requestPaste => pasteRequest clock s head
  | some .requestWait => waitRequest clock s head
  | some .requestCopy => copyRequest clock s head
  | some .goodbye => return ({ s with err := 0 }, none)
  | _ => return (s, none)

def respond (s : SlaveState) : Option Response → Proc UInt8 SlaveState
  | none => return s
  | some r => do
    let err ← minMacroM (sendData r.bytes r.size) s.err
    return { s with err := err }

/-- One turn of the loop of `appif_slave`. -/
def appifSlave (s : SlaveState) : Proc UInt8 (Option SlaveState) := do
  if s.err < 1 then return none
  let (err, head) ← recvData packetSize
  if err ≠ packetSize then return some { s with err := err }
  let (s, response) ← request clock { s with err := err } head
  return some (← respond s response)

variable {clock}

section Respond

variable {s : SlaveState} {r : Response}

theorem respond_runs_once (filled : r.bytes ≠ []) (size : r.size = r.bytes.length)
    (small : r.size < 2 ^ 31) (longer : s.err < r.size) :
    Runs (respond s (some r)) [] [r.bytes] s := by
  rw [respond, minMacroM, size, sendData_eq filled (size ▸ small)]
  rw [size] at longer
  simp only [Proc.send_bind, Proc.done_bind, gt_iff_lt, longer, if_true, Proc.pure_eq]
  exact .send _ (.done _)

theorem respond_runs_twice (filled : r.bytes ≠ []) (size : r.size = r.bytes.length)
    (small : r.size < 2 ^ 31) (shorter : r.size ≤ s.err) :
    Runs (respond s (some r)) [] [r.bytes, r.bytes] { s with err := r.size } := by
  have upper : ¬ s.err < r.bytes.length := by omega
  rw [respond, minMacroM, size, sendData_eq filled (size ▸ small)]
  simp only [Proc.send_bind, Proc.done_bind, gt_iff_lt, upper, if_false, Proc.pure_eq]
  exact .send _ (.send _ (.done _))

end Respond

section Turn

variable {s t u : SlaveState} {type : UInt8} {ins : List UInt8} {outs : List (List UInt8)}
  {response : Option Response}

theorem appifSlave_runs (alive : 1 ≤ s.err)
    (handles : Runs (request clock { s with err := 1 } [type]) ins [] (t, response))
    (responds : Runs (respond t response) [] outs u) :
    Runs (appifSlave clock s) (type :: ins) outs (some u) := by
  have goesOn : ¬ s.err < 1 := by omega
  have reads : Runs (recvData packetSize) [type] [] (1, [type]) := recvData_runs rfl (by decide)
  have later : Runs (request clock { s with err := 1 } [type] >>= fun x =>
      respond x.1 x.2 >>= fun s => .done (some s)) (ins ++ []) outs (some u) :=
    handles.bind_silent (responds.bind_done rfl)
  rw [List.append_nil] at later
  rw [appifSlave, if_neg goesOn]
  exact reads.bind_silent later

theorem appifSlave_blocked (alive : 1 ≤ s.err) : (appifSlave clock s).Blocked := by
  have goesOn : ¬ s.err < 1 := by omega
  rw [appifSlave, if_neg goesOn, recvData_eq (by decide) (by decide)]
  exact ⟨0, _, rfl⟩

theorem pasteRequest_runs (clock : Nat → UInt32) (pf : PacketFetch)
    (type_ : pf.packetType = PacketType.requestPaste.code) {data : List UInt8}
    (found : memGet s.mem pf.region.toNat pf.dataSize.toNat = some data) :
    Runs (request clock s [pf.packetType]) pf.bytes.tail []
      ({ s with err := 5, readings := s.readings + 1 },
        some ⟨PacketData.bytes ⟨PacketType.responsePaste.code, pf.region, .ofNat data.length,
          clock s.readings⟩ ++ data, packetDataSize + data.length⟩) := by
  have switch : request clock s [pf.packetType] = pasteRequest clock s [pf.packetType] := by
    rw [request, List.getD_cons_zero, type_, PacketType.ofCode_code]
  have reads : Runs (recvData (packetFetchSize - packetSize)) pf.bytes.tail [] (5, pf.bytes.tail) :=
    recvData_runs rfl (by decide)
  have whole : PacketFetch.ofBytes ([pf.packetType] ++ pf.bytes.tail) = pf := pf.ofBytes_bytes
  rw [switch, pasteRequest]
  refine reads.bind_done ?_
  simp only [whole, found]
  rfl

theorem copyRequest_runs (clock : Nat → UInt32) (pd : PacketData)
    (type_ : pd.packetType = PacketType.requestCopy.code) {data : List UInt8}
    (length : data.length = pd.dataSize.toNat) (small : data.length < 2 ^ 31) {pBytes : Nat}
    {mem : Memory} (accepted : pBytes ≠ 0) (placed :
      memPut s.mem pd.region.toNat data (clock s.readings).toNat = (pBytes, mem)) :
    Runs (request clock s [pd.packetType]) (pd.bytes.tail ++ data) []
      (⟨mem, s.queued ++ [({ pd with recvAt := clock s.readings }, data)], s.readings + 1,
        data.length⟩, some ⟨PacketFetch.bytes ⟨PacketType.responseAck.code, pd.region,
          .ofNat pBytes⟩, packetFetchSize⟩) := by
  have switch : request clock s [pd.packetType] = copyRequest clock s [pd.packetType] := by
    rw [request, List.getD_cons_zero, type_, PacketType.ofCode_code]
  have reads : Runs (recvData (packetDataSize - packetSize)) pd.bytes.tail [] (9, pd.bytes.tail) :=
    recvData_runs rfl (by decide)
  have payload : Runs (recvData pd.dataSize.toNat) data [] (data.length, data) := by
    rw [← length]
    exact recvData_runs rfl small
  have whole : PacketData.ofBytes ([pd.packetType] ++ pd.bytes.tail) = pd := pd.ofBytes_bytes
  rw [switch, copyRequest]
  refine reads.bind_silent ?_
  simp only [whole]
  refine payload.bind_done ?_
  simp only [length, ne_eq, not_true_eq_false, if_false, placed, accepted]
  rfl

end Turn

end DistributedClipboard.Interfaces.AppSlave
