/- module: DistributedClipboard/Interfaces/ClipBuffers
   source: src/src/interfaces/clipif.c
   layer: model
   digest: A turn of `clipif_slave` with the room of its packets, and what it does with a frame. -/

import DistributedClipboard.Interfaces.ClipSlave

set_option autoImplicit false
set_option relaxedAutoImplicit false

namespace DistributedClipboard.Interfaces.ClipBuffers

open DistributedClipboard.Interfaces.ClipSlave (World SlaveState Call malloc place timeSync)
open DistributedClipboard.Lib.Stream
open DistributedClipboard.Utils.Packet

section Model

variable (w : World)

def copyPacket (s : SlaveState) (pd : PacketData) : Proc UInt8 SlaveState := do
  let (s, dataBuffer) := malloc w s (plusHeader pd.dataSize).toNat
  match dataBuffer with
  | none => return s
  | some dataBuffer =>
    if (plusHeader pd.dataSize).toNat < packetDataSize then .fault
    else
      let (err, data) ← recvData pd.dataSize.toNat
      let s := { s with err := err }
      if err ≠ pd.dataSize.toNat then return s.call (.free dataBuffer)
      return place w s dataBuffer pd data

/-- `case PACKET_REQUEST_COPY` -/
def requestCopy (s : SlaveState) (head : List UInt8) : Proc UInt8 SlaveState := do
  let (err, rest) ← recvData (packetDataSize - packetSize)
  if err ≠ (packetDataSize - packetSize : Nat) then return { s with err := err }
  copyPacket w { s with err := err } (PacketData.ofBytes (head ++ rest))

/-- `switch(p->packetType)` -/
def packetCase (s : SlaveState) (head : List UInt8) : Proc UInt8 SlaveState :=
  match PacketType.ofCode (head.getD 0 0) with
  | some .timeSync => timeSync w recvData s
  | some .requestCopy => requestCopy w s head
  | some .goodbye => return { s with err := 0 }
  | _ => return { s with err := 0 }

/-- One turn of the loop of `clipif_slave`. -/
def clipifSlave (s : SlaveState) : Proc UInt8 (Option SlaveState) := do
  if s.err < 1 then return none
  let (err, head) ← recvData packetSize
  if err ≠ packetSize then return some { s with err := err }
  let s ← packetCase w { s with err := err } head
  return some s

end Model

/-- A well-formed packet. The size field of a copy is the length of its payload. -/
inductive Frame
  | timeSync (time : UInt32)
  | requestCopy (region : UInt8) (recvAt : UInt32) (payload : List UInt8)
      (length : payload.length < 2 ^ 32)
  | goodbye

def Frame.bytes : Frame → List UInt8
  | .timeSync time => PacketSync.bytes ⟨PacketType.timeSync.code, time⟩
  | .requestCopy region recvAt payload _ =>
    PacketData.bytes ⟨PacketType.requestCopy.code, region, .ofNat payload.length, recvAt⟩ ++ payload
  | .goodbye => [PacketType.goodbye.code]

section Turn

variable {w : World} {s : SlaveState}

theorem clipifSlave_exec (alive : 1 ≤ s.err) (type : PacketType) (ins : List UInt8) :
    (clipifSlave w s).exec (type.code :: ins) =
      ((packetCase w { s with err := 1 } [type.code]).exec ins).map fun x =>
        (some x.1, x.2.1, x.2.2) := by
  have goesOn : ¬ s.err < 1 := by omega
  have reads : Proc.Runs (recvData packetSize) [type.code] [] (1, [type.code]) :=
    recvData_runs rfl (by decide)
  have read := reads.exec ins
  have one : ¬ (1 : Int) ≠ packetSize := by decide
  rw [List.singleton_append] at read
  rw [clipifSlave, if_neg goesOn, Proc.exec_bind, read]
  simp only [Option.bind_some, if_neg one, Proc.exec_bind, List.nil_append]
  cases (packetCase w { s with err := 1 } [type.code]).exec ins with
  | none => rfl
  | some x => simp [Proc.exec]

theorem turn_timeSync_ignored (alive : 1 ≤ s.err) (other : w.withParent = false) (time : UInt32)
    (more : List UInt8) : (clipifSlave w s).exec ((Frame.timeSync time).bytes ++ more) =
      some (some { s with err := 1 }, uint32Bytes time ++ more, []) := by
  have head : (Frame.timeSync time).bytes ++ more =
      PacketType.timeSync.code :: (uint32Bytes time ++ more) := rfl
  rw [head, clipifSlave_exec alive, packetCase, List.getD_cons_zero, PacketType.ofCode_code]
  simp [timeSync, other, Proc.exec]

theorem turn_timeSync_refused (alive : 1 ≤ s.err) (parent : w.withParent = true)
    (refused : w.malloc s.log = false) (time : UInt32) (more : List UInt8) : ∃ t rest,
      (clipifSlave w s).exec ((Frame.timeSync time).bytes ++ more) = some (some t, rest, []) ∧
        t.err < 1 := by
  have head : (Frame.timeSync time).bytes ++ more =
      PacketType.timeSync.code :: (uint32Bytes time ++ more) := rfl
  rw [head, clipifSlave_exec alive, packetCase, List.getD_cons_zero, PacketType.ofCode_code]
  refine ⟨{ s.call (.malloc packetSyncSize false) with err := ClipSlave.badAddress },
    uint32Bytes time ++ more, ?_, by show ClipSlave.badAddress < 1; decide⟩
  simp [timeSync, parent, malloc, refused, Proc.exec, SlaveState.call]

theorem turn_timeSync_done (alive : 1 ≤ s.err) (parent : w.withParent = true)
    (granted : w.malloc s.log = true) (time : UInt32) (more : List UInt8) : ∃ t,
      (clipifSlave w s).exec ((Frame.timeSync time).bytes ++ more) = some (some t, more, []) := by
  have head : (Frame.timeSync time).bytes ++ more =
      PacketType.timeSync.code :: (uint32Bytes time ++ more) := rfl
  have reads : Proc.Runs (recvData (packetSyncSize - packetSize)) (uint32Bytes time) []
      (4, uint32Bytes time) := recvData_runs rfl (by decide)
  have four : ¬ (4 : Int) ≠ (packetSyncSize - packetSize : Nat) := by decide
  rw [head, clipifSlave_exec alive, packetCase, List.getD_cons_zero, PacketType.ofCode_code]
  simp only [timeSync, parent, malloc, granted, Bool.not_true, if_true]
  rw [if_neg (by decide), Proc.exec_bind, reads.exec more]
  simp only [Option.bind_some, if_neg four]
  exact ⟨_, rfl⟩

section Copy

variable {pd : PacketData} {payload : List UInt8}

theorem requestCopy_exec (type : pd.packetType = PacketType.requestCopy.code) (alive : 1 ≤ s.err)
    (ins : List UInt8) : (clipifSlave w s).exec (pd.bytes ++ ins) =
      ((copyPacket w { s with err := 9 } pd).exec ins).map fun x => (some x.1, x.2.1, x.2.2) := by
  have head : pd.bytes ++ ins = PacketType.requestCopy.code :: (pd.bytes.tail ++ ins) := by
    rw [← type]
    rfl
  have reads : Proc.Runs (recvData (packetDataSize - packetSize)) pd.bytes.tail []
      (9, pd.bytes.tail) := recvData_runs rfl (by decide)
  have whole : PacketData.ofBytes ([pd.packetType] ++ pd.bytes.tail) = pd := pd.ofBytes_bytes
  have nine : ¬ (9 : Int) ≠ (packetDataSize - packetSize : Nat) := by decide
  rw [head, clipifSlave_exec alive, packetCase, List.getD_cons_zero, PacketType.ofCode_code, ← type]
  simp only [requestCopy]
  rw [Proc.exec_bind, reads.exec ins]
  simp only [Option.bind_some, if_neg nine, whole, List.nil_append]
  cases (copyPacket w { s with err := 9 } pd).exec ins with
  | none => rfl
  | some x => rfl

/-- The state when the packet has been asked for. -/
def asked (s : SlaveState) (err : Int) (pd : PacketData) (granted : Bool) : SlaveState :=
  { s with err := err }.call (.malloc (plusHeader pd.dataSize).toNat granted)

theorem turn_copy_refused (type : pd.packetType = PacketType.requestCopy.code) (alive : 1 ≤ s.err)
    (refused : w.malloc s.log = false) (ins : List UInt8) :
    (clipifSlave w s).exec (pd.bytes ++ ins) = some (some (asked s 9 pd false), ins, []) := by
  rw [requestCopy_exec type alive, copyPacket]
  simp only [malloc, refused]
  rfl

theorem turn_copy_fault (type : pd.packetType = PacketType.requestCopy.code) (alive : 1 ≤ s.err)
    (granted : w.malloc s.log = true) (wraps : ¬ FitsHeader pd.dataSize) (ins : List UInt8) :
    (clipifSlave w s).exec (pd.bytes ++ ins) = none := by
  rw [requestCopy_exec type alive, copyPacket]
  simp only [malloc, granted, if_true, if_pos (plusHeader_wraps wraps)]
  rfl

theorem turn_copy_large (type : pd.packetType = PacketType.requestCopy.code) (alive : 1 ≤ s.err)
    (granted : w.malloc s.log = true) (fits : FitsHeader pd.dataSize)
    (large : 2 ^ 31 ≤ pd.dataSize.toNat) (ins : List UInt8) :
    (clipifSlave w s).exec (pd.bytes ++ ins) =
      some (some ((asked s 0 pd true).call (.free s.log.length)), ins, []) := by
  have room := plusHeader_fits fits
  have enough : ¬ (plusHeader pd.dataSize).toNat < packetDataSize := by omega
  have none_ : (0 : Int) ≠ pd.dataSize.toNat := by omega
  rw [requestCopy_exec type alive, copyPacket]
  simp only [malloc, granted, if_true, if_neg enough,
    recvData_large large pd.dataSize.toNat_lt, Proc.done_bind, if_pos none_]
  rfl

theorem turn_copy_done (type : pd.packetType = PacketType.requestCopy.code) (alive : 1 ≤ s.err)
    (granted : w.malloc s.log = true) (fits : FitsHeader pd.dataSize)
    (length : payload.length = pd.dataSize.toNat) (small : payload.length < 2 ^ 31)
    (more : List UInt8) : (clipifSlave w s).exec (pd.bytes ++ payload ++ more) =
      some (some (place w (asked s payload.length pd true) s.log.length pd payload), more, []) := by
  have room := plusHeader_fits fits
  have enough : ¬ (plusHeader pd.dataSize).toNat < packetDataSize := by omega
  have all : ¬ (payload.length : Int) ≠ pd.dataSize.toNat := by omega
  have received : Proc.Runs (recvData pd.dataSize.toNat) payload [] (payload.length, payload) := by
    rw [← length]
    exact recvData_runs rfl small
  rw [List.append_assoc, requestCopy_exec type alive, copyPacket]
  simp only [malloc, granted, if_true, if_neg enough, Proc.exec_bind, received.exec more,
    Option.bind_some, if_neg all]
  rfl

end Copy

end Turn

end DistributedClipboard.Interfaces.ClipBuffers
