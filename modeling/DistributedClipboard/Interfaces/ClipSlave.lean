/- module: DistributedClipboard/Interfaces/ClipSlave
   source: src/src/interfaces/clipif.c
   layer: model
   digest: A turn of `clipif_slave`, and what it does with a whole packet. -/

import DistributedClipboard.Lib.Stream
import DistributedClipboard.Utils.Packet

set_option autoImplicit false
set_option relaxedAutoImplicit false

namespace DistributedClipboard.Interfaces.ClipSlave

open DistributedClipboard.Lib.Stream
open DistributedClipboard.Utils.Packet
open Proc (Runs)

/-- A call of the slave, with the answer it got. A buffer goes by its place in the log. -/
inductive Call
  | malloc (size : Nat) (granted : Bool)
  | free (dataBuffer : Nat)
  /-- `time_m_sync` -/
  | timeMSync (now : UInt32)
  /-- `time_m_now` -/
  | timeMNow (now : UInt32)
  /-- `mem_put` -/
  | memPut (region : UInt8) (data : List UInt8) (size : Nat) (updateCond : UInt32) (pBytes : Nat)
  /-- `clipif_add_broadcast` -/
  | clipifAddBroadcast (dataBuffer : Nat) (packet : List UInt8) (err : Int)
  deriving DecidableEq, Repr

/-- What the slave does not decide: the connection it is given and the answers to its calls, which
may depend on all it has done. -/
structure World where
  withParent : Bool
  parentDelay : UInt32
  malloc : List Call → Bool
  timeMNow : List Call → UInt32
  memPut : List Call → Nat
  clipifAddBroadcast : List Call → Int

/-- `err`, and the calls made so far. -/
structure SlaveState where
  err : Int
  log : List Call
  deriving DecidableEq, Repr

def SlaveState.call (s : SlaveState) (c : Call) : SlaveState := { s with log := s.log ++ [c] }

/-- The slave before its first turn. -/
def SlaveState.start : SlaveState := ⟨1, []⟩

def badAddress : Int := -1

section Model

variable (w : World)

def malloc (s : SlaveState) (size : Nat) : SlaveState × Option Nat :=
  (s.call (.malloc size (w.malloc s.log)),
    if w.malloc s.log then some s.log.length else none)

def forward (s : SlaveState) (dataBuffer : Nat) (packet : List UInt8) : SlaveState :=
  let err2 := w.clipifAddBroadcast s.log
  let s := s.call (.clipifAddBroadcast dataBuffer packet err2)
  if err2 ≠ 0 then s.call (.free dataBuffer) else s

def syncClock (s : SlaveState) (dataBuffer : Nat) (ps : PacketSync) : SlaveState :=
  let s := s.call (.timeMSync (ps.time + w.parentDelay))
  let now := w.timeMNow s.log
  let s := s.call (.timeMNow now)
  forward w s dataBuffer (PacketSync.bytes ⟨PacketType.timeSync.code, now⟩)

def place (s : SlaveState) (dataBuffer : Nat) (pd : PacketData) (data : List UInt8) : SlaveState :=
  let pBytes := w.memPut s.log
  let s := s.call (.memPut pd.region data pd.dataSize.toNat pd.recvAt pBytes)
  if pBytes = 0 then s.call (.free dataBuffer) else forward w s dataBuffer (pd.bytes ++ data)

variable {m : Type → Type} [Monad m] (recvData : Nat → m (Int × List UInt8))

/-- `case PACKET_TIME_SYNC` -/
def timeSync (s : SlaveState) : m SlaveState := do
  if !w.withParent then return s
  let (s, dataBuffer) := malloc w s packetSyncSize
  match dataBuffer with
  | none => return { s with err := badAddress }
  | some dataBuffer =>
    let (err, rest) ← recvData (packetSyncSize - packetSize)
    let s := { s with err := err }
    -- the buffer is not freed here
    if err ≠ (packetSyncSize - packetSize : Nat) then return s
    return syncClock w s dataBuffer (PacketSync.ofBytes (0 :: rest))

/-- `case PACKET_REQUEST_COPY` -/
def requestCopy (s : SlaveState) (head : List UInt8) : m SlaveState := do
  let (err, rest) ← recvData (packetDataSize - packetSize)
  let s := { s with err := err }
  if err ≠ (packetDataSize - packetSize : Nat) then return s
  let pd := PacketData.ofBytes (head ++ rest)
  let pBytes := pd.dataSize
  let (s, dataBuffer) := malloc w s (.ofNat packetDataSize + pBytes : UInt32).toNat
  match dataBuffer with
  | none => return s
  | some dataBuffer =>
    let (err, data) ← recvData pBytes.toNat
    let s := { s with err := err }
    if err ≠ pBytes.toNat then return s.call (.free dataBuffer)
    return place w s dataBuffer pd data

/-- `switch(p->packetType)` -/
def packetCase (s : SlaveState) (head : List UInt8) : m SlaveState :=
  match PacketType.ofCode (head.getD 0 0) with
  | some .timeSync => timeSync w recvData s
  | some .requestCopy => requestCopy w recvData s head
  | some .goodbye => return { s with err := 0 }
  | _ => return { s with err := 0 }

/-- One turn of the loop of `clipif_slave`. -/
def clipifSlave (s : SlaveState) : m (Option SlaveState) := do
  if s.err < 1 then return none
  let (err, head) ← recvData packetSize
  if err ≠ packetSize then return some { s with err := err }
  let s ← packetCase w recvData { s with err := err } head
  return some s

end Model

@[simp] theorem SlaveState.call_err (s : SlaveState) (c : Call) : (s.call c).err = s.err := rfl

@[simp] theorem SlaveState.call_log (s : SlaveState) (c : Call) : (s.call c).log = s.log ++ [c] := rfl

/-- What a packet is for: a clock value to synchronise to, or the arguments of a `mem_put`. -/
inductive Action
  | sync (now : UInt32)
  | put (region : UInt8) (data : List UInt8) (size : Nat) (updateCond : UInt32)
  deriving DecidableEq, Repr

def Call.action? : Call → Option Action
  | .timeMSync now => some (.sync now)
  | .memPut region data size updateCond _ => some (.put region data size updateCond)
  | _ => none

/-- What the slave has done to the clock and to the memory of the node. -/
def SlaveState.acted (s : SlaveState) : List Action := s.log.filterMap Call.action?

section Effects

variable {w : World} {s : SlaveState}

theorem SlaveState.call_acted (s : SlaveState) (c : Call) :
    (s.call c).acted = s.acted ++ [c].filterMap Call.action? := by
  rw [acted, acted, call_log, List.filterMap_append]

theorem malloc_granted (s : SlaveState) (size : Nat) (granted : w.malloc s.log = true) :
    malloc w s size = (s.call (.malloc size true), some s.log.length) := by
  rw [malloc, granted, if_pos rfl]

theorem forward_log (s : SlaveState) (dataBuffer : Nat) (packet : List UInt8) :
    (forward w s dataBuffer packet).log =
      s.log ++ .clipifAddBroadcast dataBuffer packet (w.clipifAddBroadcast s.log) ::
        if w.clipifAddBroadcast s.log = 0 then [] else [.free dataBuffer] := by
  by_cases accepted : w.clipifAddBroadcast s.log = 0
  · simp [forward, accepted]
  · simp [forward, accepted]

theorem forward_effect (s : SlaveState) (dataBuffer : Nat) (packet : List UInt8) :
    (forward w s dataBuffer packet).err = s.err ∧
      (forward w s dataBuffer packet).acted = s.acted := by
  by_cases accepted : w.clipifAddBroadcast s.log = 0
  · simp [forward, accepted, SlaveState.call_acted, Call.action?]
  · simp [forward, accepted, SlaveState.call_acted, Call.action?]

theorem syncClock_effect (s : SlaveState) (dataBuffer : Nat) (ps : PacketSync) :
    (syncClock w s dataBuffer ps).err = s.err ∧
      (syncClock w s dataBuffer ps).acted = s.acted ++ [.sync (ps.time + w.parentDelay)] := by
  simp [syncClock, forward_effect, SlaveState.call_acted, Call.action?]

theorem place_effect (s : SlaveState) (dataBuffer : Nat) (pd : PacketData) (data : List UInt8) :
    (place w s dataBuffer pd data).err = s.err ∧ (place w s dataBuffer pd data).acted =
      s.acted ++ [.put pd.region data pd.dataSize.toNat pd.recvAt] := by
  by_cases refused : w.memPut s.log = 0
  · simp [place, refused, SlaveState.call_acted, Call.action?]
  · simp [place, refused, forward_effect, SlaveState.call_acted, Call.action?]

end Effects

section Turn

variable {w : World} {s : SlaveState}

/-- The slave on its connection, when every receive is whole. -/
abbrev slave (w : World) : SlaveState → Proc UInt8 (Option SlaveState) :=
  clipifSlave w recvData

theorem slave_blocked (alive : 1 ≤ s.err) : (slave w s).Blocked := by
  have goesOn : ¬ s.err < 1 := by omega
  rw [slave, clipifSlave, if_neg goesOn, recvData_eq (by decide) (by decide)]
  exact ⟨0, _, rfl⟩

theorem slave_ends (finished : s.err < 1) : slave w s = .done none := by
  rw [slave, clipifSlave, if_pos finished]
  rfl

theorem slave_runs (alive : 1 ≤ s.err) (type : PacketType) {ins : List UInt8} {t : SlaveState}
    (handles : Runs (packetCase w recvData { s with err := 1 } [type.code]) ins [] t) :
    Runs (slave w s) (type.code :: ins) [] (some t) := by
  have goesOn : ¬ s.err < 1 := by omega
  have reads : Runs (recvData packetSize) [type.code] [] (1, [type.code]) :=
    recvData_runs rfl (by decide)
  rw [slave, clipifSlave, if_neg goesOn]
  exact reads.bind_silent (handles.bind_done rfl)

theorem timeSync_runs (withParent : w.withParent = true) (granted : ∀ log, w.malloc log = true)
    (alive : 1 ≤ s.err) (ps : PacketSync) (type_ : ps.packetType = PacketType.timeSync.code) :
    ∃ t, Runs (slave w s) ps.bytes [] (some t) ∧ 1 ≤ t.err ∧
      t.acted = s.acted ++ [.sync (ps.time + w.parentDelay)] := by
  have reads : Runs (recvData (packetSyncSize - packetSize)) (uint32Bytes ps.time) []
      (4, uint32Bytes ps.time) := recvData_runs rfl (by decide)
  have whole : PacketSync.ofBytes (0 :: uint32Bytes ps.time) = ⟨0, ps.time⟩ :=
    PacketSync.ofBytes_bytes ⟨0, ps.time⟩
  let started : SlaveState := { s with err := 1 }
  let allocated : SlaveState := { started.call (.malloc packetSyncSize true) with err := 4 }
  have handles : Runs (packetCase w recvData started [PacketType.timeSync.code])
      (uint32Bytes ps.time) [] (syncClock w allocated s.log.length ⟨0, ps.time⟩) := by
    rw [packetCase, List.getD_cons_zero, PacketType.ofCode_code]
    simp only [timeSync, withParent, malloc_granted started _ (granted _)]
    refine reads.bind_done ?_
    rw [← whole]
    rfl
  obtain ⟨err, acted⟩ := syncClock_effect (w := w) allocated s.log.length ⟨0, ps.time⟩
  refine ⟨syncClock w allocated s.log.length ⟨0, ps.time⟩, ?_, ?_, ?_⟩
  · rw [PacketSync.bytes, type_]
    exact slave_runs alive .timeSync handles
  · rw [err]
    show (1 : Int) ≤ 4
    decide
  · rw [acted]
    simp [allocated, started, SlaveState.acted, Call.action?]

def SlaveState.withPayload (s : SlaveState) (pd : PacketData) : SlaveState :=
  { ({ s with err := 1 } : SlaveState).call (.malloc (plusHeader pd.dataSize).toNat true) with
    err := pd.dataSize.toNat }

theorem requestCopy_placed (granted : ∀ log, w.malloc log = true) (alive : 1 ≤ s.err)
    (pd : PacketData) (type_ : pd.packetType = PacketType.requestCopy.code) {data : List UInt8}
    (length : data.length = pd.dataSize.toNat) (small : data.length < 2 ^ 31) :
    Runs (slave w s) (pd.bytes ++ data) []
      (some (place w (s.withPayload pd) s.log.length pd data)) := by
  have reads : Runs (recvData (packetDataSize - packetSize)) pd.bytes.tail [] (9, pd.bytes.tail) :=
    recvData_runs rfl (by decide)
  have payload : Runs (recvData pd.dataSize.toNat) data [] (data.length, data) := by
    rw [← length]
    exact recvData_runs rfl small
  have whole : PacketData.ofBytes ([PacketType.requestCopy.code] ++ pd.bytes.tail) = pd := by
    rw [← type_]
    exact pd.ofBytes_bytes
  let started : SlaveState := { s with err := 1 }
  have handles : Runs (packetCase w recvData started [PacketType.requestCopy.code])
      (pd.bytes.tail ++ data) [] (place w (s.withPayload pd) s.log.length pd data) := by
    rw [packetCase, List.getD_cons_zero, PacketType.ofCode_code]
    refine reads.bind_silent ?_
    simp only [whole, malloc_granted _ _ (granted _)]
    refine payload.bind_done ?_
    simp only [length, ne_eq, not_true_eq_false, if_false]
    rfl
  have turn := slave_runs alive .requestCopy handles
  rw [← type_] at turn
  exact turn

theorem requestCopy_runs (granted : ∀ log, w.malloc log = true) (alive : 1 ≤ s.err)
    (pd : PacketData) (type_ : pd.packetType = PacketType.requestCopy.code) {data : List UInt8}
    (length : data.length = pd.dataSize.toNat) (filled : data ≠ []) (small : data.length < 2 ^ 31) :
    ∃ t, Runs (slave w s) (pd.bytes ++ data) [] (some t) ∧ 1 ≤ t.err ∧
      t.acted = s.acted ++ [.put pd.region data pd.dataSize.toNat pd.recvAt] := by
  obtain ⟨err, acted⟩ := place_effect (w := w) (s.withPayload pd) s.log.length pd data
  refine ⟨_, requestCopy_placed granted alive pd type_ length small, ?_, ?_⟩
  · have positive : 0 < data.length := List.length_pos_iff.mpr filled
    rw [err]
    show (1 : Int) ≤ pd.dataSize.toNat
    omega
  · rw [acted]
    simp [SlaveState.withPayload, SlaveState.acted, Call.action?]

theorem goodbye_runs (alive : 1 ≤ s.err) :
    Runs (slave w s) [PacketType.goodbye.code] [] (some { s with err := 0 }) :=
  slave_runs alive .goodbye (.done _)

end Turn

end DistributedClipboard.Interfaces.ClipSlave
