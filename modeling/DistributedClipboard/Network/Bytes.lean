/- module: DistributedClipboard/Network/Bytes
   source: src/src/interfaces/clipif.c, src/src/interfaces/appif.c, src/src/mem/clmem.c,
     src/src/utils/packet.c
   layer: refinement
   digest: The network with its packets as bytes, written and read in pieces through bounded buffers. -/

import DistributedClipboard.Interfaces.LinkCodec
import DistributedClipboard.Lib.Reading
import DistributedClipboard.Network.Flood

set_option autoImplicit false
set_option relaxedAutoImplicit false

namespace DistributedClipboard.Network.Bytes

open DistributedClipboard.Common
open DistributedClipboard.Interfaces.ClipSlave (Call World slave requestCopy_placed)
open DistributedClipboard.Interfaces.LinkCodec (sendSize sendSize_copy)
open DistributedClipboard.Lib.Stream
open DistributedClipboard.Lib.Transition
open DistributedClipboard.Mem.Clmem
open DistributedClipboard.Network.Flood (Packet Peer Issue)
open DistributedClipboard.Utils.Packet
open Proc (Runs)

universe u

/-- A copy in the buffer of a slave: what `mem_put` is called with, and the packet that is forwarded
then. -/
structure Copy where
  region : UInt8
  data : List UInt8
  updateCond : UInt32
  packet : List UInt8
  deriving DecidableEq, Repr

/-- `broadcast_t` -/
structure Broadcast (V : Type u) where
  packet : List UInt8
  fromPeer : Peer V
  deriving DecidableEq, Repr

/-- A slave thread with its `err`: it reads, and has so many bytes of the next packet, or it has a copy
that it has received, or has placed in memory and not yet pushed to the broadcast queue. -/
inductive SlaveState
  | reading (err : Int) (got : List UInt8)
  | received (err : Int) (c : Copy)
  | placed (err : Int) (c : Copy)
  deriving DecidableEq, Repr

/-- One clipboard. The broadcaster has still to write these bytes, one connection after the other. -/
structure Node (V : Type u) where
  store : Memory
  queue : List (Broadcast V)
  slave : Peer V → SlaveState
  sending : List (V × List UInt8)

/-- The clipboards, the bytes in the buffers of their connections, and how many turns the slave of
each connection has taken. The copies issued are a ghost. -/
structure State (V : Type u) where
  node : V → Node V
  link : V → V → List UInt8
  turns : V → V → Nat
  issued : List (Issue V)

inductive Label (V : Type u)
  | issue (v : V) (k : Fin maxApps) (region : UInt8) (data : List UInt8) (stamp : UInt32)
  /-- The `recv` of `recvData`, which waits for all it asks for, takes so many of the bytes. -/
  | read (v u : V) (n : Nat)
  | put (v : V) (x : Peer V)
  | push (v : V) (x : Peer V)
  /-- `clipif_broadcast` takes the next packet off its queue. -/
  | pop (v : V)
  /-- A `send` of `sendData` writes so many bytes. -/
  | write (v : V) (n : Nat)
  deriving DecidableEq, Repr

variable {V : Type u} [DecidableEq V]

namespace State

def setNode (s : State V) (v : V) (n : Node V) : State V :=
  { s with node := Function.update s.node v n }

def setSlave (s : State V) (v : V) (x : Peer V) (st : SlaveState) : State V :=
  s.setNode v { s.node v with slave := Function.update (s.node v).slave x st }

end State

def frame (p : Packet) : List UInt8 :=
  PacketData.bytes ⟨PacketType.requestCopy.code, p.region, .ofNat p.data.length, p.recvAt⟩ ++ p.data

/-- A copy in the buffer of a slave. -/
def copy (p : Packet) : Copy := ⟨p.region, p.data, p.recvAt, frame p⟩

/-- What `mem_put` and `clipif_add_broadcast` answer is for the steps that call them. -/
def answers (w : World) : World :=
  { w with memPut := fun _ => 1, clipifAddBroadcast := fun _ => 0 }

/-- A turn of `clipif_slave`. -/
def turn (w : World) (err : Int) : Proc UInt8 (Option Interfaces.ClipSlave.SlaveState) :=
  slave (answers w) ⟨err, []⟩

/-- Every buffer is granted. -/
def Granted (w : World) : Prop := ∀ log, w.malloc log = true

def copyOf : List Call → Option Copy
  | [.malloc _ _, .memPut region data _ updateCond _, .clipifAddBroadcast _ packet _] =>
    some ⟨region, data, updateCond, packet⟩
  | _ => none

def afterRead (w : World) (err : Int) (got : List UInt8) : SlaveState :=
  match (turn w err).exec got with
  | none => .reading err got
  | some (none, _, _) => .reading err []
  | some (some t, _, _) =>
    match copyOf t.log with
    | none => .reading t.err []
    | some c => .received t.err c

/-- `appif_slave` receives a copy, for which it has been granted a buffer, and marks its entrance in
the network with the clock's time. -/
def issueStep (s : State V) (v : V) (k : Fin maxApps) (region : UInt8) (data : List UInt8)
    (stamp : UInt32) : Option (State V) :=
  let p : Packet := ⟨s.issued.length, region, data, stamp⟩
  match (s.node v).slave (.app k) with
  | .reading err _ =>
    if data.length < 2 ^ 32 then
      if p.received then
        some { s.setSlave v (.app k) (.received err (copy p)) with
          issued := s.issued ++ [⟨v, k, p⟩] }
      else some { s with issued := s.issued ++ [⟨v, k, p⟩] }
    else none
  | _ => none

/-- The `recv` under way in `clipif_slave` takes `n` of the bytes it waits for: with `MSG_WAITALL` it
returns when it has them all. -/
def readStep (world : V → V → Nat → World) (s : State V) (v u : V) (n : Nat) :
    Option (State V) :=
  match (s.node v).slave (.clip u) with
  | .reading err got =>
    let x := world v u (s.turns v u)
    if 0 < n ∧ n ≤ (turn x err).wants got ∧ n ≤ (s.link u v).length then
      some { s.setSlave v (.clip u) (afterRead x err (got ++ (s.link u v).take n)) with
        link := fun a w => if a = u ∧ w = v then (s.link u v).drop n else s.link a w
        turns := fun w a =>
          if a = u ∧ w = v ∧ ((turn x err).exec (got ++ (s.link u v).take n)).isSome then
            s.turns w a + 1
          else s.turns w a }
    else none
  | _ => none

def putStep (s : State V) (v : V) (x : Peer V) : Option (State V) :=
  match (s.node v).slave x with
  | .received err c =>
    let r := memPut (s.node v).store c.region.toNat c.data c.updateCond.toNat
    some (s.setNode v { s.node v with
      store := r.2
      slave := Function.update (s.node v).slave x
        (if r.1 = 0 then .reading err [] else .placed err c) })
  | _ => none

/-- `clipif_add_broadcast` -/
def pushStep (s : State V) (v : V) (x : Peer V) : Option (State V) :=
  match (s.node v).slave x with
  | .placed err c =>
    some (s.setNode v { s.node v with
      queue := (s.node v).queue ++ [⟨c.packet, x⟩]
      slave := Function.update (s.node v).slave x (.reading err []) })
  | _ => none

/-- What `clipif_broadcast` writes of a packet, and to which of its connections. -/
def targets (table : List V) (b : Broadcast V) : List (V × List UInt8) :=
  let bytes := b.packet.take (transferred (sendSize b.packet).toNat)
  if bytes = [] then []
  else (table.filter fun w => decide (b.fromPeer ≠ .clip w)).map fun w => (w, bytes)

def popStep (table : V → List V) (s : State V) (v : V) : Option (State V) :=
  match (s.node v).sending, (s.node v).queue with
  | [], b :: rest =>
    some (s.setNode v { s.node v with queue := rest, sending := targets (table v) b })
  | _, _ => none

def afterWrite (n : Nat) (w : V) (bytes : List UInt8) (rest : List (V × List UInt8)) :
    List (V × List UInt8) :=
  if n = bytes.length then rest else (w, bytes.drop n) :: rest

def writeStep (room : V → V → Nat) (s : State V) (v : V) (n : Nat) : Option (State V) :=
  match (s.node v).sending with
  | (w, bytes) :: rest =>
    if 0 < n ∧ n ≤ bytes.length ∧ (s.link v w).length + n ≤ room v w then
      some { s.setNode v { s.node v with sending := afterWrite n w bytes rest } with
        link := fun a x => if a = v ∧ x = w then s.link v w ++ bytes.take n else s.link a x }
    else none
  | [] => none

def step (table : V → List V) (room : V → V → Nat) (world : V → V → Nat → World) (s : State V) :
    Label V → Option (State V)
  | .issue v k region data stamp => issueStep s v k region data stamp
  | .read v u n => readStep world s v u n
  | .put v x => putStep s v x
  | .push v x => pushStep s v x
  | .pop v => popStep table s v
  | .write v n => writeStep room s v n

def nodeInit : Node V := ⟨memInit, [], fun _ => .reading 1 [], []⟩

/-- The clipboards with the connections in the order of their tables, so much room in the buffer of
each, and what the slave of each finds in each of its turns. -/
def bytes (table : V → List V) (room : V → V → Nat) (world : V → V → Nat → World) :
    System (State V) (Label V) where
  init := ⟨fun _ => nodeInit, fun _ _ => [], fun _ _ => 0, []⟩
  step := step table room world

/-- The tables hold the connections of the network, each once. -/
structure Wired (G : SimpleGraph V) (table : V → List V) : Prop where
  once : ∀ v, (table v).Nodup
  connected : ∀ v w, w ∈ table v ↔ G.Adj v w

section Frames

variable {p : Packet} {err : Int} {w : World}

theorem turn_frame (granted : Granted w) (alive : 1 ≤ err) (received : p.received = true) :
    ∃ t, Runs (turn w err) (frame p) [] (some t) ∧ t.err = p.data.length ∧
      copyOf t.log = some (copy p) := by
  have small := Flood.Packet.received_iff.mp received
  have size : (UInt32.ofNat p.data.length).toNat = p.data.length :=
    UInt32.toNat_ofNat_of_lt' (by rw [UInt32.size]; omega)
  let pd : PacketData := ⟨PacketType.requestCopy.code, p.region, .ofNat p.data.length, p.recvAt⟩
  refine ⟨_, requestCopy_placed (w := answers w) granted alive pd rfl size.symm small, ?_, rfl⟩
  show ((UInt32.ofNat p.data.length).toNat : Int) = p.data.length
  rw [size]

theorem sent_frame (received : p.received = true) :
    (frame p).take (transferred (sendSize (frame p)).toNat) =
      if p.sendable = true then frame p else [] := by
  have small := Flood.Packet.received_iff.mp received
  have size : (UInt32.ofNat p.data.length).toNat = p.data.length :=
    UInt32.toNat_ofNat_of_lt' (by rw [UInt32.size]; omega)
  have length : (frame p).length = packetDataSize + p.data.length := by
    rw [frame, List.length_append, PacketData.length_bytes]
  have whole : (sendSize (frame p)).toNat = (frame p).length := by
    have fits : FitsHeader (UInt32.ofNat p.data.length) := by
      rw [FitsHeader, size, packetDataSize]
      omega
    rw [frame, sendSize_copy _ rfl, plusHeader_fits fits, size, ← frame, length]
  rw [whole, length]
  by_cases goes : p.sendable = true
  · rw [if_pos goes, transferred_small (Flood.Packet.sendable_iff.mp goes), ← length,
      List.take_length]
  · have large : 2 ^ 31 ≤ packetDataSize + p.data.length := by
      by_contra fits
      exact goes (Flood.Packet.sendable_iff.mpr (by omega))
    have nothing : transferred (packetDataSize + p.data.length) = 0 := by
      rw [packetDataSize] at large ⊢
      rw [transferred, toInt, Nat.mod_eq_of_lt (by omega), if_neg (by omega)]
      omega
    rw [if_neg goes, nothing, List.take_zero]

end Frames

end DistributedClipboard.Network.Bytes
