/- module: DistributedClipboard/Interfaces/Links
   source: src/src/interfaces/clipif.c, src/src/utils/packet.c
   layer: model
   digest: The bytes written on the clipboards' connections, one `send` at a time. -/

import DistributedClipboard.Interfaces.LinkCodec
import DistributedClipboard.Interfaces.Tables
import DistributedClipboard.Lib.Frames

set_option autoImplicit false
set_option relaxedAutoImplicit false

namespace DistributedClipboard.Interfaces.Links

open DistributedClipboard.Common
open DistributedClipboard.Interfaces.LinkCodec
open DistributedClipboard.Interfaces.Tables (Fd Kernel Slot ClipListen BroadcastPc)
open DistributedClipboard.Lib.Frames
open DistributedClipboard.Lib.Transition
open DistributedClipboard.Utils.Packet

inductive SendTurn
  | again (sendBytes : Nat)
  | done (ret : Int)
  deriving DecidableEq, Repr

def sendTurn (size : Int) (sendBytes : Nat) (ret : Option Nat) : Option SendTurn :=
  if (sendBytes : Int) < size then
    match ret with
    | none => some (.done (-1))
    | some n => if (n : Int) ≤ size - sendBytes then some (.again (sendBytes + n)) else none
  else some (.done sendBytes)

theorem sendTurn_cases {size : Int} {sendBytes : Nat} {ret : Option Nat} {turn : SendTurn}
    (h : sendTurn size sendBytes ret = some turn) :
    (turn = .done (-1) ∧ ret = none ∧ (sendBytes : Int) < size) ∨
    (∃ n, ret = some n ∧ turn = .again (sendBytes + n) ∧ ((sendBytes + n : Nat) : Int) ≤ size) ∨
    (turn = .done sendBytes ∧ size ≤ sendBytes) := by
  unfold sendTurn at h
  split at h
  · rename_i more
    split at h
    · exact .inl ⟨(Option.some.inj h).symm, rfl, more⟩
    · split at h
      · exact .inr (.inl ⟨_, rfl, (Option.some.inj h).symm, by omega⟩)
      · cases h
  · exact .inr (.inr ⟨(Option.some.inj h).symm, by omega⟩)

/-- The tables and what has been written on the connections. Frame 0 of a connection is its hello
packet, frame `n + 1` the packet that is dequeued after `n` others. `cut` is a ghost: the length of
what had been written when a `send` failed in the middle of a frame. -/
structure State where
  tables : Tables.State
  dequeued : Nat
  helloBytes : Nat
  sendBytes : Nat
  wire : Nat → List Mark
  cut : Nat → Option Nat

inductive Label
  /-- A statement other than a call of `sendData`. -/
  | statement (a : Tables.Label)
  /-- A turn of the loop of `sendData` in `clipif_listen`. -/
  | hello (ret : Option Nat)
  /-- A turn of the loop of `sendData` in `clipif_broadcast`. -/
  | broadcast (ret : Option Nat)
  /-- `clipif_finalize` queues the goodbye packet. -/
  | goodbye
  /-- `clipif_finalize` gives up the parent. -/
  | orphan
  deriving DecidableEq, Repr

variable (packets : Nat → List UInt8)

def sizeOf : Nat → Int
  | 0 => toInt packetSyncSize
  | n + 1 => toInt (sendSize (packets n)).toNat

def frameSize (n : Nat) : Nat := (sizeOf packets n).toNat

/-- The connection a descriptor is open to. -/
def peer (kernel : Kernel) (fd : Fd) : Option Nat :=
  match kernel fd with
  | some (.clip k) => some k
  | _ => none

namespace State

def write (s : State) (fd : Fd) (n start count : Nat) : State :=
  match peer s.tables.kernel fd with
  | some k => { s with wire := Function.update s.wire k (s.wire k ++ chunk n start count) }
  | none => s

def fail (s : State) (fd : Fd) (sent : Nat) : State :=
  match peer s.tables.kernel fd with
  | some k =>
    if 0 < sent then
      { s with cut := Function.update s.cut k ((s.cut k).or (some (s.wire k).length)) }
    else s
  | none => s

end State

def greeting : ClipListen → Option Nat
  | .hello a => some a.conn
  | _ => none

/-- The slot whose connection the broadcaster writes to. -/
def sending : BroadcastPc → Option Slot
  | .send _ i => some i
  | _ => none

def atPop : BroadcastPc → Bool
  | .pop => true
  | _ => false

def pops (t : Tables.State) : Tables.Label → Bool
  | .broadcast => atPop t.clip.broadcast
  | _ => false

def writes (t : Tables.State) : Tables.Label → Bool
  | .clipListen _ => (greeting t.clip.listen).isSome
  | .broadcast => (sending t.clip.broadcast).isSome
  | _ => false

def step (s : State) : Label → Option State
  | .statement a =>
    if writes s.tables a then none
    else (Tables.step s.tables a).map fun t =>
      { s with tables := t, dequeued := s.dequeued + (pops s.tables a).toNat }
  | .hello ret =>
    match s.tables.clip.listen with
    | .hello a =>
      match sendTurn (sizeOf packets 0) s.helloBytes ret with
      | none => none
      | some (.again sendBytes) =>
        some { s.write a.fd 0 s.helloBytes (sendBytes - s.helloBytes) with helloBytes := sendBytes }
      | some (.done err) =>
        let s' := if err = -1 then s.fail a.fd s.helloBytes else s
        (Tables.step s.tables (.clipListen (decide (1 ≤ err)))).map fun t =>
          { s' with tables := t, helloBytes := 0 }
    | _ => none
  | .broadcast ret =>
    match s.tables.clip.broadcast with
    | .send _ i =>
      let fd := (s.tables.clip.connections i).sockFd
      match sendTurn (sizeOf packets s.dequeued) s.sendBytes ret with
      | none => none
      | some (.again sendBytes) =>
        some { s.write fd s.dequeued s.sendBytes (sendBytes - s.sendBytes) with
          sendBytes := sendBytes }
      | some (.done err) =>
        -- the value returned is ignored
        let s' := if err = -1 then s.fail fd s.sendBytes else s
        (Tables.step s.tables .broadcast).map fun t => { s' with tables := t, sendBytes := 0 }
    | _ => none
  | .goodbye =>
    some { s with tables := { s.tables with queue := s.tables.queue ++ [⟨0, none⟩] } }
  | .orphan =>
    if s.tables.clip.lock = none then
      some { s with tables := { s.tables with clip := { s.tables.clip with parentSock := -1 } } }
    else none

/-- A clipboard from its initialisation on. -/
def links (parent : Fd) : System State Label where
  init := ⟨(Tables.tables parent).init, 0, 0, 0, fun _ => [], fun _ => none⟩
  step := step packets

end DistributedClipboard.Interfaces.Links
