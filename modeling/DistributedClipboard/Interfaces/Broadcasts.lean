/- module: DistributedClipboard/Interfaces/Broadcasts
   source: src/src/interfaces/clipif.c, src/src/interfaces/appif.c, src/src/thread/queue.c
   layer: model
   digest: The packets from their threads through the queue to the links, and the shutdown of the queue. -/

import DistributedClipboard.Interfaces.Links

set_option autoImplicit false
set_option relaxedAutoImplicit false

namespace DistributedClipboard.Interfaces.Broadcasts

open DistributedClipboard.Common
open DistributedClipboard.Interfaces.LinkCodec
open DistributedClipboard.Interfaces.Links (SendTurn sendTurn)
open DistributedClipboard.Interfaces.Tables (Fd Slot)
open DistributedClipboard.Lib.Transition
open DistributedClipboard.Utils.Packet

universe u

abbrev Addr := Nat

/-- Where a packet is stored: on the heap, or in the variable `p` of `clipif_clock_man`. -/
inductive Place
  | heap (a : Addr)
  | clock
  deriving DecidableEq, Repr

/-- `broadcast_t`. `number` is a ghost: how many were accepted by the queue before it. -/
structure Entry where
  p : Place
  fromFd : Int
  number : Nat
  deriving DecidableEq, Repr

inductive Kind
  /-- A clock packet, in `clipif_slave`. -/
  | clipSync
  /-- A copy, in `clipif_slave`. -/
  | clipCopy
  /-- A copy, in `appif_slave`. -/
  | appCopy
  deriving DecidableEq, Repr

inductive SlavePc
  | idle
  /-- It receives the packet. -/
  | receive (kind : Kind) (sock : Fd) (dataBuffer : Addr)
  /-- `clipif_add_broadcast` -/
  | broadcast (sock : Fd) (dataBuffer : Addr)
  | free (dataBuffer : Addr)
  deriving DecidableEq, Repr

/-- The statement `clipif_clock_man` executes next; `absent` when it has not been started. -/
inductive ClockPc
  | absent
  | sleep | stamp | info | broadcast
  | ended
  deriving DecidableEq, Repr

/-- The statement `clipif_broadcast` executes next. -/
inductive BroadcastPc
  | pop
  | size (msg : Entry)
  | slot (msg : Entry) (size : UInt32) (i : Nat)
  | send (msg : Entry) (size : UInt32) (i : Slot) (sendBytes : Nat)
  | free (msg : Entry)
  | ended
  deriving DecidableEq, Repr

/-- The statement `clipif_finalize` executes next. -/
inductive Finalize
  | idle
  | push (bye : Addr)
  | role
  | joinClock
  | terminate
  | joinMaster
  | slaves
  deriving DecidableEq, Repr

/-- A part of an entry's packet that a `send` has accepted: `count` bytes from `start` on. -/
structure Written where
  number : Nat
  start : Nat
  count : Nat
  bytes : List UInt8
  deriving DecidableEq, Repr

/-- `root` says that `parentSock` is -1, and `locked` that a thread has left `queue_push` without
giving back the lock of the queue. Ghosts: `accepted`, the bytes of each packet when the queue
accepted it; `goodbye`, the number of the entry of `clipif_finalize`; the links, numbered as they are
made, with what has been written on each and the entries `sendData` was called with; and `fault`, set
when the broadcaster reads or frees a packet that is not stored any more. -/
structure State (T : Type u) where
  store : Place → Option (List UInt8)
  threads : T → SlavePc
  clock : ClockPc
  cancelClock : Bool
  root : Bool
  broadcasts : List Entry
  terminate : Bool
  locked : Bool
  broadcaster : BroadcastPc
  finalize : Finalize
  connections : Slot → Option (Fd × Nat)
  links : Nat
  wire : Nat → List Written
  calls : Nat → List Nat
  accepted : List (List UInt8)
  goodbye : Option Nat
  fault : Bool

/-- What the calls of `malloc` for a `broadcast_t` and for a `queue_node` come to. -/
structure Room where
  broadcast : Bool
  node : Bool
  deriving DecidableEq, Repr

inductive Label (T : Type u)
  /-- A slave allocates `dataBuffer`; `bytes` is what it finds there. -/
  | receive (t : T) (kind : Kind) (sock : Fd) (new : Option Addr) (bytes : List UInt8)
  /-- A slave writes to `dataBuffer`. -/
  | fill (t : T) (bytes : List UInt8)
  /-- `recvData` returns another size than it was asked for. -/
  | short (t : T)
  /-- The packet is complete; `stored` is whether `mem_put` has stored it. -/
  | complete (t : T) (stored : Bool)
  | broadcast (t : T) (room : Room)
  | free (t : T)
  | clock (now : UInt32) (room : Room)
  | cancelClock
  /-- The slave of the parent closes the connection and starts the clock. -/
  | orphan (time : UInt32)
  | connect (i : Slot) (fd : Fd)
  | disconnect (i : Slot)
  /-- `ret` is what `send` returns, `none` for -1. -/
  | broadcaster (ret : Option Nat)
  | finalize (new : Addr) (room : Room)
  deriving DecidableEq, Repr

section Step

variable {T : Type u} [DecidableEq T] (verbose : Bool)

namespace State

def setStore (s : State T) (p : Place) (bytes : Option (List UInt8)) : State T :=
  { s with store := Function.update s.store p bytes }

def goto (s : State T) (t : T) (pc : SlavePc) : State T :=
  { s with threads := Function.update s.threads t pc }

def broadcastGoto (s : State T) (pc : BroadcastPc) : State T := { s with broadcaster := pc }

/-- What is read where a packet is or was stored. -/
def read (s : State T) (p : Place) : List UInt8 := (s.store p).getD []

def use (s : State T) (p : Place) : State T := { s with fault := s.fault || (s.store p).isNone }

end State

/-- `queue_push` of a `broadcast_t`; `node` is whether there is memory for a node. -/
def queuePush (s : State T) (p : Place) (fromFd : Int) (node : Bool) : Option (State T × Int) :=
  if node then
    if s.locked then none
    else if s.terminate then
      -- the lock is not released here
      some ({ s with locked := true }, -1)
    else
      some ({ s with
        broadcasts := s.broadcasts ++ [⟨p, fromFd, s.accepted.length⟩]
        accepted := s.accepted ++ [s.read p] }, 0)
  else some (s, 1)

def clipifAddBroadcast (s : State T) (data : Place) (fromFd : Int) (room : Room) :
    Option (State T × Int) :=
  if room.broadcast then queuePush s data fromFd room.node else some (s, -3)

def slaveStep (s : State T) : Label T → Option (State T)
  | .receive t kind sock new bytes =>
    match s.threads t, new with
    | .idle, some a =>
      if s.store (.heap a) = none then
        some ((s.setStore (.heap a) (some bytes)).goto t (.receive kind sock a))
      else none
    | .idle, none => some s
    | _, _ => none
  | .fill t bytes =>
    match s.threads t with
    | .receive _ _ a => some (s.setStore (.heap a) (some bytes))
    | _ => none
  | .short t =>
    match s.threads t with
    | .receive .clipCopy _ a => some (s.goto t (.free a))
    -- the packet is not freed here: appif_slave calls free with NULL
    | .receive _ _ _ => some (s.goto t .idle)
    | _ => none
  | .complete t stored =>
    match s.threads t with
    | .receive .clipSync sock a => some (s.goto t (.broadcast sock a))
    | .receive _ sock a =>
      if stored then some (s.goto t (.broadcast sock a)) else some (s.goto t (.free a))
    | _ => none
  | .broadcast t room =>
    match s.threads t with
    | .broadcast sock a =>
      (clipifAddBroadcast s (.heap a) sock room).map fun r =>
        if r.2 ≠ 0 then r.1.goto t (.free a) else r.1.goto t .idle
    | _ => none
  | .free t =>
    match s.threads t with
    | .free a => some ((s.setStore (.heap a) none).goto t .idle)
    | _ => none
  | _ => none

/-- The packet in the variable of the clock thread. -/
def stamped (now : UInt32) : List UInt8 := PacketSync.bytes ⟨PacketType.timeSync.code, now⟩

/-- `clipif_clock_man` -/
def clipifClockMan (s : State T) (now : UInt32) (room : Room) : Option (State T) :=
  match s.clock with
  | .sleep => some { s with clock := .stamp }
  | .stamp => some { s.setStore .clock (some (stamped now)) with clock := .info }
  | .info => some { s with clock := .broadcast }
  | .broadcast =>
    (clipifAddBroadcast s .clock (-1) room).map fun r => { r.1 with clock := .sleep }
  | .absent | .ended => none

/-- `pthread_create` of `clipif_clock_man`; `time` is what is in its variable. -/
def startClock (s : State T) (time : UInt32) : State T :=
  { s.setStore .clock (some (stamped time)) with clock := .sleep, root := true }

def atPoint (s : State T) : Bool :=
  match s.clock with
  | .sleep => true
  | .info => verbose
  | _ => false

/-- The broadcaster holds the lock of the slot. -/
def sending (s : State T) (i : Slot) : Bool :=
  match s.broadcaster with
  | .send _ _ j _ => decide (i = j)
  | _ => false

/-- `clipif_broadcast` -/
def clipifBroadcast (s : State T) (ret : Option Nat) : Option (State T) :=
  match s.broadcaster with
  | .pop =>
    if s.locked then none
    else
      match s.broadcasts with
      | msg :: rest => some { s with broadcasts := rest, broadcaster := .size msg }
      | [] => if s.terminate then some (s.broadcastGoto .ended) else none
  | .size msg =>
    let size := sendSize (s.read msg.p)
    if size ≠ 0 then some ((s.use msg.p).broadcastGoto (.slot msg size 0))
    else some ((s.use msg.p).broadcastGoto .pop)
  | .slot msg size i =>
    if h : i < maxClipboards then
      match s.connections ⟨i, h⟩ with
      | some (fd, k) =>
        if (fd : Int) ≠ msg.fromFd then
          some { s with
            broadcaster := .send msg size ⟨i, h⟩ 0
            calls := Function.update s.calls k (s.calls k ++ [msg.number]) }
        else some (s.broadcastGoto (.slot msg size (i + 1)))
      | none => some (s.broadcastGoto (.slot msg size (i + 1)))
    else some (s.broadcastGoto (.free msg))
  | .send msg size i sendBytes =>
    match sendTurn (toInt size.toNat) sendBytes ret, s.connections i with
    | some (.again sent), some (_, k) =>
      let written : Written :=
        ⟨msg.number, sendBytes, sent - sendBytes,
          ((s.read msg.p).drop sendBytes).take (sent - sendBytes)⟩
      some { s.use msg.p with
        broadcaster := .send msg size i sent
        wire := Function.update s.wire k (s.wire k ++ [written]) }
    -- the value returned is ignored
    | some (.done _), _ => some (s.broadcastGoto (.slot msg size (i + 1)))
    | _, _ => none
  | .free msg =>
    if msg.fromFd ≠ -1 then some ((s.use msg.p).setStore msg.p none |>.broadcastGoto .pop)
    else some (s.broadcastGoto .pop)
  | .ended => none

/-- `clipif_finalize`, up to the cancellation of the slaves. -/
def clipifFinalize (s : State T) (new : Addr) (room : Room) : Option (State T) :=
  match s.finalize with
  | .idle =>
    if s.store (.heap new) = none then
      some { s.setStore (.heap new) (some goodbye) with finalize := .push new }
    else none
  | .push bye =>
    -- the value returned is ignored
    (queuePush s (.heap bye) 0 room.node).map fun r =>
      { r.1 with
        finalize := .role
        goodbye := if r.2 = 0 then some s.accepted.length else none }
  | .role =>
    if s.root then some { s with cancelClock := true, finalize := .joinClock }
    else some { s with root := true, finalize := .terminate }
  | .joinClock => if s.clock = .ended then some { s with finalize := .terminate } else none
  | .terminate =>
    if s.locked then none else some { s with terminate := true, finalize := .joinMaster }
  | .joinMaster => if s.broadcaster = .ended then some { s with finalize := .slaves } else none
  | .slaves => none

def step (s : State T) : Label T → Option (State T)
  | .clock now room => clipifClockMan s now room
  | .cancelClock =>
    if s.cancelClock ∧ atPoint verbose s then
      some { s.setStore .clock none with clock := .ended }
    else none
  | .orphan time => if s.root then none else some (startClock s time)
  | .connect i fd =>
    -- the listener has been joined before the interface is finalized
    if s.finalize = .idle ∧ s.connections i = none ∧ 0 < fd ∧ sending s i = false then
      some { s with
        connections := Function.update s.connections i (some (fd, s.links))
        links := s.links + 1 }
    else none
  | .disconnect i =>
    if sending s i = false then
      some { s with connections := Function.update s.connections i none }
    else none
  | .broadcaster ret => clipifBroadcast s ret
  | .finalize new room => clipifFinalize s new room
  | a => slaveStep s a

/-- A clipboard from its initialisation on; `parent` is the descriptor of its parent, 0 for none. -/
def broadcasts (T : Type u) [DecidableEq T] (parent : Fd) (time : UInt32) :
    System (State T) (Label T) where
  init :=
    { store := fun p => if p = .clock ∧ parent = 0 then some (stamped time) else none
      threads := fun _ => .idle
      clock := if parent = 0 then .sleep else .absent
      cancelClock := false
      root := decide (parent = 0)
      broadcasts := []
      terminate := false
      locked := false
      broadcaster := .pop
      finalize := .idle
      connections := fun i => if i.val = 0 ∧ 0 < parent then some (parent, 0) else none
      links := 1
      wire := fun _ => []
      calls := fun _ => []
      accepted := []
      goodbye := none
      fault := false }
  step := step verbose

end Step

end DistributedClipboard.Interfaces.Broadcasts
