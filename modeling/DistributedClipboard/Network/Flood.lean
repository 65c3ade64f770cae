/- module: DistributedClipboard/Network/Flood
   source: src/src/interfaces/clipif.c, src/src/interfaces/appif.c, src/src/mem/clmem.c
   layer: model
   digest: Copies flooding a network of clipboards with fixed connections. -/

import DistributedClipboard.Lib.Transition
import DistributedClipboard.Mem.Clmem
import DistributedClipboard.Utils.Packet
import Mathlib.Combinatorics.SimpleGraph.Basic

set_option autoImplicit false
set_option relaxedAutoImplicit false

namespace DistributedClipboard.Network.Flood

open DistributedClipboard.Common
open DistributedClipboard.Lib.Transition
open DistributedClipboard.Mem.Clmem
open DistributedClipboard.Utils.Packet

universe u

def firstApp : Fin maxApps := ⟨0, maxApps_pos⟩

/-- A copy packet, with the timestamp it got when it entered the network. The number is a ghost:
the place of the copy among all copies issued. -/
structure Packet where
  id : Nat
  region : UInt8
  data : List UInt8
  recvAt : UInt32
  deriving DecidableEq, Repr

inductive Peer (V : Type u)
  | clip (u : V)
  | app (k : Fin maxApps)
  deriving DecidableEq, Repr

/-- `broadcast_t` -/
structure Broadcast (V : Type u) where
  p : Packet
  fromPeer : Peer V
  deriving DecidableEq, Repr

/-- A slave thread between two requests, with a copy it has received, or with a copy it has placed
in memory and not yet pushed to the broadcast queue. -/
inductive SlaveState
  | idle
  | received (p : Packet)
  | placed (p : Packet)
  deriving DecidableEq, Repr

/-- A ghost record of one call of `mem_put`. -/
structure Put (V : Type u) where
  p : Packet
  via : Peer V
  accepted : Bool
  deriving DecidableEq, Repr

/-- One clipboard. The broadcasts done and the calls of `mem_put` are ghosts. -/
structure Node (V : Type u) where
  store : Memory
  queue : List (Broadcast V)
  slave : Peer V → SlaveState
  passed : List (Broadcast V)
  puts : List (Put V)

/-- A copy issued by an application. -/
structure Issue (V : Type u) where
  node : V
  app : Fin maxApps
  p : Packet
  deriving DecidableEq, Repr

/-- The clipboards and the packets in flight from one to another. What has been sent to a clipboard
over each connection and the copies issued are ghosts. -/
structure State (V : Type u) where
  node : V → Node V
  link : V → V → List Packet
  sent : V → Peer V → List Packet
  issued : List (Issue V)

inductive Label (V : Type u)
  | issue (v : V) (k : Fin maxApps) (region : UInt8) (data : List UInt8) (stamp : UInt32)
  | receive (v u : V)
  | put (v : V) (x : Peer V)
  | push (v : V) (x : Peer V)
  | broadcast (v : V)
  deriving DecidableEq, Repr

namespace Packet

/-- `recvData` returns the size asked for. -/
def received (p : Packet) : Bool := transferred p.data.length = p.data.length

def sendable (p : Packet) : Bool :=
  transferred (packetDataSize + p.data.length) = packetDataSize + p.data.length

theorem received_iff {p : Packet} : p.received = true ↔ p.data.length < 2 ^ 31 := by
  rw [received, decide_eq_true_iff, transferred_eq_iff]

theorem sendable_iff {p : Packet} :
    p.sendable = true ↔ packetDataSize + p.data.length < 2 ^ 31 := by
  rw [sendable, decide_eq_true_iff, transferred_eq_iff]

/-- `mem_put` of the packet. -/
def put (m : Memory) (p : Packet) : Nat × Memory :=
  memPut m p.region.toNat p.data p.recvAt.toNat

end Packet

variable {V : Type u} [DecidableEq V]

namespace State

def setNode (s : State V) (v : V) (n : Node V) : State V :=
  { s with node := Function.update s.node v n }

def setSlave (s : State V) (v : V) (x : Peer V) (st : SlaveState) : State V :=
  s.setNode v { s.node v with slave := Function.update (s.node v).slave x st }

end State

/-- `appif_slave` receives a copy and marks its entrance in the network with the clock's time. -/
def issueStep (s : State V) (v : V) (k : Fin maxApps) (region : UInt8) (data : List UInt8)
    (stamp : UInt32) : Option (State V) :=
  let p : Packet := ⟨s.issued.length, region, data, stamp⟩
  -- `dataSize` is a `uint32_t`
  if (s.node v).slave (.app k) = .idle ∧ data.length < 2 ^ 32 then
    if p.received then
      some { s.setSlave v (.app k) (.received p) with
        sent := fun w x => if w = v ∧ x = .app k then s.sent w x ++ [p] else s.sent w x
        issued := s.issued ++ [⟨v, k, p⟩] }
    -- the size returned is not the one asked for: the slave leaves its loop
    else some { s with issued := s.issued ++ [⟨v, k, p⟩] }
  else none

/-- `clipif_slave` of the connection with `u` receives a copy. -/
def receiveStep (s : State V) (v u : V) : Option (State V) :=
  match (s.node v).slave (.clip u), s.link u v with
  | .idle, p :: rest =>
    let s := { s with link := fun a w => if a = u ∧ w = v then rest else s.link a w }
    some (if p.received then s.setSlave v (.clip u) (.received p) else s)
  | _, _ => none

def putStep (s : State V) (v : V) (x : Peer V) : Option (State V) :=
  match (s.node v).slave x with
  | .received p =>
    let r := p.put (s.node v).store
    some (s.setNode v { s.node v with
      store := r.2
      puts := (s.node v).puts ++ [⟨p, x, r.1 ≠ 0⟩]
      slave := Function.update (s.node v).slave x (if r.1 = 0 then .idle else .placed p) })
  | _ => none

/-- `clipif_add_broadcast` -/
def pushStep (s : State V) (v : V) (x : Peer V) : Option (State V) :=
  match (s.node v).slave x with
  | .placed p =>
    some (s.setNode v { s.node v with
      queue := (s.node v).queue ++ [⟨p, x⟩]
      slave := Function.update (s.node v).slave x .idle })
  | _ => none

variable (G : SimpleGraph V) [DecidableRel G.Adj]

def Forwards (v w : V) (b : Broadcast V) : Prop :=
  G.Adj v w ∧ b.fromPeer ≠ .clip w ∧ b.p.sendable = true

instance (v w : V) (b : Broadcast V) : Decidable (Forwards G v w b) :=
  inferInstanceAs (Decidable (_ ∧ _ ∧ _))

/-- One turn of `clipif_broadcast`. -/
def broadcastStep (s : State V) (v : V) : Option (State V) :=
  match (s.node v).queue with
  | [] => none
  | b :: rest =>
    some { s.setNode v { s.node v with queue := rest, passed := (s.node v).passed ++ [b] } with
      link := fun a w => if a = v ∧ Forwards G v w b then s.link a w ++ [b.p] else s.link a w
      sent := fun w x =>
        if x = .clip v ∧ Forwards G v w b then s.sent w x ++ [b.p] else s.sent w x }

def step (s : State V) : Label V → Option (State V)
  | .issue v k region data stamp => issueStep s v k region data stamp
  | .receive v u => receiveStep s v u
  | .put v x => putStep s v x
  | .push v x => pushStep s v x
  | .broadcast v => broadcastStep G s v

def nodeInit : Node V := ⟨memInit, [], fun _ => .idle, [], []⟩

/-- The clipboards of `G`, connected and empty. -/
def flood : System (State V) (Label V) where
  init := ⟨fun _ => nodeInit, fun _ _ => [], fun _ _ => [], []⟩
  step := step G

/-- No packet is queued, in flight or being handled. -/
structure Quiet (s : State V) : Prop where
  queues : ∀ v, (s.node v).queue = []
  links : ∀ u v, s.link u v = []
  slaves : ∀ v x, (s.node v).slave x = .idle

omit [DecidableEq V] in
theorem quiet_iff {s : State V} : Quiet s ↔ ∀ v, (s.node v).queue = [] ∧
    (∀ u, s.link u v = [] ∧ (s.node v).slave (.clip u) = .idle) ∧
      ∀ k, (s.node v).slave (.app k) = .idle := by
  constructor
  · intro quiet v
    exact ⟨quiet.queues v, fun u => ⟨quiet.links u v, quiet.slaves v _⟩, fun k => quiet.slaves v _⟩
  · intro idle
    refine ⟨fun v => (idle v).1, fun u v => ((idle v).2.1 u).1, fun v x => ?_⟩
    cases x with
    | clip u => exact ((idle v).2.1 u).2
    | app k => exact (idle v).2.2 k

instance [Fintype V] (s : State V) : Decidable (Quiet s) := decidable_of_iff' _ quiet_iff

end DistributedClipboard.Network.Flood
