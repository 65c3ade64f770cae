/- module: DistributedClipboard/Interfaces/LinkCodec
   source: src/src/interfaces/clipif.c
   layer: result
   digest: What one end of a link writes is what the other end reads. -/

import DistributedClipboard.Interfaces.ClipSlave

set_option autoImplicit false
set_option relaxedAutoImplicit false

namespace DistributedClipboard.Interfaces.LinkCodec

open DistributedClipboard.Interfaces.ClipSlave
open DistributedClipboard.Lib.Stream
open DistributedClipboard.Utils.Packet
open Proc (Runs)

/-- `size`: what `clipif_broadcast` sends of a packet. -/
def sendSize (p : List UInt8) : UInt32 :=
  match PacketType.ofCode (p.getD 0 0) with
  | some .goodbye => .ofNat packetSize
  | some .timeSync => .ofNat packetSyncSize
  | some .requestCopy => .ofNat packetDataSize + (PacketData.ofBytes p).dataSize
  | _ => 0

/-- What `clipif_broadcast` does on one connection with the packets it is handed. -/
def clipifBroadcast : List (List UInt8) → Proc UInt8 Unit
  | [] => return ()
  | p :: queue => do
    if sendSize p ≠ 0 then
      let _ ← sendData p (sendSize p).toNat
      clipifBroadcast queue
    else clipifBroadcast queue

abbrev Payload := { data : List UInt8 // 1 ≤ data.length ∧ data.length ≤ 2 ^ 31 - 11 }

theorem payload_size (payload : Payload) :
    (UInt32.ofNat payload.1.length).toNat = payload.1.length := by
  have small := payload.2.2
  exact UInt32.toNat_ofNat_of_lt' (by rw [UInt32.size]; omega)

/-- A packet the broadcaster can be handed before the goodbye. -/
inductive LinkPacket
  | timeSync (time : UInt32)
  | requestCopy (region : UInt8) (recvAt : UInt32) (payload : Payload)
  deriving DecidableEq, Repr

namespace LinkPacket

/-- The packet in the memory of the broadcaster. -/
def bytes : LinkPacket → List UInt8
  | timeSync time => PacketSync.bytes ⟨PacketType.timeSync.code, time⟩
  | requestCopy region recvAt payload =>
    PacketData.bytes ⟨PacketType.requestCopy.code, region, .ofNat payload.1.length, recvAt⟩ ++
      payload.1

/-- What the packet tells the peer to do. -/
def action (parentDelay : UInt32) : LinkPacket → Action
  | timeSync time => .sync (time + parentDelay)
  | requestCopy region recvAt payload => .put region payload.1 payload.1.length recvAt

end LinkPacket

/-- The packet `clipif_finalize` queues. -/
def goodbye : List UInt8 := [PacketType.goodbye.code]

section Broadcast

/-- A packet is framed when its first bytes, as many as `clipif_broadcast` sends, are all of it. -/
def Framed (p : List UInt8) : Prop :=
  p ≠ [] ∧ (sendSize p).toNat = p.length ∧ p.length < 2 ^ 31

theorem goodbye_framed : Framed goodbye := ⟨by decide, by decide, by decide⟩

theorem timeSync_framed (time : UInt32) :
    Framed (PacketSync.bytes ⟨PacketType.timeSync.code, time⟩) := by
  have type : PacketType.ofCode ((PacketSync.bytes ⟨PacketType.timeSync.code, time⟩).getD 0 0) =
      some .timeSync := PacketType.ofCode_code .timeSync
  refine ⟨List.cons_ne_nil _ _, ?_, ?_⟩
  · rw [sendSize, type, PacketSync.length_bytes]
    rfl
  · rw [PacketSync.length_bytes]
    decide

theorem sendSize_copy (pd : PacketData) (type : pd.packetType = PacketType.requestCopy.code)
    (payload : List UInt8) : sendSize (pd.bytes ++ payload) = plusHeader pd.dataSize := by
  have code : PacketType.ofCode ((pd.bytes ++ payload).getD 0 0) = some .requestCopy := by
    rw [← PacketType.ofCode_code .requestCopy, ← type]
    rfl
  have header : PacketData.ofBytes (pd.bytes ++ payload) = pd := by
    have same : PacketData.ofBytes (pd.bytes ++ payload) = PacketData.ofBytes pd.bytes := rfl
    rw [same, PacketData.ofBytes_bytes]
  rw [sendSize, code]
  simp only [header]
  rfl

theorem requestCopy_framed {pd : PacketData} {data : List UInt8}
    (type_ : pd.packetType = PacketType.requestCopy.code) (size : pd.dataSize.toNat = data.length)
    (small : data.length ≤ 2 ^ 31 - 11) : Framed (pd.bytes ++ data) := by
  have length : (pd.bytes ++ data).length = 10 + data.length := by
    rw [List.length_append, PacketData.length_bytes]
    rfl
  refine ⟨List.cons_ne_nil _ _, ?_, ?_⟩
  · rw [sendSize_copy pd type_, length, ← size, plusHeader, UInt32.toNat_add]
    have ten : (UInt32.ofNat packetDataSize).toNat = 10 := rfl
    omega
  · omega

theorem bytes_framed (p : LinkPacket) : Framed p.bytes := by
  cases p with
  | timeSync time => exact timeSync_framed time
  | requestCopy region recvAt payload =>
    exact requestCopy_framed rfl (payload_size payload) payload.2.2

theorem clipifBroadcast_runs {packets : List (List UInt8)} (framed : ∀ p ∈ packets, Framed p) :
    Runs (clipifBroadcast packets) [] packets () := by
  induction packets with
  | nil => exact .done ()
  | cons p queue ih =>
    obtain ⟨filled, size, small⟩ := framed p List.mem_cons_self
    have sent : sendSize p ≠ 0 := by
      intro zero
      rw [zero] at size
      exact filled (List.length_eq_zero_iff.mp size.symm)
    rw [clipifBroadcast, if_pos sent, size, sendData_eq filled small]
    exact .send p (ih fun q member => framed q (List.mem_cons_of_mem _ member))

end Broadcast

section Slave

variable {w : World} {s : SlaveState}

theorem slave_reads (withParent : w.withParent = true) (granted : ∀ log, w.malloc log = true)
    (alive : 1 ≤ s.err) (p : LinkPacket) : ∃ t, Runs (slave w s) p.bytes [] (some t) ∧ 1 ≤ t.err ∧
      t.acted = s.acted ++ [p.action w.parentDelay] := by
  cases p with
  | timeSync time => exact timeSync_runs withParent granted alive ⟨_, time⟩ rfl
  | requestCopy region recvAt payload =>
    obtain ⟨filled, small⟩ := payload.2
    have size := payload_size payload
    obtain ⟨t, runs, alive', acted⟩ := requestCopy_runs granted alive
      ⟨PacketType.requestCopy.code, region, .ofNat payload.1.length, recvAt⟩ rfl size.symm
      (List.length_pos_iff.mp filled) (by omega)
    rw [size] at acted
    exact ⟨t, runs, alive', acted⟩

theorem slave_reads_all (withParent : w.withParent = true) (granted : ∀ log, w.malloc log = true)
    (alive : 1 ≤ s.err) (packets : List LinkPacket) (n : Nat) (more : List UInt8) :
    ∃ t : SlaveState, turns (slave w) (packets.length + n) s
        ((packets.map LinkPacket.bytes).flatten ++ more) = turns (slave w) n t more ∧
      1 ≤ t.err ∧ t.acted = s.acted ++ packets.map (LinkPacket.action w.parentDelay) := by
  induction packets generalizing s with
  | nil =>
    refine ⟨s, ?_, alive, (List.append_nil _).symm⟩
    rw [List.length_nil, Nat.zero_add]
    rfl
  | cons p packets ih =>
    obtain ⟨t, turn, alive', acted⟩ := slave_reads withParent granted alive p
    obtain ⟨u, later, alive'', acted'⟩ := ih alive'
    refine ⟨u, ?_, alive'', ?_⟩
    · rw [List.length_cons, Nat.add_right_comm, List.map_cons, List.flatten_cons, List.append_assoc,
        turns_succ turn, later]
    · rw [acted', acted, List.append_assoc, List.map_cons]
      rfl

end Slave

/-- Every packet the broadcaster is handed goes out as one frame. The peer's slave on its parent
connection takes one turn for each of them and leaves nothing: it synchronises to the same clock
values and places the same regions, bytes, sizes and timestamps in the same order, whatever
`mem_put` and `clipif_add_broadcast` return. It leaves its loop after the goodbye; without one it
waits for the next packet. -/
theorem link_round_trip (w : World) (withParent : w.withParent = true)
    (granted : ∀ log, w.malloc log = true) (packets : List LinkPacket) (bye : Bool) :
    ∃ frames s,
      (clipifBroadcast (packets.map LinkPacket.bytes ++ if bye then [goodbye] else [])).exec [] =
        some ((), [], frames) ∧
      turns (slave w) (packets.length + bye.toNat) .start frames.flatten = some (s, []) ∧
      s.acted = packets.map (LinkPacket.action w.parentDelay) ∧
      if bye then slave w s = .done none else (slave w s).Blocked := by
  have alive : 1 ≤ SlaveState.start.err := by decide
  have framed : ∀ p ∈ packets.map LinkPacket.bytes ++ (if bye then [goodbye] else []),
      Framed p := by
    intro p member
    rcases List.mem_append.mp member with packet | last
    · obtain ⟨q, _, rfl⟩ := List.mem_map.mp packet
      exact bytes_framed q
    · cases bye with
      | false => cases last
      | true => exact List.mem_singleton.mp last ▸ goodbye_framed
  have written := (clipifBroadcast_runs framed).exec []
  rw [List.append_nil] at written
  cases bye with
  | false =>
    obtain ⟨t, reads, alive', acted⟩ := slave_reads_all withParent granted alive packets 0 []
    refine ⟨_, t, written, ?_, acted, slave_blocked alive'⟩
    rw [if_neg (by decide), List.append_nil]
    rw [List.append_nil] at reads
    exact reads
  | true =>
    obtain ⟨t, reads, alive', acted⟩ := slave_reads_all withParent granted alive packets 1 goodbye
    have last : turns (slave w) 1 t goodbye = some ({ t with err := 0 }, []) :=
      turns_succ (goodbye_runs alive') 0 []
    refine ⟨_, { t with err := 0 }, written, ?_, acted, slave_ends Int.zero_lt_one⟩
    rw [if_pos rfl, List.flatten_append, List.flatten_singleton]
    exact reads.trans last

def refusing : World where
  withParent := true
  parentDelay := 2
  malloc := fun _ => true
  timeMNow := fun _ => 0
  memPut := fun _ => 0
  clipifAddBroadcast := fun _ => 0

theorem link_round_trip_refused :
    ∃ frames s,
      (clipifBroadcast ([LinkPacket.timeSync 5, .requestCopy 3 7 ⟨[1, 2], by decide⟩].map
        LinkPacket.bytes ++ if true then [goodbye] else [])).exec [] = some ((), [], frames) ∧
      turns (slave refusing) 3 .start frames.flatten = some (s, []) ∧
      s.acted = [.sync 7, .put 3 [1, 2] 2 7] ∧
      if true then slave refusing s = .done none else (slave refusing s).Blocked :=
  link_round_trip refusing rfl (fun _ => rfl)
    [LinkPacket.timeSync 5, .requestCopy 3 7 ⟨[1, 2], by decide⟩] true

end DistributedClipboard.Interfaces.LinkCodec
