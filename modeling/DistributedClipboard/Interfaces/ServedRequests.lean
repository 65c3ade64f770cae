/- module: DistributedClipboard/Interfaces/ServedRequests
   source: src/src/interfaces/appif.c, src/src/utils/packet.c, src/src/mem/clmem.c
   layer: theorem
   digest: When a connection of an application outlives its requests, the refused ones among them. -/

import DistributedClipboard.Interfaces.AppTurns
import DistributedClipboard.Lib.Turns

set_option autoImplicit false
set_option relaxedAutoImplicit false

namespace DistributedClipboard.Interfaces.ServedRequests

open DistributedClipboard.Common
open DistributedClipboard.Interfaces.AppBuffers
open DistributedClipboard.Interfaces.AppTurns
open DistributedClipboard.Lib.Turns
open DistributedClipboard.Mem.Clmem
open DistributedClipboard.Mem.Representation
open DistributedClipboard.Utils.Packet

def Refused (e : Env) : Request → Prop
  | .paste region dataSize => regionOf region.toNat = none ∨ dataSize = 0
  | .wait region dataSize => regionOf region.toNat = none ∨ dataSize = 0
  | .copy region _ payload _ => regionOf region.toNat = none ∨ payload = [] ∨
    ∃ r, regionOf region.toNat = some r ∧ (e.mem r).data.isSome = true ∧
      e.timeMNow.toNat < (e.mem r).updateCond
  | .goodbye => False

/-- The connection goes on with the next request, and a refused one has been answered with size 0.
Only a goodbye ends it. -/
def Answered (env : Nat → Env) (s : SlaveState) (f : Request) (rest : List UInt8) (t : SlaveState)
    (left : List UInt8) (outs : List (List UInt8)) : Prop :=
  match f with
  | .goodbye => True
  | f => 1 ≤ t.err ∧ left = rest ∧ (Refused (env s.turn) f →
    outs ≠ [] ∧ ∀ o ∈ outs, (PacketFetch.ofBytes o).dataSize = 0)

/-- When the connection goes on. Without a buffer for the response to a paste or a wait, or for the
acknowledgement of a copy, the request is not answered, which a refused one has to be. -/
def Answerable (env : Nat → Env) (s : SlaveState) : Request → Prop
  | .paste region dataSize =>
    (env s.turn).packetGranted = false ∧ ¬ Refused (env s.turn) (.paste region dataSize) ∨
    (env s.turn).packetGranted = true ∧ FitsHeader dataSize ∧
      memGet (env s.turn).mem region.toNat dataSize.toNat ≠ none ∧
      packetDataSize + min dataSize.toNat (sizeAt (env s.turn).mem region.toNat) < 2 ^ 31
  | .wait region dataSize =>
    (env s.turn).packetGranted = false ∧ ¬ Refused (env s.turn) (.wait region dataSize) ∨
    (env s.turn).packetGranted = true ∧ FitsHeader dataSize ∧
      memWaitReturn (env s.turn).mem region.toNat dataSize.toNat ≠ none ∧
      packetDataSize + min dataSize.toNat (awakeAt (env s.turn).mem region.toNat) < 2 ^ 31 ∧
      0 < min dataSize.toNat (awakeAt (env s.turn).mem region.toNat)
  | .copy region recvAt payload length =>
    (env s.turn).packetGranted = true ∧ 1 ≤ payload.length ∧ payload.length < 2 ^ 31 ∧
      (Refused (env s.turn) (.copy region recvAt payload length) →
        (env s.turn).fetchGranted = true)
  | .goodbye => True

section Turns

variable {env : Nat → Env} {s : SlaveState}

theorem fetched_size (e : Env) (type : PacketType) (pf : PacketFetch) (data : List UInt8) :
    (PacketFetch.ofBytes (fetched e type pf data)).dataSize = .ofNat data.length :=
  uint32Of_uint32Bytes _

theorem ack_size (e : Env) (pd : PacketData) (payload : List UInt8) :
    (PacketFetch.ofBytes (ack e pd payload)).dataSize =
      .ofNat (memPut e.mem pd.region.toNat payload e.timeMNow.toNat).1 :=
  uint32Of_uint32Bytes _

theorem fetch_answered_iff {type : PacketType}
    {fetch : Memory → Int → Nat → Option (List UInt8)} {emptyEnds : Bool} (pf : PacketFetch)
    (held : Nat) (rest : List UInt8) (alive : 1 ≤ s.err)
    (switch : ∀ t : SlaveState, request (env s.turn) t [pf.packetType] =
      fetchRequest (env s.turn) type fetch emptyEnds t [pf.packetType])
    (length : ∀ data, fetch (env s.turn).mem pf.region.toNat pf.dataSize.toNat = some data →
      data.length = min pf.dataSize.toNat held)
    (refused : Prop) (empty : refused → min pf.dataSize.toNat held = 0) :
    (∃ t left outs, (appifSlave env s).exec (pf.bytes ++ rest) = some (some t, left, outs) ∧
        1 ≤ t.err ∧ left = rest ∧
          (refused → outs ≠ [] ∧ ∀ o ∈ outs, (PacketFetch.ofBytes o).dataSize = 0)) ↔
      (env s.turn).packetGranted = false ∧ ¬ refused ∨
      (env s.turn).packetGranted = true ∧ FitsHeader pf.dataSize ∧
        fetch (env s.turn).mem pf.region.toNat pf.dataSize.toNat ≠ none ∧
        packetDataSize + min pf.dataSize.toNat held < 2 ^ 31 ∧
        (emptyEnds = true → 0 < min pf.dataSize.toNat held) := by
  by_cases granted : (env s.turn).packetGranted = true
  · rw [granted, or_iff_right (by simp)]
    by_cases right : FitsHeader pf.dataSize ∧
        fetch (env s.turn).mem pf.region.toNat pf.dataSize.toNat ≠ none
    · obtain ⟨fits, some_⟩ := right
      obtain ⟨data, found⟩ := Option.ne_none_iff_exists'.mp some_
      have bytes := length data found
      obtain ⟨outs, turn, same, sent⟩ := turn_fetch_done switch alive granted fits found
        (by omega) rest
      rw [← bytes, ends_iff turn]
      constructor
      · rintro ⟨live, _, _⟩
        have small : packetDataSize + data.length < 2 ^ 31 := by
          -- a response that is too big counts as one of no bytes
          by_contra large
          have none_ : transferred (packetDataSize + data.length) = 0 := by
            have short := data.length.zero_le
            rw [packetDataSize] at large ⊢
            rw [FitsHeader, packetDataSize] at fits
            rw [transferred, toInt, Nat.mod_eq_of_lt (by omega), if_neg (by omega)]
            omega
          have lives : (1 : Int) ≤ min ((transferred (packetDataSize + data.length) : Nat) : Int)
            (if emptyEnds = true ∧ data.length = 0 then 0 else 5) := live
          rw [none_] at lives
          omega
        refine ⟨rfl, fits, some_, small, fun ends => ?_⟩
        by_contra zero
        have none_ : data.length = 0 := by omega
        rw [if_pos ⟨ends, none_⟩] at live
        have lives : (1 : Int) ≤ min (transferred (packetDataSize + data.length) : Int) 0 := live
        omega
      · rintro ⟨_, _, _, small, filled⟩
        refine ⟨?_, rfl, fun no => ⟨sent.mpr small, fun o mine => ?_⟩⟩
        · have some' : ¬ (emptyEnds = true ∧ data.length = 0) := by
            rintro ⟨ends, zero⟩
            have positive := filled ends
            omega
          rw [if_neg some', transferred_small small]
          show (1 : Int) ≤ min ((packetDataSize + data.length : Nat) : Int) 5
          rw [packetDataSize]
          omega
        · rw [same o mine, fetched_size, bytes, empty no]
          rfl
    · refine iff_of_false (not_ends ?_) fun h => right ⟨h.2.1, h.2.2.1⟩
      rw [not_and_or, not_not] at right
      exact turn_fetch_fault switch alive granted right rest
  · have none_ : (env s.turn).packetGranted = false := by simpa using granted
    rw [none_, or_iff_left (by simp), ends_iff (turn_fetch_refused switch alive none_ rest)]
    constructor
    · rintro ⟨_, _, answered⟩
      exact ⟨rfl, fun no => (answered no).1 rfl⟩
    · rintro ⟨_, served⟩
      exact ⟨(by decide : (1 : Int) ≤ 5), rfl, fun no => absurd no served⟩

theorem refused_put {e : Env} {region : UInt8} {recvAt : UInt32} {payload : List UInt8}
    {length : payload.length < 2 ^ 32} (no : Refused e (.copy region recvAt payload length)) :
    (memPut e.mem region.toNat payload e.timeMNow.toNat).1 = 0 := by
  rcases memPut_cases e.mem region.toNat payload e.timeMNow.toNat with
    ⟨zero, _⟩ | ⟨r, found, filled, olds, _, _⟩
  · exact zero
  · rcases no with none_ | empty | ⟨q, found', held, newer⟩
    · rw [none_] at found
      cases found
    · exact absurd empty filled
    · obtain rfl : r = q := Option.some.inj (found.symm.trans found')
      exact absurd newer (Nat.not_lt.mpr (olds held))

theorem copy_answered_iff (region : UInt8) (recvAt : UInt32) (payload : List UInt8)
    (length : payload.length < 2 ^ 32) (rest : List UInt8) (alive : 1 ≤ s.err) :
    (∃ t left outs, (appifSlave env s).exec ((Request.copy region recvAt payload length).bytes ++
        rest) = some (some t, left, outs) ∧
        Answered env s (.copy region recvAt payload length) rest t left outs) ↔
      Answerable env s (.copy region recvAt payload length) := by
  let pd : PacketData := ⟨PacketType.requestCopy.code, region, .ofNat payload.length, recvAt⟩
  have bytes : (Request.copy region recvAt payload length).bytes ++ rest =
      pd.bytes ++ (payload ++ rest) := List.append_assoc _ _ _
  have size : pd.dataSize.toNat = payload.length := UInt32.toNat_ofNat_of_lt' length
  by_cases granted : (env s.turn).packetGranted = true
  · by_cases small : payload.length < 2 ^ 31
    · have fits : FitsHeader pd.dataSize := by
        rw [FitsHeader, size, packetDataSize]
        omega
      obtain ⟨outs, turn, same, sent⟩ := turn_copy_done alive rfl granted fits small size.symm rest
      refine (ends_iff turn).trans ?_
      constructor
      · rintro ⟨live, _, answered⟩
        refine ⟨granted, ?_, small, fun no => sent.mp (answered no).1⟩
        have lives : (1 : Int) ≤ if (env s.turn).fetchGranted then min 6 (payload.length : Int)
          else payload.length := live
        split at lives <;> omega
      · rintro ⟨_, filled, _, acked⟩
        refine ⟨?_, rfl, fun no => ⟨sent.mpr (acked no), fun o mine => ?_⟩⟩
        · show (1 : Int) ≤ if (env s.turn).fetchGranted then min 6 (payload.length : Int)
            else payload.length
          split <;> omega
        · rw [same o mine, ack_size]
          show UInt32.ofNat (memPut (env s.turn).mem region.toNat payload
            (env s.turn).timeMNow.toNat).1 = 0
          rw [refused_put no]
          rfl
    · refine iff_of_false ?_ fun h => small h.2.2.1
      by_cases fits : FitsHeader pd.dataSize
      · rw [bytes, ends_iff (turn_copy_large alive rfl granted fits (by omega) _)]
        rintro ⟨live, _⟩
        exact absurd live (show ¬ (1 : Int) ≤ 0 by decide)
      · rw [bytes]
        exact not_ends (turn_copy_fault alive rfl granted fits _)
  · have none_ : (env s.turn).packetGranted = false := by simpa using granted
    refine iff_of_false ?_ fun h => granted h.1
    rw [bytes, ends_iff (turn_copy_refused alive rfl none_ _)]
    rintro ⟨_, behind, answered⟩
    -- the payload is left on the stream, and an empty copy is not answered
    have empty : payload = [] := List.append_left_eq_self.mp behind
    exact (answered (.inr (.inl empty))).1 rfl

theorem answered_iff (f : Request) (rest : List UInt8) (alive : 1 ≤ s.err) :
    (∃ t left outs, (appifSlave env s).exec (f.bytes ++ rest) = some (some t, left, outs) ∧
      Answered env s f rest t left outs) ↔ Answerable env s f := by
  cases f with
  | paste region dataSize =>
    have served := fetch_answered_iff ⟨PacketType.requestPaste.code, region, dataSize⟩
      (sizeAt (env s.turn).mem region.toNat) rest alive (fun _ => rfl)
      (fun data found => memGet_length found) (Refused (env s.turn) (.paste region dataSize)) ?_
    · refine served.trans ?_
      rw [Answerable]
      simp
    · rintro (none_ | rfl)
      · simp [sizeAt, none_]
      · exact Nat.zero_min _
  | wait region dataSize =>
    have served := fetch_answered_iff ⟨PacketType.requestWait.code, region, dataSize⟩
      (awakeAt (env s.turn).mem region.toNat) rest alive (fun _ => rfl)
      (fun data found => memWaitReturn_length found) (Refused (env s.turn) (.wait region dataSize))
      ?_
    · refine served.trans ?_
      rw [Answerable]
      simp
    · rintro (none_ | rfl)
      · simp [awakeAt, none_]
      · exact Nat.zero_min _
  | copy region recvAt payload length =>
    exact copy_answered_iff region recvAt payload length rest alive
  | goodbye =>
    refine iff_of_true ?_ trivial
    exact ⟨_, _, _, appifSlave_exec alive PacketType.goodbye.code rest, trivial⟩

end Turns

/-- `appif_slave` serves every request and leaves its loop after a goodbye only, exactly when every
request lets it in the state its turn begins in: no copy is empty or has 2^31 bytes or more, no wait
is for nothing or for a region there is not, no response has 2^31 bytes or more, and where `malloc`
refuses a buffer the request is not one that has to be answered. -/
theorem requests_served_iff (env : Nat → Env) (fs : List Request) (more : List UInt8) :
    Serves (appifSlave env) Request.bytes (fun t => 1 ≤ t.err) (Answered env) more .start fs ↔
      Meets (appifSlave env) Request.bytes (fun t => 1 ≤ t.err) (Answerable env) more .start fs :=
  serves_iff (fun _ f rest alive => answered_iff f rest alive) (by decide)

/-- An empty copy ends the connection, and the paste after it is not served. -/
theorem requests_served_empty_copy :
    ¬ Serves (appifSlave fun _ => generous) Request.bytes (fun t => 1 ≤ t.err)
      (Answered fun _ => generous) [] .start [.copy 0 0 [] (by decide), .paste 0 1] := by
  rintro ⟨t, left, outs, turn, holds, _⟩
  have answerable := (copy_answered_iff 0 0 [] (by decide) _ (by decide)).mp
    ⟨t, left, outs, turn, holds⟩
  exact absurd answerable.2.1 (by decide)

end DistributedClipboard.Interfaces.ServedRequests
