/- module: DistributedClipboard/Library/ClientApi
   source: src/Library/client_api.c
   layer: model
   digest: The calls an application makes, and what they send and read. -/

import DistributedClipboard.Common
import DistributedClipboard.Lib.Stream
import DistributedClipboard.Utils.Packet

set_option autoImplicit false
set_option relaxedAutoImplicit false

namespace DistributedClipboard.Library.ClientApi

open DistributedClipboard.Common
open DistributedClipboard.Lib.Stream
open DistributedClipboard.Utils.Packet
open Proc (Runs Asks)

structure Result where
  retval : Int
  buf : List UInt8
  deriving DecidableEq, Repr

/-- What a call that fails returns. -/
def failed : Result := ⟨0, []⟩

/-- `clipboard_copy`, for a buffer of `count` bytes. -/
def clipboardCopy (region : Int) (buf : List UInt8) : Proc UInt8 Result := do
  let pLength := packetDataSize + buf.length
  if region < 0 ∨ region > 9 then return failed
  let p : PacketData :=
    ⟨PacketType.requestCopy.code, .ofNat region.toNat, .ofNat buf.length, 0⟩
  let retval ← sendData (p.bytes ++ buf) pLength
  if retval = -1 then return failed
  let (retval, head) ← recvData packetFetchSize
  if retval < 1 then return failed
  -- what is read goes over the request, whose size field lies where the response has its own
  return ⟨toInt (PacketFetch.ofBytes head).dataSize.toNat, []⟩

/-- `clipboard_paste` -/
def clipboardPaste (region : Int) (count : Nat) : Proc UInt8 Result := do
  if region < 0 ∨ region > 9 then return failed
  let p : PacketFetch := ⟨PacketType.requestPaste.code, .ofNat region.toNat, .ofNat count⟩
  Proc.send p.bytes (.done ())
  let (retval, head) ← recvData packetDataSize
  if retval < 1 then return failed
  let recvP := PacketData.ofBytes head
  if recvP.packetType ≠ PacketType.responsePaste.code then return failed
  if recvP.dataSize = 0 then return failed
  let (retval, buf) ← recvData recvP.dataSize.toNat
  if retval < 1 then return failed
  if recvP.dataSize.toNat > count then
    -- `MIN(recv_p.dataSize,count) < 1`: the comparison goes with the macro's last operand
    let _ ← recvData (if recvP.dataSize.toNat > count then count
      else if recvP.dataSize.toNat < 1 then 1 else 0)
    return ⟨retval, buf⟩
  else return ⟨retval, buf⟩

section Calls

variable {r : Region}

def copyFrame (r : Region) (data : List UInt8) : List UInt8 :=
  PacketData.bytes ⟨PacketType.requestCopy.code, .ofNat r.val, .ofNat data.length, 0⟩ ++ data

def pasteFrame (r : Region) (count : Nat) : PacketFetch :=
  ⟨PacketType.requestPaste.code, .ofNat r.val, .ofNat count⟩

theorem inRange (r : Region) : ¬ ((r.val : Int) < 0 ∨ (r.val : Int) > 9) := by
  have bound : r.val < 10 := r.isLt
  omega

theorem clipboardCopy_asks {data : List UInt8} (small : data.length ≤ 2 ^ 31 - 11)
    (response : PacketFetch) : Asks (clipboardCopy r.val data) (copyFrame r data) response.bytes
      ⟨toInt response.dataSize.toNat, []⟩ := by
  have length : (copyFrame r data).length = packetDataSize + data.length := by
    rw [copyFrame, List.length_append, PacketData.length_bytes]
  have sends : sendData (copyFrame r data) (packetDataSize + data.length) =
      .send (copyFrame r data) (.done (packetDataSize + data.length : Nat)) := by
    rw [← length]
    refine sendData_eq (fun empty => ?_) ?_
    · rw [empty, packetDataSize, List.length_nil] at length
      omega
    · rw [length, packetDataSize]
      omega
  have whole : ¬ ((packetDataSize + data.length : Nat) : Int) = -1 := by omega
  have reads : Runs (recvData packetFetchSize) response.bytes [] (6, response.bytes) :=
    recvData_runs response.length_bytes (by decide)
  rw [clipboardCopy, if_neg (inRange r), Int.toNat_natCast]
  rw [copyFrame] at sends ⊢
  simp only [sends, Proc.send_bind, Proc.done_bind, if_neg whole]
  refine ⟨_, rfl, ?_, ?_⟩
  · rw [recvData_eq (by decide) (by decide)]
    exact ⟨5, _, rfl⟩
  · refine reads.bind_done ?_
    simp only [PacketFetch.ofBytes_bytes]
    rfl

theorem clipboardPaste_asks {count : Nat} {data : List UInt8} {region : UInt8} {recvAt : UInt32}
    (fits : data.length ≤ count) (small : data.length < 2 ^ 31) :
    Asks (clipboardPaste r.val count) (pasteFrame r count).bytes
      (PacketData.bytes ⟨PacketType.responsePaste.code, region, .ofNat data.length, recvAt⟩ ++ data)
      ⟨data.length, data⟩ := by
  have size : (UInt32.ofNat data.length).toNat = data.length := by
    rw [UInt32.toNat_ofNat']
    exact Nat.mod_eq_of_lt (by omega)
  have reads (p : PacketData) : Runs (recvData packetDataSize) p.bytes [] (10, p.bytes) :=
    recvData_runs p.length_bytes (by decide)
  rw [clipboardPaste, if_neg (inRange r), Int.toNat_natCast, pasteFrame]
  simp only [Proc.send_bind, Proc.done_bind]
  refine ⟨_, rfl, ?_, ?_⟩
  · rw [recvData_eq (by decide) (by decide)]
    exact ⟨9, _, rfl⟩
  · refine (reads _).bind_silent ?_
    simp only [PacketData.ofBytes_bytes, ne_eq, not_true_eq_false, if_false]
    rcases Nat.eq_zero_or_pos data.length with zero | positive
    · obtain rfl : data = [] := List.length_eq_zero_iff.mp zero
      exact .done _
    · have some : UInt32.ofNat data.length ≠ 0 := by
        intro zero
        rw [zero] at size
        change 0 = data.length at size
        omega
      have payload : Runs (recvData data.length) data [] (data.length, data) :=
        recvData_runs rfl small
      have valid : ¬ (data.length : Int) < 1 := by omega
      simp only [size, if_neg some]
      refine payload.bind_done ?_
      simp only [if_neg valid, gt_iff_lt, if_neg (Nat.not_lt.mpr fits)]
      rfl

end Calls

end DistributedClipboard.Library.ClientApi
