/- module: DistributedClipboard/Library/ClientCopies
   source: src/Library/client_api.c
   layer: theorem
   digest: The frame a copy of the client sends, for every length of its buffer. -/

import DistributedClipboard.Library.ClientApi

set_option autoImplicit false
set_option relaxedAutoImplicit false

namespace DistributedClipboard.Library.ClientCopies

open DistributedClipboard.Lib.Stream
open DistributedClipboard.Library.ClientApi
open DistributedClipboard.Utils.Packet

/-- `clipboard_copy` with the packet it allocates. The size is an `unsigned long`, and nothing is
asked of the pointer before the header and the payload are written through it. -/
def copyAllocated (malloc : Nat → Bool) (region : Int) (buf : List UInt8) : Proc UInt8 Result :=
  let pLength := (packetDataSize + buf.length) % 2 ^ 64
  if region < 0 ∨ region > 9 then .done failed
  else if malloc pLength = false ∨ pLength < packetDataSize + buf.length then .fault
  else clipboardCopy region buf

/-- The call returns 0 and has written nothing, or it writes one copy frame, whose size field is the
number of the bytes that follow, and waits. -/
def Encodes (region : Int) (buf : List UInt8) (p : Proc UInt8 Result) : Prop :=
  (∃ r, p = .done r ∧ r.retval = 0) ∨
  ∃ (pd : PacketData) (next : Proc UInt8 Result), pd.packetType = PacketType.requestCopy.code ∧
    (pd.region.toNat : Int) = region ∧ pd.dataSize.toNat = buf.length ∧
    p = .send (pd.bytes ++ buf) next ∧ next.Blocked

section Lengths

variable {region : Int} {buf : List UInt8}

def copyHeader (region : Int) (buf : List UInt8) : PacketData :=
  ⟨PacketType.requestCopy.code, .ofNat region.toNat, .ofNat buf.length, 0⟩

def awaitAck : Proc UInt8 Result := do
  let (retval, head) ← recvData packetFetchSize
  if retval < 1 then return failed
  return ⟨toInt (PacketFetch.ofBytes head).dataSize.toNat, []⟩

theorem awaitAck_blocked : awaitAck.Blocked := by
  rw [awaitAck, recvData_eq (by decide) (by decide)]
  exact ⟨5, _, rfl⟩

theorem clipboardCopy_eq (valid : ¬ (region < 0 ∨ region > 9)) : clipboardCopy region buf =
    sendData ((copyHeader region buf).bytes ++ buf) (packetDataSize + buf.length) >>= fun retval =>
      if retval = -1 then .done failed else awaitAck := by
  rw [clipboardCopy, if_neg valid]
  rfl

theorem frame_length (pd : PacketData) : (pd.bytes ++ buf).length = packetDataSize + buf.length := by
  rw [List.length_append, PacketData.length_bytes]

theorem clipboardCopy_whole (valid : ¬ (region < 0 ∨ region > 9))
    (small : packetDataSize + buf.length < 2 ^ 31) :
    Encodes region buf (clipboardCopy region buf) := by
  have length : ((copyHeader region buf).bytes ++ buf).length = packetDataSize + buf.length :=
    frame_length (copyHeader region buf)
  have sends : sendData ((copyHeader region buf).bytes ++ buf) (packetDataSize + buf.length) =
      .send ((copyHeader region buf).bytes ++ buf) (.done (packetDataSize + buf.length : Nat)) := by
    rw [← length]
    refine sendData_eq (fun empty => ?_) (by rwa [length])
    rw [empty, List.length_nil, packetDataSize] at length
    omega
  have sent : ¬ ((packetDataSize + buf.length : Nat) : Int) = -1 := by omega
  rw [packetDataSize] at small
  right
  refine ⟨copyHeader region buf, awaitAck, rfl, ?_, ?_, ?_, awaitAck_blocked⟩
  · show ((UInt8.ofNat region.toNat).toNat : Int) = region
    rw [UInt8.toNat_ofNat']
    omega
  · show (UInt32.ofNat buf.length).toNat = buf.length
    rw [UInt32.toNat_ofNat']
    omega
  · rw [clipboardCopy_eq valid, sends, Proc.send_bind, Proc.done_bind, if_neg sent]

theorem clipboardCopy_short (valid : ¬ (region < 0 ∨ region > 9))
    (large : 2 ^ 31 ≤ packetDataSize + buf.length) :
    ¬ Encodes region buf (clipboardCopy region buf) := by
  have short := transferred_lt (packetDataSize + buf.length)
  rw [clipboardCopy_eq valid, sendData]
  by_cases some_ : 0 < toInt (packetDataSize + buf.length)
  · rw [if_pos some_]
    rintro (⟨r, ends, _⟩ | ⟨pd, next, _, _, _, writes, _⟩)
    · cases ends
    · rw [Proc.send_bind] at writes
      have bytes := congrArg List.length (Proc.send.inj writes).1
      rw [List.length_take, frame_length, frame_length] at bytes
      omega
  · rw [if_neg some_]
    obtain ⟨n, next, waits⟩ := awaitAck_blocked
    rw [Proc.done_bind, if_neg (by decide), waits]
    rintro (⟨r, ends, _⟩ | ⟨pd, next, _, _, _, writes, _⟩)
    · cases ends
    · cases writes

variable {malloc : Nat → Bool}

theorem copyAllocated_granted (valid : ¬ (region < 0 ∨ region > 9))
    (fits : packetDataSize + buf.length < 2 ^ 64)
    (granted : malloc (packetDataSize + buf.length) = true) :
    copyAllocated malloc region buf = clipboardCopy region buf := by
  rw [copyAllocated, if_neg valid, Nat.mod_eq_of_lt fits, if_neg (by simp [granted])]

theorem copyAllocated_fault (valid : ¬ (region < 0 ∨ region > 9))
    (lacks : 2 ^ 64 ≤ packetDataSize + buf.length ∨ malloc (packetDataSize + buf.length) = false) :
    copyAllocated malloc region buf = .fault := by
  rw [copyAllocated, if_neg valid, if_pos]
  by_cases fits : packetDataSize + buf.length < 2 ^ 64
  · rw [Nat.mod_eq_of_lt fits]
    exact .inl (lacks.resolve_left (Nat.not_le.mpr fits))
  · exact .inr ((Nat.mod_lt _ (by decide)).trans_le (Nat.not_lt.mp fits))

theorem not_encodes_fault : ¬ Encodes region buf .fault := by
  rintro (⟨r, ends, _⟩ | ⟨pd, next, _, _, _, writes, _⟩)
  · cases ends
  · cases writes

end Lengths

/-- A copy goes out as one faithful frame, or not at all, when the region is none or its packet can
be allocated and the size of the packet is an `int`. -/
theorem copy_encodes_iff (malloc : Nat → Bool) (region : Int) (buf : List UInt8) :
    Encodes region buf (copyAllocated malloc region buf) ↔ (region < 0 ∨ region > 9) ∨
      malloc (packetDataSize + buf.length) = true ∧ buf.length ≤ 2 ^ 31 - 11 := by
  by_cases valid : region < 0 ∨ region > 9
  · rw [copyAllocated, if_pos valid]
    exact iff_of_true (.inl ⟨failed, rfl, rfl⟩) (.inl valid)
  rw [or_iff_right valid]
  by_cases lacks : 2 ^ 64 ≤ packetDataSize + buf.length ∨
      malloc (packetDataSize + buf.length) = false
  · rw [copyAllocated_fault valid lacks]
    refine iff_of_false not_encodes_fault ?_
    rintro ⟨granted, small⟩
    rcases lacks with large | refused
    · rw [packetDataSize] at large
      omega
    · rw [granted] at refused
      cases refused
  · rw [not_or, not_le, Bool.not_eq_false] at lacks
    obtain ⟨fits, granted⟩ := lacks
    rw [copyAllocated_granted valid fits granted, and_iff_right granted]
    constructor
    · intro encodes
      by_contra large
      refine clipboardCopy_short valid ?_ encodes
      rw [packetDataSize]
      omega
    · intro small
      refine clipboardCopy_whole valid ?_
      rw [packetDataSize]
      omega

/-- The first length that makes the size of the packet negative: nothing is written, and the
acknowledgement of it is waited for. -/
theorem copy_encodes_negative : ¬ Encodes 0 (.replicate (2 ^ 31 - 10) 97)
    (copyAllocated (fun _ => true) 0 (.replicate (2 ^ 31 - 10) 97)) := by
  have length : packetDataSize + (List.replicate (2 ^ 31 - 10) (97 : UInt8)).length = 2 ^ 31 := by
    rw [List.length_replicate, packetDataSize]
    omega
  have valid : ¬ ((0 : Int) < 0 ∨ (0 : Int) > 9) := by decide
  rw [copyAllocated_granted valid (by rw [length]; decide) rfl]
  exact clipboardCopy_short valid length.ge

end DistributedClipboard.Library.ClientCopies
