/- module: DistributedClipboard/Library/ClientReads
   source: src/Library/client_api.c
   layer: theorem
   digest: What the client reads of a response, and where it puts it. -/

import DistributedClipboard.Library.ClientApi

set_option autoImplicit false
set_option relaxedAutoImplicit false

namespace DistributedClipboard.Library.ClientReads

open DistributedClipboard.Common
open DistributedClipboard.Lib.Stream
open DistributedClipboard.Library.ClientApi
open DistributedClipboard.Utils.Packet

inductive Target
  /-- `&recv_p` -/
  | recvP
  /-- The buffer of the caller. -/
  | buf
  /-- `trash` -/
  | trash
  /-- `&trash`: the pointer itself, on the stack. -/
  | trashPointer
  deriving DecidableEq, Repr

structure Write where
  target : Target
  room : Nat
  bytes : List UInt8
  deriving DecidableEq, Repr

structure Reading where
  retval : Int
  writes : List Write
  deriving DecidableEq, Repr

def recvInto (target : Target) (room size : Nat) : Proc UInt8 (Int × Write) := do
  let (retval, bytes) ← recvData size
  return (retval, ⟨target, room, bytes⟩)

/-- `sizeof(uint8_t *)` -/
def pointerSize : Nat := 8

/-- `clipboard_paste`, for a buffer of `count` bytes. -/
def clipboardPaste (region : Int) (count : Nat) : Proc UInt8 Reading := do
  if region < 0 ∨ region > 9 then return ⟨0, []⟩
  let p : PacketFetch := ⟨PacketType.requestPaste.code, .ofNat region.toNat, .ofNat count⟩
  Proc.send p.bytes (.done ())
  let (retval, head) ← recvInto .recvP packetDataSize packetDataSize
  if retval < 1 then return ⟨0, [head]⟩
  let recvP := PacketData.ofBytes head.bytes
  if recvP.packetType ≠ PacketType.responsePaste.code then return ⟨0, [head]⟩
  if recvP.dataSize = 0 then return ⟨0, [head]⟩
  let (retval, data) ← recvInto .buf count recvP.dataSize.toNat
  if retval < 1 then return ⟨0, [head, data]⟩
  if recvP.dataSize.toNat > count then
    -- `MIN(recv_p.dataSize,count) < 1`: the comparison goes with the macro's last operand
    let (_, excess) ← recvInto .trash (recvP.dataSize.toNat - count)
      (if recvP.dataSize.toNat > count then count else if recvP.dataSize.toNat < 1 then 1 else 0)
    return ⟨retval, [head, data, excess]⟩
  return ⟨retval, [head, data]⟩

/-- `clipboard_wait`, for a buffer of `count` bytes. -/
def clipboardWait (region : Int) (count : Nat) : Proc UInt8 Reading := do
  if region < 0 ∨ region > 9 then return ⟨0, []⟩
  let p : PacketFetch := ⟨PacketType.requestWait.code, .ofNat region.toNat, .ofNat count⟩
  let sent ← sendData p.bytes packetFetchSize
  if sent = -1 then return ⟨0, []⟩
  let (retval, head) ← recvInto .recvP packetDataSize packetDataSize
  if retval < 1 then return ⟨0, [head]⟩
  let recvP := PacketData.ofBytes head.bytes
  if recvP.dataSize = 0 then return ⟨0, [head]⟩
  if recvP.packetType ≠ PacketType.responseNotify.code then return ⟨0, [head]⟩
  let (retval, data) ← recvInto .buf count recvP.dataSize.toNat
  if retval < 1 then return ⟨0, [head, data]⟩
  if recvP.dataSize.toNat > count then
    let (_, excess) ← recvInto .trashPointer pointerSize (recvP.dataSize.toNat - count)
    return ⟨retval, [head, data, excess]⟩
  return ⟨retval, [head, data]⟩

/-- A response with its payload. -/
def responseFrame (type : PacketType) (region : UInt8) (recvAt : UInt32) (payload : List UInt8) :
    List UInt8 :=
  PacketData.bytes ⟨type.code, region, .ofNat payload.length, recvAt⟩ ++ payload

/-- What a call has put in the buffer of its caller. -/
def Reading.received (r : Reading) : List UInt8 :=
  (r.writes.filter fun w => w.target = .buf).flatMap Write.bytes

/-- The call has taken the response from the stream and nothing else, has put in the buffer as many
bytes of the payload as it has room for, and has written no target past its end. -/
def WithinFrame (count : Nat) (payload more : List UInt8)
    (run : Option (Reading × List UInt8 × List (List UInt8))) : Prop :=
  ∃ r outs, run = some (r, more, outs) ∧ r.received = payload.take count ∧
    ∀ w ∈ r.writes, w.bytes.length ≤ w.room

section Frames

variable {α : Type} {count size : Nat} {target : Target} {room : Nat} {bs payload more : List UInt8}
  {head : Write} {r : Region}

theorem recvInto_exec (length : bs.length = size) (positive : 0 < size) (small : size < 2 ^ 31)
    (f : Int × Write → Proc UInt8 α) : (recvInto target room size >>= f).exec (bs ++ more) =
      (f (size, ⟨target, room, bs⟩)).exec more := by
  subst length
  rw [recvInto, recvData_eq positive small]
  show Proc.exec (.recv bs.length _) (bs ++ more) = _
  rw [Proc.exec, if_pos (by rw [List.length_append]; omega), List.take_left, List.drop_left]
  rfl

theorem recvInto_exec_any (ins : List UInt8) (f : Int × Write → Proc UInt8 α) :
    (recvInto target room size >>= f).exec ins = none ∨ ∃ x rest,
      (recvInto target room size >>= f).exec ins = (f x).exec rest := by
  rw [recvInto, recvData]
  by_cases some_ : 0 < toInt size
  · rw [if_pos some_]
    show Proc.exec (.recv (transferred size) _) ins = none ∨ ∃ x rest,
      Proc.exec (.recv (transferred size) _) ins = _
    rw [Proc.exec]
    by_cases enough : transferred size ≤ ins.length
    · rw [if_pos enough]
      exact .inr ⟨_, _, rfl⟩
    · rw [if_neg enough]
      exact .inl rfl
  · rw [if_neg some_]
    exact .inr ⟨_, ins, rfl⟩

def readPayload (count size : Nat) (head : Write) (drain : Proc UInt8 (Int × Write)) :
    Proc UInt8 Reading := do
  let (retval, data) ← recvInto .buf count size
  if retval < 1 then return ⟨0, [head, data]⟩
  if size > count then
    let (_, excess) ← drain
    return ⟨retval, [head, data, excess]⟩
  return ⟨retval, [head, data]⟩

theorem withinFrame_send (bytes : List UInt8) (p : Proc UInt8 Reading) (ins : List UInt8) :
    WithinFrame count payload more ((Proc.send bytes p).exec ins) ↔
      WithinFrame count payload more (p.exec ins) := by
  rw [Proc.exec]
  constructor
  · rintro ⟨r, outs, ends, rest⟩
    obtain ⟨⟨r', rest', outs'⟩, ends', same⟩ := Option.map_eq_some_iff.mp ends
    cases same
    exact ⟨r, outs', ends', rest⟩
  · rintro ⟨r, outs, ends, rest⟩
    exact ⟨r, bytes :: outs, by rw [ends]; rfl, rest⟩

theorem readPayload_within (positive : payload ≠ []) (small : payload.length < 2 ^ 31)
    (fits : head.bytes.length ≤ head.room) (apart : head.target ≠ .buf) (excess : Nat) :
    WithinFrame count payload more
        ((readPayload count payload.length head (recvInto target room excess)).exec
          (payload ++ more)) ↔ payload.length ≤ count := by
  have some_ : 0 < payload.length := List.length_pos_iff.mpr positive
  have valid : ¬ (payload.length : Int) < 1 := by omega
  rw [readPayload, recvInto_exec rfl some_ small]
  simp only [if_neg valid]
  by_cases large : payload.length > count
  · rw [if_pos large]
    refine iff_of_false ?_ (Nat.not_le.mpr large)
    rintro ⟨r, outs, ends, _, bounded⟩
    rcases recvInto_exec_any more (fun x => (return ⟨(payload.length : Int),
      [head, ⟨.buf, count, payload⟩, x.2]⟩ : Proc UInt8 Reading)) with waits | ⟨x, rest, reads⟩
    · rw [waits] at ends
      cases ends
    · rw [reads] at ends
      cases ends
      exact absurd (bounded ⟨.buf, count, payload⟩ (by simp)) (Nat.not_le.mpr large)
  · rw [if_neg large]
    have whole : payload.length ≤ count := Nat.not_lt.mp large
    refine iff_of_true ⟨_, _, rfl, ?_, ?_⟩ whole
    · simp [Reading.received, apart, List.take_of_length_le whole]
    · intro w mine
      simp only [List.mem_cons, List.not_mem_nil, or_false] at mine
      rcases mine with rfl | rfl
      · exact fits
      · exact whole

theorem header_within (fits : head.bytes.length ≤ head.room) (apart : head.target ≠ .buf) :
    WithinFrame count [] more ((Proc.done ⟨0, [head]⟩ : Proc UInt8 Reading).exec more) := by
  refine ⟨_, _, rfl, by simp [Reading.received, apart], ?_⟩
  intro w mine
  obtain rfl := List.mem_singleton.mp mine
  exact fits

/-- `recv_p`, once the header is in it. -/
def headerRead (pd : PacketData) : Write := ⟨.recvP, packetDataSize, pd.bytes⟩

theorem response_within (target : Target) (room excess : Nat) {pd : PacketData}
    (length : payload.length = pd.dataSize.toNat) (small : payload.length < 2 ^ 31)
    {rest : Int × Write → Proc UInt8 Reading}
    (handles : rest (packetDataSize, headerRead pd) =
      if pd.dataSize = 0 then .done ⟨0, [headerRead pd]⟩
      else readPayload count pd.dataSize.toNat (headerRead pd) (recvInto target room excess)) :
    WithinFrame count payload more
        ((recvInto .recvP packetDataSize packetDataSize >>= rest).exec
          (pd.bytes ++ payload ++ more)) ↔ payload.length ≤ count := by
  have reads : (recvInto .recvP packetDataSize packetDataSize >>= rest).exec
      (pd.bytes ++ (payload ++ more)) =
      (rest (packetDataSize, headerRead pd)).exec (payload ++ more) :=
    recvInto_exec pd.length_bytes (by decide) (by decide) rest
  have apart : (headerRead pd).target ≠ .buf := by simp [headerRead]
  rw [List.append_assoc, reads, handles]
  by_cases empty : payload = []
  · subst empty
    have zero : pd.dataSize = 0 := UInt32.toNat_inj.mp length.symm
    rw [if_pos zero]
    exact iff_of_true (header_within le_rfl apart) (Nat.zero_le _)
  · have some_ : pd.dataSize ≠ 0 := by
      intro zero
      rw [zero] at length
      exact empty (List.length_eq_zero_iff.mp length)
    rw [if_neg some_, ← length]
    exact readPayload_within empty small le_rfl apart excess

end Frames

/-- The calls that read a response stay within the buffer of their caller and within the frame when
the payload fits the buffer, and only then. -/
theorem client_reads_iff (r : Region) (count : Nat) (region : UInt8) (recvAt : UInt32)
    {payload : List UInt8} (small : payload.length < 2 ^ 31) (more : List UInt8) :
    (WithinFrame count payload more ((clipboardPaste r.val count).exec
        (responseFrame .responsePaste region recvAt payload ++ more)) ↔ payload.length ≤ count) ∧
    (WithinFrame count payload more ((clipboardWait r.val count).exec
        (responseFrame .responseNotify region recvAt payload ++ more)) ↔
      payload.length ≤ count) := by
  have length : payload.length = (UInt32.ofNat payload.length).toNat := by
    rw [UInt32.toNat_ofNat']
    omega
  constructor
  · rw [clipboardPaste, if_neg (inRange r)]
    simp only [Proc.send_bind, Proc.done_bind]
    rw [withinFrame_send, responseFrame]
    refine response_within .trash ((UInt32.ofNat payload.length).toNat - count)
      (if (UInt32.ofNat payload.length).toNat > count then count
        else if (UInt32.ofNat payload.length).toNat < 1 then 1 else 0) length small ?_
    simp only [headerRead, PacketData.ofBytes_bytes, ne_eq, not_true_eq_false, if_false]
    rfl
  · have request : sendData
        (PacketFetch.bytes ⟨PacketType.requestWait.code, .ofNat (r.val : Int).toNat, .ofNat count⟩)
        packetFetchSize = .send (PacketFetch.bytes ⟨PacketType.requestWait.code,
          .ofNat (r.val : Int).toNat, .ofNat count⟩) (.done packetFetchSize) :=
      sendData_eq (List.cons_ne_nil _ _) (by rw [PacketFetch.length_bytes]; decide)
    have sent : ¬ (packetFetchSize : Int) = -1 := by decide
    rw [clipboardWait, if_neg (inRange r)]
    simp only [request, Proc.send_bind, Proc.done_bind, if_neg sent]
    rw [withinFrame_send, responseFrame]
    refine response_within .trashPointer pointerSize
      ((UInt32.ofNat payload.length).toNat - count) length small ?_
    simp only [headerRead, PacketData.ofBytes_bytes, ne_eq, not_true_eq_false, if_false]
    rfl

theorem client_reads_fitting : [97, 98].length < 2 ^ 31 ∧
    WithinFrame 2 [97, 98] [193] ((clipboardPaste (firstRegion.val : Int) 2).exec
      (responseFrame .responsePaste 0 7 [97, 98] ++ [193])) := by
  have small : [97, 98].length < 2 ^ 31 := by decide
  exact ⟨small, (client_reads_iff firstRegion 2 0 7 small [193]).1.mpr (by decide)⟩

/-- A response of two bytes, read into a buffer of one. -/
theorem client_reads_oversize :
    ¬ WithinFrame 1 [97, 98] [0, 0, 0] ((clipboardPaste (firstRegion.val : Int) 1).exec
      (responseFrame .responsePaste 0 7 [97, 98] ++ [0, 0, 0])) := by
  have run : (clipboardPaste (firstRegion.val : Int) 1).exec
      (responseFrame .responsePaste 0 7 [97, 98] ++ [0, 0, 0]) = some (⟨2,
        [headerRead ⟨PacketType.responsePaste.code, 0, 2, 7⟩, ⟨.buf, 1, [97, 98]⟩,
          ⟨.trash, 1, [0]⟩]⟩, [0, 0], [[0x81, 0, 1, 0, 0, 0]]) := by decide
  rw [run]
  rintro ⟨r, outs, ends, _, bounded⟩
  cases ends

end DistributedClipboard.Library.ClientReads
