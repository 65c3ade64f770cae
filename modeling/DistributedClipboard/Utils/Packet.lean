/- module: DistributedClipboard/Utils/Packet
   source: src/src/utils/packet.h, src/src/utils/packet.c
   layer: model
   digest: The packets and their bytes, and transfers of a given size. -/

import DistributedClipboard.Lib.Stream
import Mathlib.Algebra.Group.Int.Defs
import Mathlib.Algebra.Group.Nat.Defs
import Mathlib.Data.Nat.Basic

set_option autoImplicit false
set_option relaxedAutoImplicit false

namespace DistributedClipboard.Utils.Packet

open DistributedClipboard.Lib.Stream

/-- `sizeof(struct packet)` -/
def packetSize : Nat := 1

/-- `sizeof(struct packet_data)`, the payload not included. -/
def packetDataSize : Nat := 10

/-- `sizeof(struct packet_fetch)` -/
def packetFetchSize : Nat := 6

/-- `sizeof(struct packet_sync)` -/
def packetSyncSize : Nat := 5

def toInt (size : Nat) : Int :=
  if size % 2 ^ 32 < 2 ^ 31 then (size % 2 ^ 32 : Nat) else (size % 2 ^ 32 : Nat) - 2 ^ 32

def transferred (size : Nat) : Nat := (toInt size).toNat

theorem transferred_small {size : Nat} (small : size < 2 ^ 31) : transferred size = size := by
  have whole : size % 2 ^ 32 = size := Nat.mod_eq_of_lt (by omega)
  rw [transferred, toInt, whole, if_pos small, Int.toNat_natCast]

theorem transferred_lt (size : Nat) : transferred size < 2 ^ 31 := by
  unfold transferred toInt
  split
  · omega
  · omega

theorem transferred_eq_iff {size : Nat} : transferred size = size ↔ size < 2 ^ 31 := by
  constructor
  · intro same
    rw [← same]
    exact transferred_lt size
  · exact transferred_small

section Transfers

open Proc (Runs)

def sendData (buf : List UInt8) (size : Nat) : Proc UInt8 Int :=
  if 0 < toInt size then .send (buf.take (transferred size)) (.done (toInt size)) else .done 0

/-- `recvData`, when every transfer is whole: the value returned and the bytes read. -/
def recvData (size : Nat) : Proc UInt8 (Int × List UInt8) :=
  if 0 < toInt size then .recv (transferred size) fun bs => .done (toInt size, bs)
  else .done (0, [])

theorem toInt_small {size : Nat} (small : size < 2 ^ 31) : toInt size = size := by
  rw [toInt, Nat.mod_eq_of_lt (by omega), if_pos small]

theorem sendData_eq {buf : List UInt8} (filled : buf ≠ []) (small : buf.length < 2 ^ 31) :
    sendData buf buf.length = .send buf (.done buf.length) := by
  have positive : 0 < buf.length := List.length_pos_iff.mpr filled
  rw [sendData, toInt_small small, if_pos (by omega), transferred_small small, List.take_length]

theorem recvData_eq {size : Nat} (positive : 0 < size) (small : size < 2 ^ 31) :
    recvData size = .recv size fun bs => .done (size, bs) := by
  rw [recvData, toInt_small small, if_pos (by omega), transferred_small small]

theorem recvData_runs {bs : List UInt8} {size : Nat} (length : bs.length = size)
    (small : size < 2 ^ 31) : Runs (recvData size) bs [] (size, bs) := by
  rcases Nat.eq_zero_or_pos size with zero | positive
  · obtain rfl : bs = [] := List.length_eq_zero_iff.mp (length.trans zero)
    subst zero
    rw [recvData, toInt_small small, if_neg (by omega)]
    exact .done _
  · rw [recvData_eq positive small]
    have runs : Runs (.recv size fun bs => .done ((size : Int), bs)) (bs ++ []) [] (size, bs) :=
      .recv bs length (.done _)
    rwa [List.append_nil] at runs

theorem recvData_large {size : Nat} (large : 2 ^ 31 ≤ size) (fits : size < 2 ^ 32) :
    recvData size = .done (0, []) := by
  rw [recvData, toInt, Nat.mod_eq_of_lt fits, if_neg (Nat.not_lt.mpr large), if_neg (by omega)]

theorem sendData_large (buf : List UInt8) {size : Nat} (large : 2 ^ 31 ≤ size)
    (fits : size < 2 ^ 32) : sendData buf size = .done 0 := by
  rw [sendData, toInt, Nat.mod_eq_of_lt fits, if_neg (Nat.not_lt.mpr large), if_neg (by omega)]

end Transfers

/-- The size of a packet with `n` bytes of payload, as an `unsigned`. -/
def plusHeader (n : UInt32) : UInt32 := .ofNat packetDataSize + n

/-- The size of the packet has not wrapped. -/
def FitsHeader (n : UInt32) : Prop := packetDataSize + n.toNat < 2 ^ 32

instance : DecidablePred FitsHeader := fun _ => Nat.decLt _ _

section Header

variable {n : UInt32}

theorem plusHeader_fits (fits : FitsHeader n) : (plusHeader n).toNat = packetDataSize + n.toNat := by
  have ten : (UInt32.ofNat packetDataSize).toNat = 10 := rfl
  rw [FitsHeader, packetDataSize] at fits
  rw [plusHeader, UInt32.toNat_add, ten, packetDataSize]
  omega

theorem plusHeader_wraps (wraps : ¬ FitsHeader n) : (plusHeader n).toNat < packetDataSize := by
  have ten : (UInt32.ofNat packetDataSize).toNat = 10 := rfl
  have bound := n.toNat_lt
  rw [FitsHeader, packetDataSize] at wraps
  rw [plusHeader, UInt32.toNat_add, ten, packetDataSize]
  omega

theorem plusHeader_exact : (plusHeader n).toNat = packetDataSize + n.toNat ↔ FitsHeader n := by
  constructor
  · intro same
    by_contra wraps
    have less := plusHeader_wraps wraps
    omega
  · exact plusHeader_fits

end Header

/-- `packet_type` -/
inductive PacketType
  | timeSync
  | goodbye
  | requestPaste
  | requestCopy
  | requestWait
  | responseAck
  | responsePaste
  | responseNotify
  deriving DecidableEq, Repr

namespace PacketType

def code : PacketType → UInt8
  | timeSync => 0x01
  | goodbye => 0x02
  | requestPaste => 0x81
  | requestCopy => 0x82
  | requestWait => 0x83
  | responseAck => 0xC0
  | responsePaste => 0xC1
  | responseNotify => 0xC2

def ofCode (b : UInt8) : Option PacketType :=
  [timeSync, goodbye, requestPaste, requestCopy, requestWait, responseAck, responsePaste,
    responseNotify].find? fun t => t.code = b

@[simp] theorem ofCode_code (t : PacketType) : ofCode t.code = some t := by
  cases t <;> decide

theorem code_of_ofCode {b : UInt8} {t : PacketType} (h : ofCode b = some t) : b = t.code := by
  have found := List.find?_some h
  exact (of_decide_eq_true found).symm

end PacketType

/-- The four bytes of a `uint32_t` in memory. -/
def uint32Bytes (n : UInt32) : List UInt8 :=
  [.ofNat n.toNat, .ofNat (n.toNat / 2 ^ 8), .ofNat (n.toNat / 2 ^ 16), .ofNat (n.toNat / 2 ^ 24)]

def uint32Of (bs : List UInt8) : UInt32 :=
  .ofNat (bs.foldr (fun b n => b.toNat + 2 ^ 8 * n) 0)

@[simp] theorem uint32Of_uint32Bytes (n : UInt32) : uint32Of (uint32Bytes n) = n := by
  have bound := n.toNat_lt
  have digits : n.toNat % 2 ^ 8 + 2 ^ 8 * (n.toNat / 2 ^ 8 % 2 ^ 8 + 2 ^ 8 *
      (n.toNat / 2 ^ 16 % 2 ^ 8 + 2 ^ 8 * (n.toNat / 2 ^ 24 % 2 ^ 8))) = n.toNat := by
    omega
  simp only [uint32Of, uint32Bytes, List.foldr_cons, List.foldr_nil, UInt8.toNat_ofNat', Nat.mul_zero,
    Nat.add_zero]
  rw [digits, UInt32.ofNat_toNat]

/-- `struct packet_fetch` -/
structure PacketFetch where
  packetType : UInt8
  region : UInt8
  dataSize : UInt32
  deriving DecidableEq, Repr

namespace PacketFetch

def bytes (p : PacketFetch) : List UInt8 := p.packetType :: p.region :: uint32Bytes p.dataSize

def ofBytes (bs : List UInt8) : PacketFetch :=
  ⟨bs.getD 0 0, bs.getD 1 0, uint32Of ((bs.drop 2).take 4)⟩

@[simp] theorem ofBytes_bytes (p : PacketFetch) : ofBytes p.bytes = p := by
  obtain ⟨type, region, size⟩ := p
  have round : uint32Of ((uint32Bytes size).take 4) = size := uint32Of_uint32Bytes size
  simp [ofBytes, bytes, round]

@[simp] theorem length_bytes (p : PacketFetch) : p.bytes.length = packetFetchSize := rfl

end PacketFetch

/-- `struct packet_data` without its payload. -/
structure PacketData where
  packetType : UInt8
  region : UInt8
  dataSize : UInt32
  recvAt : UInt32
  deriving DecidableEq, Repr

namespace PacketData

def bytes (p : PacketData) : List UInt8 :=
  p.packetType :: p.region :: uint32Bytes p.dataSize ++ uint32Bytes p.recvAt

def ofBytes (bs : List UInt8) : PacketData :=
  ⟨bs.getD 0 0, bs.getD 1 0, uint32Of ((bs.drop 2).take 4), uint32Of ((bs.drop 6).take 4)⟩

@[simp] theorem ofBytes_bytes (p : PacketData) : ofBytes p.bytes = p := by
  obtain ⟨type, region, size, time⟩ := p
  have size_ : uint32Of ((uint32Bytes size ++ uint32Bytes time).take 4) = size :=
    uint32Of_uint32Bytes size
  have time_ : uint32Of (((uint32Bytes size ++ uint32Bytes time).drop 4).take 4) = time :=
    uint32Of_uint32Bytes time
  simp [ofBytes, bytes, size_, time_]

@[simp] theorem length_bytes (p : PacketData) : p.bytes.length = packetDataSize := rfl

end PacketData

/-- `struct packet_sync` -/
structure PacketSync where
  packetType : UInt8
  time : UInt32
  deriving DecidableEq, Repr

namespace PacketSync

def bytes (p : PacketSync) : List UInt8 := p.packetType :: uint32Bytes p.time

def ofBytes (bs : List UInt8) : PacketSync := ⟨bs.getD 0 0, uint32Of ((bs.drop 1).take 4)⟩

@[simp] theorem ofBytes_bytes (p : PacketSync) : ofBytes p.bytes = p := by
  obtain ⟨type, time⟩ := p
  have round : uint32Of ((uint32Bytes time).take 4) = time := uint32Of_uint32Bytes time
  simp [ofBytes, bytes, round]

@[simp] theorem length_bytes (p : PacketSync) : p.bytes.length = packetSyncSize := rfl

end PacketSync

end DistributedClipboard.Utils.Packet
