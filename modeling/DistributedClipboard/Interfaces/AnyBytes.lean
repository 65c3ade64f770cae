/- module: DistributedClipboard/Interfaces/AnyBytes
   source: src/src/interfaces/appif.c, src/src/interfaces/clipif.c
   layer: theorem
   digest: What the slaves do with any bytes at all: they act on whole packets, and on nothing else. -/

import DistributedClipboard.Interfaces.AppSlave
import DistributedClipboard.Interfaces.ClipBuffers
import DistributedClipboard.Lib.Turns

set_option autoImplicit false
set_option relaxedAutoImplicit false

namespace DistributedClipboard.Interfaces.AnyBytes

open DistributedClipboard.Common
open DistributedClipboard.Lib.Stream
open DistributedClipboard.Lib.Turns
open DistributedClipboard.Mem.Clmem
open DistributedClipboard.Utils.Packet

/-- What a slave takes from its connection in one turn. -/
inductive Piece
  | sync (ps : PacketSync)
  | fetch (pf : PacketFetch)
  | copy (pd : PacketData) (data : List UInt8)
  /-- The packet of a copy whose payload is not received. -/
  | header (pd : PacketData)
  | byte (type : UInt8)
  deriving DecidableEq, Repr

def Piece.bytes : Piece → List UInt8
  | sync ps => ps.bytes
  | fetch pf => pf.bytes
  | copy pd data => pd.bytes ++ data
  | header pd => pd.bytes
  | byte type => [type]

def Piece.type : Piece → UInt8
  | sync ps => ps.packetType
  | fetch pf => pf.packetType
  | copy pd _ | header pd => pd.packetType
  | byte type => type

section Bytes

theorem uint32Bytes_uint32Of {bs : List UInt8} (four : bs.length = 4) :
    uint32Bytes (uint32Of bs) = bs := by
  match bs, four with
  | [a, b, c, d], _ =>
    have ha := a.toNat_lt
    have hb := b.toNat_lt
    have hc := c.toNat_lt
    have hd := d.toNat_lt
    have value : (uint32Of [a, b, c, d]).toNat =
        a.toNat + 2 ^ 8 * (b.toNat + 2 ^ 8 * (c.toNat + 2 ^ 8 * d.toNat)) := by
      simp only [uint32Of, List.foldr_cons, List.foldr_nil, UInt32.toNat_ofNat', Nat.mul_zero,
        Nat.add_zero]
      exact Nat.mod_eq_of_lt (by omega)
    have byte (n : Nat) (x : UInt8) (same : n % 2 ^ 8 = x.toNat) : UInt8.ofNat n = x := by
      apply UInt8.toNat_inj.mp
      rw [UInt8.toNat_ofNat']
      exact same
    rw [uint32Bytes, value, byte _ a (by omega), byte _ b (by omega), byte _ c (by omega),
      byte _ d (by omega)]

theorem PacketFetch.bytes_ofBytes {bs : List UInt8} (length : bs.length = packetFetchSize) :
    (PacketFetch.ofBytes bs).bytes = bs := by
  match bs, length with
  | type :: region :: [a, b, c, d], _ =>
    have size : uint32Bytes (uint32Of [a, b, c, d]) = [a, b, c, d] := uint32Bytes_uint32Of rfl
    simp only [PacketFetch.bytes, PacketFetch.ofBytes]
    exact congrArg (type :: region :: ·) size

theorem PacketSync.bytes_ofBytes {bs : List UInt8} (length : bs.length = packetSyncSize) :
    (PacketSync.ofBytes bs).bytes = bs := by
  match bs, length with
  | type :: [a, b, c, d], _ =>
    have time : uint32Bytes (uint32Of [a, b, c, d]) = [a, b, c, d] := uint32Bytes_uint32Of rfl
    simp only [PacketSync.bytes, PacketSync.ofBytes]
    exact congrArg (type :: ·) time

theorem PacketData.bytes_ofBytes {bs : List UInt8} (length : bs.length = packetDataSize) :
    (PacketData.ofBytes bs).bytes = bs := by
  match bs, length with
  | type :: region :: [a, b, c, d, a', b', c', d'], _ =>
    have size : uint32Bytes (uint32Of [a, b, c, d]) = [a, b, c, d] := uint32Bytes_uint32Of rfl
    have time : uint32Bytes (uint32Of [a', b', c', d']) = [a', b', c', d'] :=
      uint32Bytes_uint32Of rfl
    simp only [PacketData.bytes, PacketData.ofBytes]
    exact congrArg₂ (type :: region :: · ++ ·) size time

end Bytes

section Receive

variable {α : Type} {size : Nat} {ins rest : List UInt8} {outs : List (List UInt8)}

theorem recvData_exec (size : Nat) (ins : List UInt8) : (recvData size).exec ins =
    if 0 < toInt size then
      if transferred size ≤ ins.length then
        some ((toInt size, ins.take (transferred size)), ins.drop (transferred size), [])
      else none
    else some ((0, []), ins, []) := by
  unfold recvData
  split
  · rfl
  · rfl

theorem exec_recvData {f : Int × List UInt8 → Proc UInt8 α} {a : α} (positive : 0 < size)
    (small : size < 2 ^ 31) (run : (recvData size >>= f).exec ins = some (a, rest, outs)) :
    ∃ bs more, ins = bs ++ more ∧ bs.length = size ∧
      (f (size, bs)).exec more = some (a, rest, outs) := by
  obtain ⟨x, left, _, _, reads, goes, rfl⟩ := Proc.exec_bind_eq_some run
  rw [recvData_exec, toInt_small small, transferred_small small, if_pos (by omega)] at reads
  by_cases enough : size ≤ ins.length
  · rw [if_pos enough] at reads
    cases reads
    exact ⟨ins.take size, ins.drop size, (List.take_append_drop size ins).symm,
      List.length_take_of_le enough, goes⟩
  · rw [if_neg enough] at reads
    cases reads

theorem exec_payload {f : Int × List UInt8 → Proc UInt8 α} {a : α} (n : UInt32)
    (run : (recvData n.toNat >>= f).exec ins = some (a, rest, outs)) :
    (n.toNat < 2 ^ 31 ∧ ∃ data more, ins = data ++ more ∧ data.length = n.toNat ∧
      (f (n.toNat, data)).exec more = some (a, rest, outs)) ∨
    2 ^ 31 ≤ n.toNat ∧ (f (0, [])).exec ins = some (a, rest, outs) := by
  have fits : n.toNat < 2 ^ 32 := n.toNat_lt
  rcases Nat.lt_or_ge n.toNat (2 ^ 31) with small | large
  · refine .inl ⟨small, ?_⟩
    rcases Nat.eq_zero_or_pos n.toNat with zero | positive
    · rw [zero, recvData, if_neg (by decide)] at run
      exact ⟨[], ins, rfl, zero.symm, by rw [zero]; exact run⟩
    · exact exec_recvData positive small run
  · rw [recvData_large large fits] at run
    exact .inr ⟨large, run⟩

end Receive

section App

open AppSlave

def Piece.ForApp : Piece → Prop
  | sync _ => False
  | fetch pf => PacketType.ofCode pf.packetType = some .requestPaste ∨
      PacketType.ofCode pf.packetType = some .requestWait
  | copy pd data => PacketType.ofCode pd.packetType = some .requestCopy ∧
      data.length = pd.dataSize.toNat ∧ data.length < 2 ^ 31
  | header pd => PacketType.ofCode pd.packetType = some .requestCopy ∧ 2 ^ 31 ≤ pd.dataSize.toNat
  | byte type => PacketType.ofCode type ≠ some .requestPaste ∧
      PacketType.ofCode type ≠ some .requestWait ∧ PacketType.ofCode type ≠ some .requestCopy

/-- The packet that the slave makes for a request has room for its header: what the request asks for
with the header is still a 32-bit number. -/
def Piece.Fits : Piece → Prop
  | fetch pf => FitsHeader pf.dataSize
  | copy pd _ | header pd => FitsHeader pd.dataSize
  | sync _ | byte _ => True

/-- So many pieces from the front of an application's bytes. -/
def AppCut (n : Nat) (pieces : List Piece) (ins rest : List UInt8) : Prop :=
  pieces.length = n ∧ (∀ p ∈ pieces, p.ForApp) ∧ ins = stream Piece.bytes pieces rest

/-- The memory, the packets handed to `clipif_add_broadcast` and the readings of the clock. -/
structure Contents where
  mem : Memory
  queued : List (PacketData × List UInt8)
  readings : Nat

def contents (s : SlaveState) : Contents := ⟨s.mem, s.queued, s.readings⟩

variable (clock : Nat → UInt32)

/-- What a piece does to them. -/
def Piece.act (c : Contents) : Piece → Contents
  | copy pd data =>
    let now := clock c.readings
    let placed := memPut c.mem pd.region.toNat data now.toNat
    ⟨placed.2, if placed.1 = 0 then c.queued else c.queued ++ [({ pd with recvAt := now }, data)],
      c.readings + 1⟩
  | fetch _ => { c with readings := c.readings + 1 }
  | _ => c

variable {clock} {s t u : SlaveState} {ins more rest : List UInt8} {outs : List (List UInt8)}
  {response : Option Response} {type : UInt8}

theorem respond_exec (run : (respond s response).exec ins = some (t, rest, outs)) :
    ins = rest ∧ contents t = contents s := by
  cases response with
  | none =>
    cases run
    exact ⟨rfl, rfl⟩
  | some r =>
    rw [respond, minMacroM, sendData] at run
    split at run
    · simp only [Proc.send_bind, Proc.done_bind, Proc.pure_eq] at run
      split at run <;> cases run <;> exact ⟨rfl, rfl⟩
    · simp only [Proc.done_bind, Proc.pure_eq] at run
      split at run <;> cases run <;> exact ⟨rfl, rfl⟩

theorem fetch_of_bytes {bs : List UInt8} (length : bs.length = packetFetchSize - packetSize) :
    (PacketFetch.ofBytes ([type] ++ bs)).bytes = type :: bs :=
  PacketFetch.bytes_ofBytes (by rw [List.length_append, length]; rfl)

theorem data_of_bytes {bs : List UInt8} (length : bs.length = packetDataSize - packetSize) :
    (PacketData.ofBytes ([type] ++ bs)).bytes = type :: bs :=
  PacketData.bytes_ofBytes (by rw [List.length_append, length]; rfl)

theorem pasteRequest_exec
    (run : (pasteRequest clock s [type]).exec more = some ((u, response), rest, outs)) :
    ∃ pf : PacketFetch, pf.packetType = type ∧ type :: more = pf.bytes ++ rest ∧
      contents u = (Piece.fetch pf).act clock (contents s) := by
  obtain ⟨bs, left, rfl, length, run⟩ := exec_recvData (by decide) (by decide) run
  simp only [ne_eq, not_true_eq_false, if_false] at run
  have whole : (PacketFetch.ofBytes ([type] ++ bs)).bytes = type :: bs := fetch_of_bytes length
  generalize packet : PacketFetch.ofBytes ([type] ++ bs) = pf at run whole
  cases found : memGet s.mem pf.region.toNat pf.dataSize.toNat with
  | none =>
    rw [found] at run
    cases run
  | some data =>
    rw [found] at run
    cases run
    refine ⟨pf, ?_, ?_, rfl⟩
    · exact (List.cons.inj whole).1
    · rw [whole]
      rfl

theorem waitRequest_exec
    (run : (waitRequest clock s [type]).exec more = some ((u, response), rest, outs)) :
    ∃ pf : PacketFetch, pf.packetType = type ∧ type :: more = pf.bytes ++ rest ∧
      contents u = (Piece.fetch pf).act clock (contents s) := by
  obtain ⟨bs, left, rfl, length, run⟩ := exec_recvData (by decide) (by decide) run
  simp only [ne_eq, not_true_eq_false, if_false] at run
  have whole : (PacketFetch.ofBytes ([type] ++ bs)).bytes = type :: bs := fetch_of_bytes length
  generalize packet : PacketFetch.ofBytes ([type] ++ bs) = pf at run whole
  rw [memWait] at run
  cases region : regionOf (pf.region.toNat : Int) with
  | some r =>
    rw [region] at run
    cases run
  | none =>
    rw [region] at run
    cases run
    refine ⟨pf, ?_, ?_, rfl⟩
    · exact (List.cons.inj whole).1
    · rw [whole]
      rfl

theorem copyRequest_exec (code : PacketType.ofCode type = some .requestCopy)
    (run : (copyRequest clock s [type]).exec more = some ((u, response), rest, outs)) :
    ∃ piece : Piece, piece.ForApp ∧ type :: more = piece.bytes ++ rest ∧
      contents u = piece.act clock (contents s) := by
  obtain ⟨bs, left, rfl, length, run⟩ := exec_recvData (by decide) (by decide) run
  simp only [ne_eq, not_true_eq_false, if_false] at run
  have whole : (PacketData.ofBytes ([type] ++ bs)).bytes = type :: bs := data_of_bytes length
  generalize packet : PacketData.ofBytes ([type] ++ bs) = pd at run whole
  have same : pd.packetType = type := (List.cons.inj whole).1
  rcases exec_payload pd.dataSize run with ⟨small, data, left, rfl, size, run⟩ | ⟨large, run⟩
  · simp only [not_true_eq_false, if_false] at run
    cases run
    refine ⟨.copy pd data, ⟨same ▸ code, size, size ▸ small⟩, ?_, rfl⟩
    rw [Piece.bytes, whole]
    simp
  · have cut : (0 : Int) ≠ pd.dataSize.toNat := by omega
    simp only [cut, not_false_eq_true, if_true] at run
    cases run
    refine ⟨.header pd, ⟨same ▸ code, large⟩, ?_, rfl⟩
    rw [Piece.bytes, whole]
    rfl

theorem request_exec
    (run : (request clock s [type]).exec more = some ((u, response), rest, outs)) :
    ∃ piece : Piece, piece.ForApp ∧ type :: more = piece.bytes ++ rest ∧
      contents u = piece.act clock (contents s) := by
  unfold request at run
  rw [List.getD_cons_zero] at run
  split at run
  case h_1 code =>
    obtain ⟨pf, same, split, acts⟩ := pasteRequest_exec run
    exact ⟨.fetch pf, .inl (same ▸ code), split, acts⟩
  case h_2 code =>
    obtain ⟨pf, same, split, acts⟩ := waitRequest_exec run
    exact ⟨.fetch pf, .inr (same ▸ code), split, acts⟩
  case h_3 code => exact copyRequest_exec code run
  case h_4 code =>
    cases run
    exact ⟨.byte type, by simp [Piece.ForApp, code], rfl, rfl⟩
  case h_5 paste wait copy _ =>
    cases run
    exact ⟨.byte type, ⟨paste, wait, copy⟩, rfl, rfl⟩

theorem appifSlave_takes (run : (appifSlave clock s).exec ins = some (some t, rest, outs)) :
    ∃ piece : Piece, piece.ForApp ∧ ins = piece.bytes ++ rest ∧
      contents t = piece.act clock (contents s) := by
  unfold appifSlave at run
  split at run
  case isTrue => cases run
  case isFalse alive =>
    obtain ⟨bs, more, rfl, one, run⟩ := exec_recvData (by decide) (by decide) run
    obtain ⟨type, rfl⟩ := List.length_eq_one_iff.mp one
    simp only [ne_eq, not_true_eq_false, if_false] at run
    obtain ⟨⟨u, response⟩, left, _, _, handles, run, _⟩ := Proc.exec_bind_eq_some run
    obtain ⟨t', left', _, _, responds, ends, _⟩ := Proc.exec_bind_eq_some run
    cases ends
    obtain ⟨rfl, kept⟩ := respond_exec responds
    obtain ⟨piece, good, split, acts⟩ := request_exec handles
    exact ⟨piece, good, split, kept.trans acts⟩

theorem type_eq {p q : Piece} {x y : List UInt8} (same : p.bytes ++ x = q.bytes ++ y) :
    p.type = q.type := by
  have head (p : Piece) (x : List UInt8) : (p.bytes ++ x).head? = some p.type := by
    cases p <;> rfl
  have first := congrArg List.head? same
  rw [head, head] at first
  exact Option.some.inj first

theorem fetch_eq {pf pf' : PacketFetch} {x y : List UInt8} (same : pf.bytes ++ x = pf'.bytes ++ y) :
    pf = pf' := by
  obtain ⟨bytes, _⟩ := List.append_inj same (pf.length_bytes.trans pf'.length_bytes.symm)
  rw [← pf.ofBytes_bytes, bytes, pf'.ofBytes_bytes]

theorem data_eq {pd pd' : PacketData} {x y : List UInt8} (same : pd.bytes ++ x = pd'.bytes ++ y) :
    pd = pd' ∧ x = y := by
  obtain ⟨bytes, rest⟩ := List.append_inj same (pd.length_bytes.trans pd'.length_bytes.symm)
  rw [← pd.ofBytes_bytes, bytes, pd'.ofBytes_bytes]
  exact ⟨rfl, rest⟩

section Types

variable {p : Piece} (h : p.ForApp)

include h

theorem ForApp.fetch_of_type (type : PacketType.ofCode p.type = some .requestPaste ∨
    PacketType.ofCode p.type = some .requestWait) : ∃ pf, p = .fetch pf := by
  cases p with
  | sync ps => exact absurd h id
  | fetch pf => exact ⟨pf, rfl⟩
  | copy pd data => simp [Piece.type, h.1] at type
  | header pd => simp [Piece.type, h.1] at type
  | byte b =>
    rcases type with paste | wait
    · exact absurd paste h.1
    · exact absurd wait h.2.1

theorem ForApp.copy_of_type (type : PacketType.ofCode p.type = some .requestCopy) :
    (∃ pd data, p = .copy pd data ∧ data.length = pd.dataSize.toNat ∧ data.length < 2 ^ 31) ∨
      ∃ pd, p = .header pd ∧ 2 ^ 31 ≤ pd.dataSize.toNat := by
  cases p with
  | sync ps => exact absurd h id
  | fetch pf =>
    rcases h with paste | wait
    · cases paste.symm.trans type
    · cases wait.symm.trans type
  | copy pd data => exact .inl ⟨pd, data, rfl, h.2.1, h.2.2⟩
  | header pd => exact .inr ⟨pd, rfl, h.2⟩
  | byte b => exact absurd type h.2.2

theorem ForApp.byte_of_type (paste : PacketType.ofCode p.type ≠ some .requestPaste)
    (wait : PacketType.ofCode p.type ≠ some .requestWait)
    (copy : PacketType.ofCode p.type ≠ some .requestCopy) : p = .byte p.type := by
  cases p with
  | sync ps => exact absurd h id
  | fetch pf =>
    rcases h with h | h
    · exact absurd h paste
    · exact absurd h wait
  | copy pd data => exact absurd h.1 copy
  | header pd => exact absurd h.1 copy
  | byte b => rfl

end Types

theorem ForApp.apart {p q : Piece} {x y : List UInt8} (hp : p.ForApp) (hq : q.ForApp)
    (same : p.bytes ++ x = q.bytes ++ y) : p = q := by
  have type := type_eq same
  cases p with
  | sync ps => exact absurd hp id
  | fetch pf =>
    obtain ⟨pf', rfl⟩ := ForApp.fetch_of_type hq (type ▸ hp)
    rw [fetch_eq same]
  | copy pd data =>
    rcases ForApp.copy_of_type hq (type ▸ hp.1) with
      ⟨pd', data', rfl, size, _⟩ | ⟨pd', rfl, large⟩
    · rw [Piece.bytes, Piece.bytes, List.append_assoc, List.append_assoc] at same
      obtain ⟨rfl, payload⟩ := data_eq same
      rw [(List.append_inj payload (hp.2.1.trans size.symm)).1]
    · rw [Piece.bytes, Piece.bytes, List.append_assoc] at same
      obtain ⟨rfl, _⟩ := data_eq same
      have short := hp.2.1
      have small := hp.2.2
      omega
  | header pd =>
    rcases ForApp.copy_of_type hq (type ▸ hp.1) with
      ⟨pd', data', rfl, size, small⟩ | ⟨pd', rfl, _⟩
    · rw [Piece.bytes, Piece.bytes, List.append_assoc] at same
      obtain ⟨rfl, _⟩ := data_eq same
      have large := hp.2
      omega
    · rw [(data_eq same).1]
  | byte b =>
    rw [ForApp.byte_of_type hq (type ▸ hp.1) (type ▸ hp.2.1) (type ▸ hp.2.2), ← type]
    rfl

theorem AppCut.unique {n : Nat} {pieces pieces' : List Piece} {rest' : List UInt8}
    (cut : AppCut n pieces ins rest) (cut' : AppCut n pieces' ins rest') : pieces' = pieces := by
  obtain ⟨length, good, rfl⟩ := cut
  obtain ⟨length', good', same⟩ := cut'
  let valid (_ : Unit) (p : Piece) : Prop := p.ForApp
  have all {fs : List Piece} (length : fs.length = n) (good : ∀ p : Piece, p ∈ fs → p.ForApp) :
      List.Forall₂ valid (List.replicate n ()) fs := by
    rw [forall₂_const_iff, List.length_replicate]
    exact ⟨length, good⟩
  exact stream_inj (fun _ _ _ _ _ hp hq same => ForApp.apart hp hq same) (all length' good')
    (all length good) same.symm

def noise : List UInt8 := [5] ++ (PacketData.bytes ⟨0x82, 0, 1, 0⟩ ++ [7]) ++ [0x82, 0]

end App

section Clip

open ClipSlave (World SlaveState Call Action syncClock_effect place_effect timeSync malloc)
open ClipBuffers

variable (w : World)

/-- The pieces a clipboard's bytes come in, where malloc grants a buffer or does not: the parent's
`TIME_SYNC` packets and copies that are whole, the packets of copies that get no buffer or are too long
to be received, and single bytes that begin none of them. -/
def Piece.ForClip (granted : Bool) : Piece → Prop
  | sync ps => PacketType.ofCode ps.packetType = some .timeSync ∧ w.withParent = true ∧
      granted = true
  | fetch _ => False
  | copy pd data => PacketType.ofCode pd.packetType = some .requestCopy ∧
      data.length = pd.dataSize.toNat ∧ data.length < 2 ^ 31 ∧ granted = true
  | header pd => PacketType.ofCode pd.packetType = some .requestCopy ∧
      (2 ^ 31 ≤ pd.dataSize.toNat ∨ granted = false)
  | byte type => PacketType.ofCode type ≠ some .requestCopy ∧
      ¬ (PacketType.ofCode type = some .timeSync ∧ w.withParent = true ∧ granted = true)

/-- What a piece tells the node to do. -/
def Piece.actions : Piece → List Action
  | sync ps => [.sync (ps.time + w.parentDelay)]
  | copy pd data => [.put pd.region data pd.dataSize.toNat pd.recvAt]
  | _ => []

variable {w} {s t u : SlaveState} {ins more rest : List UInt8} {outs : List (List UInt8)}
  {type : UInt8}

theorem acted_call {s : SlaveState} {c : Call} (quiet : c.action? = none) :
    (s.call c).acted = s.acted := by
  rw [SlaveState.call_acted, List.filterMap_cons, quiet]
  exact List.append_nil _

theorem timeSync_exec (code : PacketType.ofCode type = some .timeSync)
    (run : (timeSync w recvData s).exec more = some (u, rest, outs)) :
    ∃ piece : Piece, piece.ForClip w (w.malloc s.log) ∧ type :: more = piece.bytes ++ rest ∧
      u.acted = s.acted ++ piece.actions w := by
  rw [timeSync] at run
  split at run
  case isTrue child =>
    cases run
    exact ⟨.byte type, ⟨by simp [code], by simpa using fun _ parent => by simp [parent] at child⟩,
      rfl, (List.append_nil _).symm⟩
  case isFalse parent =>
    have parent : w.withParent = true := by simpa using parent
    cases granted : w.malloc s.log with
    | false =>
      simp only [malloc, granted, Bool.false_eq_true, if_false] at run
      cases run
      refine ⟨.byte type, ⟨by simp [code], by simp⟩, rfl, ?_⟩
      exact (acted_call rfl).trans (List.append_nil _).symm
    | true =>
      simp only [malloc, granted, if_true] at run
      obtain ⟨bs, left, rfl, length, run⟩ := exec_recvData (by decide) (by decide) run
      simp only [ne_eq, not_true_eq_false, if_false] at run
      cases run
      have whole : (PacketSync.ofBytes (0 :: bs)).bytes = 0 :: bs := by
        apply PacketSync.bytes_ofBytes
        rw [List.length_cons, length]
        rfl
      have time : uint32Bytes (PacketSync.ofBytes (0 :: bs)).time = bs := (List.cons.inj whole).2
      refine ⟨.sync ⟨type, (PacketSync.ofBytes (0 :: bs)).time⟩, ⟨code, parent, rfl⟩, ?_, ?_⟩
      · rw [Piece.bytes, PacketSync.bytes, time]
        rfl
      · rw [(syncClock_effect _ _ _).2]
        exact congrArg (· ++ _) (acted_call rfl)

theorem requestCopy_exec (code : PacketType.ofCode type = some .requestCopy)
    (run : (requestCopy w s [type]).exec more = some (u, rest, outs)) :
    ∃ piece : Piece, piece.ForClip w (w.malloc s.log) ∧ type :: more = piece.bytes ++ rest ∧
      u.acted = s.acted ++ piece.actions w := by
  obtain ⟨bs, left, rfl, length, run⟩ := exec_recvData (by decide) (by decide) run
  simp only [ne_eq, not_true_eq_false, if_false] at run
  have whole : (PacketData.ofBytes ([type] ++ bs)).bytes = type :: bs := data_of_bytes length
  generalize packet : PacketData.ofBytes ([type] ++ bs) = pd at run whole
  have copies : PacketType.ofCode pd.packetType = some .requestCopy :=
    (List.cons.inj whole).1 ▸ code
  have head (left : List UInt8) : type :: (bs ++ left) = pd.bytes ++ left := by
    rw [whole]
    rfl
  rw [copyPacket] at run
  cases granted : w.malloc s.log with
  | false =>
    simp only [malloc, granted, Bool.false_eq_true, if_false] at run
    cases run
    refine ⟨.header pd, ⟨copies, .inr rfl⟩, head _, ?_⟩
    exact (acted_call rfl).trans (List.append_nil _).symm
  | true =>
    simp only [malloc, granted, if_true] at run
    split at run
    case isTrue => cases run
    case isFalse =>
      rcases exec_payload pd.dataSize run with
        ⟨small, data, left, rfl, size, run⟩ | ⟨large, run⟩
      · rw [if_neg (by simp)] at run
        cases run
        refine ⟨.copy pd data, ⟨copies, size, size ▸ small, rfl⟩, ?_, ?_⟩
        · rw [Piece.bytes, head, List.append_assoc]
        · rw [(place_effect _ _ _ _).2]
          exact congrArg (· ++ _) (acted_call rfl)
      · have cut : (0 : Int) ≠ pd.dataSize.toNat := by omega
        rw [if_pos cut] at run
        cases run
        refine ⟨.header pd, ⟨copies, .inl large⟩, head _, ?_⟩
        rw [acted_call rfl]
        exact (acted_call rfl).trans (List.append_nil _).symm

theorem packetCase_exec
    (run : (packetCase w s [type]).exec more = some (u, rest, outs)) :
    ∃ piece : Piece, piece.ForClip w (w.malloc s.log) ∧ type :: more = piece.bytes ++ rest ∧
      u.acted = s.acted ++ piece.actions w := by
  unfold packetCase at run
  rw [List.getD_cons_zero] at run
  split at run
  case h_1 code => exact timeSync_exec code run
  case h_2 code => exact requestCopy_exec code run
  case h_3 code =>
    cases run
    exact ⟨.byte type, ⟨by simp [code], by simp [code]⟩, rfl, (List.append_nil _).symm⟩
  case h_4 sync copy _ =>
    cases run
    exact ⟨.byte type, ⟨copy, fun parents => sync parents.1⟩, rfl, (List.append_nil _).symm⟩

theorem slave_takes (run : (clipifSlave w s).exec ins = some (some t, rest, outs)) :
    ∃ piece : Piece, piece.ForClip w (w.malloc s.log) ∧ ins = piece.bytes ++ rest ∧
      t.acted = s.acted ++ piece.actions w := by
  unfold clipifSlave at run
  split at run
  case isTrue => cases run
  case isFalse alive =>
    obtain ⟨bs, more, rfl, one, run⟩ := exec_recvData (by decide) (by decide) run
    obtain ⟨type, rfl⟩ := List.length_eq_one_iff.mp one
    simp only [ne_eq, not_true_eq_false, if_false] at run
    obtain ⟨u, left, _, _, handles, ends, _⟩ := Proc.exec_bind_eq_some run
    cases ends
    obtain ⟨piece, good, split, acts⟩ := packetCase_exec handles
    exact ⟨piece, good, split, acts⟩

section Types

variable {granted : Bool} {p : Piece} (h : p.ForClip w granted)

include h

theorem ForClip.copy_of_type (type : PacketType.ofCode p.type = some .requestCopy) :
    (∃ pd data, p = .copy pd data ∧ data.length = pd.dataSize.toNat ∧ data.length < 2 ^ 31 ∧
      granted = true) ∨
      ∃ pd, p = .header pd ∧ (2 ^ 31 ≤ pd.dataSize.toNat ∨ granted = false) := by
  cases p with
  | sync ps => cases h.1.symm.trans type
  | fetch pf => exact absurd h id
  | copy pd data => exact .inl ⟨pd, data, rfl, h.2⟩
  | header pd => exact .inr ⟨pd, rfl, h.2⟩
  | byte b => exact absurd type h.1

theorem ForClip.sync_of_type (type : PacketType.ofCode p.type = some .timeSync)
    (parent : w.withParent = true) (yes : granted = true) : ∃ ps, p = .sync ps := by
  cases p with
  | sync ps => exact ⟨ps, rfl⟩
  | fetch pf => exact absurd h id
  | copy pd data => cases h.1.symm.trans type
  | header pd => cases h.1.symm.trans type
  | byte b => exact absurd ⟨type, parent, yes⟩ h.2

theorem ForClip.byte_of_type (copy : PacketType.ofCode p.type ≠ some .requestCopy)
    (sync : ¬ (PacketType.ofCode p.type = some .timeSync ∧ w.withParent = true ∧ granted = true)) :
    p = .byte p.type := by
  cases p with
  | sync ps => exact absurd h sync
  | fetch pf => exact absurd h id
  | copy pd data => exact absurd h.1 copy
  | header pd => exact absurd h.1 copy
  | byte b => rfl

end Types

theorem sync_eq {ps ps' : PacketSync} {x y : List UInt8} (same : ps.bytes ++ x = ps'.bytes ++ y) :
    ps = ps' := by
  obtain ⟨bytes, _⟩ := List.append_inj same (ps.length_bytes.trans ps'.length_bytes.symm)
  rw [← ps.ofBytes_bytes, bytes, ps'.ofBytes_bytes]

theorem ForClip.apart {granted : Bool} {p q : Piece} {x y : List UInt8} (hp : p.ForClip w granted)
    (hq : q.ForClip w granted) (same : p.bytes ++ x = q.bytes ++ y) : p = q := by
  have type := type_eq same
  cases p with
  | sync ps =>
    obtain ⟨ps', rfl⟩ := ForClip.sync_of_type hq (type ▸ hp.1) hp.2.1 hp.2.2
    rw [sync_eq same]
  | fetch pf => exact absurd hp id
  | copy pd data =>
    rcases ForClip.copy_of_type hq (type ▸ hp.1) with
      ⟨pd', data', rfl, size, _⟩ | ⟨pd', rfl, none_⟩
    · rw [Piece.bytes, Piece.bytes, List.append_assoc, List.append_assoc] at same
      obtain ⟨rfl, payload⟩ := data_eq same
      rw [(List.append_inj payload (hp.2.1.trans size.symm)).1]
    · rw [Piece.bytes, Piece.bytes, List.append_assoc] at same
      obtain ⟨rfl, _⟩ := data_eq same
      obtain ⟨_, short, small, yes⟩ := hp
      rcases none_ with large | no
      · omega
      · cases yes.symm.trans no
  | header pd =>
    rcases ForClip.copy_of_type hq (type ▸ hp.1) with
      ⟨pd', data', rfl, size, small, yes⟩ | ⟨pd', rfl, _⟩
    · rw [Piece.bytes, Piece.bytes, List.append_assoc] at same
      obtain ⟨rfl, _⟩ := data_eq same
      rcases hp.2 with large | no
      · omega
      · cases yes.symm.trans no
    · rw [(data_eq same).1]
  | byte b =>
    rw [ForClip.byte_of_type hq (type ▸ hp.1) (type ▸ hp.2), ← type]
    rfl

/-- Pieces from the front of a clipboard's bytes, where malloc gives one answer for each. -/
def ClipCut (w : World) (grants : List Bool) (pieces : List Piece) (ins rest : List UInt8) : Prop :=
  List.Forall₂ (Piece.ForClip w) grants pieces ∧ ins = stream Piece.bytes pieces rest

/-- What malloc answers in each of the turns of a slave that asks for a buffer. -/
def grants (w : World) : Nat → SlaveState → List UInt8 → List Bool :=
  seen (clipifSlave w) fun s => w.malloc s.log

/-- Whatever bytes come in on a connection with a clipboard, and whatever buffers its slave is
refused, all that the slave has done to the clock and to the memory after so many turns is what the
pieces say that it has taken, in the one way in which the bytes can be cut into pieces. -/
theorem clip_acts_on_pieces {n : Nat} (run : turns (clipifSlave w) n s ins = some (t, rest)) :
    ∃ pieces : List Piece, ClipCut w (grants w n s ins) pieces ins rest ∧ pieces.length = n ∧
      t.acted = s.acted ++ pieces.flatMap (Piece.actions w) ∧
      ∀ pieces' rest', ClipCut w (grants w n s ins) pieces' ins rest' → pieces' = pieces := by
  obtain ⟨pieces, good, split, acts⟩ : ∃ pieces : List Piece,
      List.Forall₂ (Piece.ForClip w) (seen (clipifSlave w) (fun s => w.malloc s.log) n s ins) pieces ∧
        ins = stream Piece.bytes pieces rest ∧
        t.acted = pieces.foldl (fun acted p => acted ++ p.actions w) s.acted :=
    frames_of_turns (fun _ _ _ _ _ turn => slave_takes turn) run
  refine ⟨pieces, ⟨good, split⟩, ?_, acts.trans ?_, fun pieces' rest' cut => ?_⟩
  · rw [← good.length_eq, length_seen run]
  · rw [List.foldl_append_eq_append, List.flatMap_def]
  · have apart (granted : Bool) (p q : Piece) (x y : List UInt8) (hp : p.ForClip w granted)
        (hq : q.ForClip w granted) (same : p.bytes ++ x = q.bytes ++ y) : p = q :=
      ForClip.apart hp hq same
    exact stream_inj apart cut.1 good (cut.2.symm.trans split)

/-- A child sends a `TIME_SYNC` that its parent does not expect, and what the parent takes for a copy
is its time and what follows. -/
def astray : List UInt8 := PacketSync.bytes ⟨0x01, 0x00010082⟩ ++ [0, 0, 9, 0, 0, 0] ++ [7]

def fromChild : World := ⟨false, 0, fun _ => true, fun _ => 0, fun _ => 1, fun _ => 0⟩

theorem clip_acts_on_pieces_astray : ∃ (t : SlaveState) (pieces : List Piece),
    turns (clipifSlave fromChild) 2 .start astray = some (t, []) ∧ t.acted = [.put 0 [7] 1 9] ∧
    astray = stream Piece.bytes pieces [] ∧ t.acted = pieces.flatMap (Piece.actions fromChild) := by
  have goes : (turns (clipifSlave fromChild) 2 .start astray).map
      (fun x => decide (x.1.acted = [.put 0 [7] 1 9] ∧ x.2 = [])) = some true := by
    decide +kernel
  obtain ⟨⟨t, rest⟩, run, seen⟩ := Option.map_eq_some_iff.mp goes
  obtain ⟨acted, rfl⟩ := of_decide_eq_true seen
  obtain ⟨pieces, ⟨_, split⟩, _, acts, _⟩ := clip_acts_on_pieces run
  exact ⟨t, pieces, run, acted, split, acts⟩

end Clip

end DistributedClipboard.Interfaces.AnyBytes
