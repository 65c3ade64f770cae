/- module: DistributedClipboard/Interfaces/AppTurns
   source: src/src/interfaces/appif.c
   layer: result
   digest: What a turn of `appif_slave` does with a whole request, whatever it finds. -/

import DistributedClipboard.Interfaces.AppBuffers

set_option autoImplicit false
set_option relaxedAutoImplicit false

namespace DistributedClipboard.Interfaces.AppTurns

open DistributedClipboard.Common
open DistributedClipboard.Interfaces.AppBuffers
open DistributedClipboard.Lib.Stream
open DistributedClipboard.Mem.Clmem
open DistributedClipboard.Mem.Representation
open DistributedClipboard.Utils.Packet

section Respond

variable {s : SlaveState} {r : Response}

theorem respond_exec (filled : r.bytes ≠ []) (size : r.sendSize.toNat = r.bytes.length)
    (s : SlaveState) (ins : List UInt8) : ∃ outs,
      (respond s (some r)).exec ins = some ({ s with
        err := min (transferred r.bytes.length : Int) s.err }.use (.sendData r.sendSize r.bytes),
        ins, outs) ∧ (∀ o ∈ outs, o = r.bytes) ∧ (outs ≠ [] ↔ r.bytes.length < 2 ^ 31) := by
  have bound := r.sendSize.toNat_lt
  rw [respond, minMacroM, size]
  by_cases small : r.bytes.length < 2 ^ 31
  · rw [sendData_eq filled small, transferred_small small]
    simp only [Proc.send_bind, Proc.done_bind, gt_iff_lt]
    by_cases longer : s.err < r.bytes.length
    · rw [if_pos longer, min_eq_right longer.le]
      exact ⟨[r.bytes], rfl, by simp, iff_of_true (List.cons_ne_nil _ _) small⟩
    · rw [if_neg longer, min_eq_left (not_lt.mp longer)]
      exact ⟨[r.bytes, r.bytes], rfl, by simp, iff_of_true (List.cons_ne_nil _ _) small⟩
  · have large : 2 ^ 31 ≤ r.bytes.length := Nat.not_lt.mp small
    have fits : r.bytes.length < 2 ^ 32 := size ▸ bound
    have none_ : transferred r.bytes.length = 0 := by
      rw [transferred, toInt, Nat.mod_eq_of_lt fits, if_neg small]
      omega
    rw [sendData_large r.bytes large fits, none_]
    simp only [Proc.done_bind, gt_iff_lt]
    by_cases longer : s.err < 0
    · rw [if_pos longer]
      refine ⟨[], ?_, List.forall_mem_nil _, iff_of_false (not_not.mpr rfl) small⟩
      rw [Int.natCast_zero, min_eq_right longer.le]
      rfl
    · rw [if_neg longer]
      refine ⟨[], ?_, List.forall_mem_nil _, iff_of_false (not_not.mpr rfl) small⟩
      rw [Int.natCast_zero, min_eq_left (not_lt.mp longer)]
      rfl

end Respond

section Turn

variable {env : Nat → Env} {s : SlaveState} {more : List UInt8}

theorem appifSlave_exec (alive : 1 ≤ s.err) (type : UInt8) (ins : List UInt8) :
    (appifSlave env s).exec (type :: ins) =
      ((request (env s.turn) { s with err := 1 } [type]).exec ins).bind fun x =>
        ((respond x.1.1 x.1.2).exec x.2.1).map fun y =>
          (some { y.1 with turn := y.1.turn + 1 }, y.2.1, x.2.2 ++ y.2.2) := by
  have goesOn : ¬ s.err < 1 := by omega
  have reads : Proc.Runs (recvData packetSize) [type] [] (1, [type]) :=
    recvData_runs rfl (by decide)
  have read := reads.exec ins
  rw [List.singleton_append] at read
  rw [appifSlave, if_neg goesOn, Proc.exec_bind, read]
  have one : ¬ (1 : Int) ≠ packetSize := by decide
  simp only [Option.bind_some, if_neg one, Proc.exec_bind, List.nil_append]
  refine (Option.map_id' (x := _)).trans (congrArg (Option.bind _) (funext fun x => ?_))
  cases (respond x.1.1 x.1.2).exec x.2.1 with
  | none => rfl
  | some y => simp [Proc.exec]

/-- The state a turn ends in. -/
def after (s : SlaveState) (err : Int) (uses : List Use) : SlaveState :=
  ⟨err, s.turn + 1, s.uses ++ uses⟩

section Fetch

variable {e : Env} {type : PacketType} {fetch : Memory → Int → Nat → Option (List UInt8)}
  {emptyEnds : Bool} {pf : PacketFetch}

def fetched (e : Env) (type : PacketType) (pf : PacketFetch) (data : List UInt8) : List UInt8 :=
  PacketData.bytes ⟨type.code, pf.region, .ofNat data.length, e.timeMNow⟩ ++ data

theorem length_fetched (data : List UInt8) :
    (fetched e type pf data).length = packetDataSize + data.length := by
  rw [fetched, List.length_append, PacketData.length_bytes]

theorem fetchRequest_exec (s : SlaveState) (more : List UInt8) :
    (fetchRequest e type fetch emptyEnds s [pf.packetType]).exec (pf.bytes.tail ++ more) =
      (fetchPacket e type fetch emptyEnds { s with err := 5 } pf).exec more := by
  have reads : Proc.Runs (recvData (packetFetchSize - packetSize)) pf.bytes.tail []
      (5, pf.bytes.tail) := recvData_runs rfl (by decide)
  have whole : PacketFetch.ofBytes ([pf.packetType] ++ pf.bytes.tail) = pf := pf.ofBytes_bytes
  have five : ¬ (5 : Int) ≠ (packetFetchSize - packetSize : Nat) := by decide
  rw [fetchRequest, Proc.exec_bind, reads.exec more]
  simp only [Option.bind_some, if_neg five, whole, List.nil_append]
  exact Option.map_id'

theorem fetchPacket_fault (granted : e.packetGranted = true)
    (wrong : ¬ FitsHeader pf.dataSize ∨ fetch e.mem pf.region.toNat pf.dataSize.toNat = none) :
    fetchPacket e type fetch emptyEnds s pf = .fault := by
  rw [fetchPacket, mallocPacket, if_neg (by simp [granted])]
  by_cases wraps : (plusHeader pf.dataSize).toNat < packetDataSize
  · rw [if_pos wraps]
    rfl
  · have fits : FitsHeader pf.dataSize := by
      by_contra not_
      exact wraps (plusHeader_wraps not_)
    have null := wrong.resolve_left (not_not.mpr fits)
    rw [if_neg wraps, Proc.done_bind]
    simp only [null]

theorem fetchPacket_refused (refused : e.packetGranted = false) :
    fetchPacket e type fetch emptyEnds s pf = .done (s, none) := by
  rw [fetchPacket, mallocPacket, if_pos refused]
  rfl

theorem fetchPacket_done (granted : e.packetGranted = true) (fits : FitsHeader pf.dataSize)
    {data : List UInt8} (found : fetch e.mem pf.region.toNat pf.dataSize.toNat = some data)
    (bound : data.length ≤ pf.dataSize.toNat) :
    fetchPacket e type fetch emptyEnds s pf = .done
      (let t := s.use (.malloc pf.dataSize)
        if emptyEnds ∧ data.length = 0 then { t with err := 0 } else t,
        some ⟨fetched e type pf data, plusHeader (.ofNat data.length)⟩) := by
  have room := plusHeader_fits fits
  have enough : ¬ (plusHeader pf.dataSize).toNat < packetDataSize := by omega
  have enough' : ¬ (plusHeader pf.dataSize).toNat < packetDataSize + data.length := by omega
  rw [fetchPacket, mallocPacket, if_neg (by simp [granted]), if_neg enough, Proc.done_bind]
  simp only [found, if_neg enough']
  rfl

variable (switch : ∀ t : SlaveState, request (env s.turn) t [pf.packetType] =
  fetchRequest (env s.turn) type fetch emptyEnds t [pf.packetType])

include switch

theorem turn_fetch (alive : 1 ≤ s.err) (more : List UInt8) :
    (appifSlave env s).exec (pf.bytes ++ more) =
      ((fetchPacket (env s.turn) type fetch emptyEnds { s with err := 5 } pf).exec more).bind
        fun x => ((respond x.1.1 x.1.2).exec x.2.1).map fun y =>
          (some { y.1 with turn := y.1.turn + 1 }, y.2.1, x.2.2 ++ y.2.2) := by
  have head : pf.bytes ++ more = pf.packetType :: (pf.bytes.tail ++ more) := rfl
  rw [head, appifSlave_exec alive, switch, fetchRequest_exec]

theorem turn_fetch_refused (alive : 1 ≤ s.err) (refused : (env s.turn).packetGranted = false)
    (more : List UInt8) : (appifSlave env s).exec (pf.bytes ++ more) =
      some (some (after s 5 []), more, []) := by
  rw [turn_fetch switch alive, fetchPacket_refused refused]
  simp [Proc.exec, respond, after]

theorem turn_fetch_fault (alive : 1 ≤ s.err) (granted : (env s.turn).packetGranted = true)
    (wrong : ¬ FitsHeader pf.dataSize ∨ fetch (env s.turn).mem pf.region.toNat pf.dataSize.toNat = none)
    (more : List UInt8) : (appifSlave env s).exec (pf.bytes ++ more) = none := by
  rw [turn_fetch switch alive, fetchPacket_fault granted wrong]
  rfl

theorem turn_fetch_done (alive : 1 ≤ s.err) (granted : (env s.turn).packetGranted = true)
    (fits : FitsHeader pf.dataSize) {data : List UInt8}
    (found : fetch (env s.turn).mem pf.region.toNat pf.dataSize.toNat = some data)
    (bound : data.length ≤ pf.dataSize.toNat) (more : List UInt8) : ∃ outs,
      (appifSlave env s).exec (pf.bytes ++ more) = some (some (after s
        (min (transferred (packetDataSize + data.length) : Int)
          (if emptyEnds ∧ data.length = 0 then 0 else 5))
        [.malloc pf.dataSize,
          .sendData (plusHeader (.ofNat data.length)) (fetched (env s.turn) type pf data)]),
        more, outs) ∧
      (∀ o ∈ outs, o = fetched (env s.turn) type pf data) ∧
      (outs ≠ [] ↔ packetDataSize + data.length < 2 ^ 31) := by
  have length : (fetched (env s.turn) type pf data).length = packetDataSize + data.length :=
    length_fetched data
  have size : (UInt32.ofNat data.length).toNat = data.length :=
    UInt32.toNat_ofNat_of_lt' (by have := pf.dataSize.toNat_lt; rw [UInt32.size]; omega)
  have fits' : FitsHeader (.ofNat data.length) := by
    rw [FitsHeader, size]
    exact (Nat.add_le_add_left bound _).trans_lt fits
  obtain ⟨outs, sends, same, some_⟩ := respond_exec
    (r := ⟨fetched (env s.turn) type pf data, plusHeader (.ofNat data.length)⟩)
    (List.cons_ne_nil _ _) (by rw [plusHeader_fits fits', size, length])
    (if emptyEnds ∧ data.length = 0 then
      { ({ s with err := 5 } : SlaveState).use (.malloc pf.dataSize) with err := 0 }
      else ({ s with err := 5 } : SlaveState).use (.malloc pf.dataSize)) more
  rw [length] at sends some_
  refine ⟨outs, ?_, same, some_⟩
  rw [turn_fetch switch alive, fetchPacket_done granted fits found bound]
  simp only [Proc.exec, Option.bind_some, sends, Option.map_some, List.nil_append]
  split
  · simp [after, SlaveState.use]
  · simp [after, SlaveState.use]

end Fetch

section Copy

variable {e : Env} {pd : PacketData} {payload : List UInt8}

def ack (e : Env) (pd : PacketData) (payload : List UInt8) : List UInt8 :=
  PacketFetch.bytes ⟨PacketType.responseAck.code, pd.region,
    .ofNat (memPut e.mem pd.region.toNat payload e.timeMNow.toNat).1⟩

def queued (e : Env) (pd : PacketData) (payload : List UInt8) : List Use :=
  if (memPut e.mem pd.region.toNat payload e.timeMNow.toNat).1 = 0 ∨ e.clipifAddBroadcast ≠ 0 then []
  else [.clipifAddBroadcast (PacketData.bytes { pd with recvAt := e.timeMNow } ++ payload)]

theorem copyRequest_exec (s : SlaveState) (ins : List UInt8) :
    (copyRequest e s [pd.packetType]).exec (pd.bytes.tail ++ ins) =
      (copyPacket e { s with err := 9 } pd).exec ins := by
  have reads : Proc.Runs (recvData (packetDataSize - packetSize)) pd.bytes.tail []
      (9, pd.bytes.tail) := recvData_runs rfl (by decide)
  have whole : PacketData.ofBytes ([pd.packetType] ++ pd.bytes.tail) = pd := pd.ofBytes_bytes
  have nine : ¬ (9 : Int) ≠ (packetDataSize - packetSize : Nat) := by decide
  rw [copyRequest, Proc.exec_bind, reads.exec ins]
  simp only [Option.bind_some, if_neg nine, whole, List.nil_append]
  exact Option.map_id'

theorem copyPacket_refused (refused : e.packetGranted = false) :
    copyPacket e s pd = .done (s, none) := by
  rw [copyPacket, mallocPacket, if_pos refused]
  rfl

theorem copyPacket_fault (granted : e.packetGranted = true) (wraps : ¬ FitsHeader pd.dataSize) :
    copyPacket e s pd = .fault := by
  rw [copyPacket, mallocPacket, if_neg (by simp [granted]), if_pos (plusHeader_wraps wraps)]
  rfl

theorem copyPacket_large (granted : e.packetGranted = true) (fits : FitsHeader pd.dataSize)
    (large : 2 ^ 31 ≤ pd.dataSize.toNat) : copyPacket e s pd =
      .done (({ s with err := 0 }.use (.malloc pd.dataSize)).use (.recvData pd.dataSize), none) := by
  have room := plusHeader_fits fits
  have enough : ¬ (plusHeader pd.dataSize).toNat < packetDataSize := by omega
  have none_ : (0 : Int) ≠ pd.dataSize.toNat := by omega
  rw [copyPacket, mallocPacket, if_neg (by simp [granted]), if_neg enough, Proc.done_bind]
  simp only [recvData_large large pd.dataSize.toNat_lt, Proc.done_bind, List.length_nil,
    Nat.add_zero, if_neg enough, if_pos none_]
  rfl

theorem copyPacket_exec (granted : e.packetGranted = true) (fits : FitsHeader pd.dataSize)
    (small : payload.length < 2 ^ 31) (length : payload.length = pd.dataSize.toNat)
    (more : List UInt8) : (copyPacket e s pd).exec (payload ++ more) = some
      (place e (({ s with err := payload.length }.use (.malloc pd.dataSize)).use
        (.recvData pd.dataSize)) pd payload, more, []) := by
  have room := plusHeader_fits fits
  have enough : ¬ (plusHeader pd.dataSize).toNat < packetDataSize := by omega
  have enough' : ¬ (plusHeader pd.dataSize).toNat < packetDataSize + payload.length := by omega
  have all : ¬ (payload.length : Int) ≠ pd.dataSize.toNat := by omega
  have reads : Proc.Runs (recvData pd.dataSize.toNat) payload [] (payload.length, payload) := by
    rw [← length]
    exact recvData_runs rfl small
  rw [copyPacket, mallocPacket, if_neg (by simp [granted]), if_neg enough, Proc.done_bind]
  simp only [Proc.exec_bind, reads.exec more, Option.bind_some, if_neg enough', if_neg all]
  rfl

theorem turn_copy (alive : 1 ≤ s.err) (type : pd.packetType = PacketType.requestCopy.code)
    (ins : List UInt8) : (appifSlave env s).exec (pd.bytes ++ ins) =
      ((copyPacket (env s.turn) { s with err := 9 } pd).exec ins).bind
        fun x => ((respond x.1.1 x.1.2).exec x.2.1).map fun y =>
          (some { y.1 with turn := y.1.turn + 1 }, y.2.1, x.2.2 ++ y.2.2) := by
  have head : pd.bytes ++ ins = pd.packetType :: (pd.bytes.tail ++ ins) := rfl
  have switch (t : SlaveState) : request (env s.turn) t [pd.packetType] =
      copyRequest (env s.turn) t [pd.packetType] := by
    rw [request, List.getD_cons_zero, type, PacketType.ofCode_code]
  rw [head, appifSlave_exec alive, switch, copyRequest_exec]

theorem turn_copy_refused (alive : 1 ≤ s.err) (type : pd.packetType = PacketType.requestCopy.code)
    (refused : (env s.turn).packetGranted = false) (ins : List UInt8) :
    (appifSlave env s).exec (pd.bytes ++ ins) = some (some (after s 9 []), ins, []) := by
  rw [turn_copy alive type, copyPacket_refused refused]
  simp [Proc.exec, respond, after]

theorem turn_copy_fault (alive : 1 ≤ s.err) (type : pd.packetType = PacketType.requestCopy.code)
    (granted : (env s.turn).packetGranted = true) (wraps : ¬ FitsHeader pd.dataSize)
    (ins : List UInt8) : (appifSlave env s).exec (pd.bytes ++ ins) = none := by
  rw [turn_copy alive type, copyPacket_fault granted wraps]
  rfl

theorem turn_copy_large (alive : 1 ≤ s.err) (type : pd.packetType = PacketType.requestCopy.code)
    (granted : (env s.turn).packetGranted = true) (fits : FitsHeader pd.dataSize)
    (large : 2 ^ 31 ≤ pd.dataSize.toNat) (ins : List UInt8) :
    (appifSlave env s).exec (pd.bytes ++ ins) =
      some (some (after s 0 [.malloc pd.dataSize, .recvData pd.dataSize]), ins, []) := by
  rw [turn_copy alive type, copyPacket_large granted fits large]
  simp [Proc.exec, respond, after, SlaveState.use]

theorem turn_copy_done (alive : 1 ≤ s.err) (type : pd.packetType = PacketType.requestCopy.code)
    (granted : (env s.turn).packetGranted = true) (fits : FitsHeader pd.dataSize)
    (small : payload.length < 2 ^ 31) (length : payload.length = pd.dataSize.toNat)
    (more : List UInt8) : ∃ outs,
      (appifSlave env s).exec (pd.bytes ++ payload ++ more) = some (some (after s
        (if (env s.turn).fetchGranted then min 6 (payload.length : Int) else payload.length)
        ([.malloc pd.dataSize, .recvData pd.dataSize] ++ queued (env s.turn) pd payload ++
          if (env s.turn).fetchGranted then [.sendData 6 (ack (env s.turn) pd payload)] else [])),
        more, outs) ∧
      (∀ o ∈ outs, o = ack (env s.turn) pd payload) ∧
      (outs ≠ [] ↔ (env s.turn).fetchGranted = true) := by
  rw [List.append_assoc, turn_copy alive type, copyPacket_exec granted fits small length]
  simp only [Option.bind_some, List.nil_append]
  generalize env s.turn = e
  have placed (t : SlaveState) : place e t pd payload =
      ({ t with uses := t.uses ++ queued e pd payload },
        if e.fetchGranted then some ⟨ack e pd payload, 6⟩ else none) := by
    by_cases dropped : (memPut e.mem pd.region.toNat payload e.timeMNow.toNat).1 = 0 ∨
        e.clipifAddBroadcast ≠ 0
    · simp only [place, queued, if_pos dropped, List.append_nil]
      rfl
    · simp only [place, queued, if_neg dropped]
      rfl
  rw [placed]
  by_cases acked : e.fetchGranted = true
  · have six : (ack e pd payload).length = 6 := rfl
    have sent : transferred (ack e pd payload).length = 6 := transferred_small (by omega)
    simp only [if_pos acked]
    obtain ⟨outs, sends, same, some_⟩ := respond_exec (r := ⟨ack e pd payload, 6⟩)
      (List.cons_ne_nil _ _) rfl
      { ({ s with err := payload.length }.use (.malloc pd.dataSize)).use (.recvData pd.dataSize)
        with uses := s.uses ++ [.malloc pd.dataSize] ++ [.recvData pd.dataSize] ++
          queued e pd payload } more
    have short : (ack e pd payload).length < 2 ^ 31 := by omega
    refine ⟨outs, ?_, same, some_.trans (iff_of_true short acked)⟩
    rw [sent] at sends
    simp only [SlaveState.use] at sends ⊢
    rw [sends]
    simp [after]
  · simp only [if_neg acked]
    refine ⟨[], ?_, List.forall_mem_nil _, iff_of_false (not_not.mpr rfl) acked⟩
    simp [respond, Proc.exec, after, SlaveState.use]

end Copy

end Turn

end DistributedClipboard.Interfaces.AppTurns
