/- module: DistributedClipboard/Interfaces/ExactLengths
   source: src/src/interfaces/appif.c, src/src/interfaces/clipif.c, src/src/utils/packet.c
   layer: theorem
   digest: When the lengths a slave computes from a size field are those of the bytes they stand for. -/

import DistributedClipboard.Interfaces.AppTurns
import DistributedClipboard.Interfaces.ClipBuffers
import DistributedClipboard.Lib.Turns

set_option autoImplicit false
set_option relaxedAutoImplicit false

namespace DistributedClipboard.Interfaces.ExactLengths

open DistributedClipboard.Common
open DistributedClipboard.Interfaces.AppBuffers
open DistributedClipboard.Interfaces.AppTurns
open DistributedClipboard.Interfaces.LinkCodec (sendSize sendSize_copy)
open DistributedClipboard.Lib.Turns (ends_iff not_ends)
open DistributedClipboard.Mem.Clmem
open DistributedClipboard.Mem.Representation
open DistributedClipboard.Utils.Packet

def UseExact : Use → Prop
  | .malloc dataSize => (plusHeader dataSize).toNat = packetDataSize + dataSize.toNat
  | .recvData dataSize => toInt dataSize.toNat = dataSize.toNat
  | .sendData sendSize response => toInt sendSize.toNat = response.length
  | .clipifAddBroadcast packet => toInt (sendSize packet).toNat = packet.length

def CallExact (dataSize : UInt32) : ClipSlave.Call → Prop
  | .malloc size granted => granted = true →
    size = packetDataSize + dataSize.toNat ∧ toInt dataSize.toNat = dataSize.toNat
  | .clipifAddBroadcast _ packet err2 => err2 = 0 → toInt (sendSize packet).toNat = packet.length
  | _ => True

def Kept (e : Env) (region : UInt8) (payload : List UInt8) : Prop :=
  (∃ r, regionOf region.toNat = some r ∧ payload ≠ [] ∧
    ((e.mem r).data.isSome = true → (e.mem r).updateCond ≤ e.timeMNow.toNat)) ∧
  e.clipifAddBroadcast = 0

def ClipKept (w : ClipSlave.World) (s : ClipSlave.SlaveState) (pd : PacketData)
    (payload : List UInt8) : Prop :=
  let asked := s.log ++ [.malloc (plusHeader pd.dataSize).toNat true]
  w.memPut asked ≠ 0 ∧ w.clipifAddBroadcast (asked ++
    [.memPut pd.region payload pd.dataSize.toNat pd.recvAt (w.memPut asked)]) = 0

/-- When the lengths of a copy from a peer are exact. -/
def ClipExact (w : ClipSlave.World) (s : ClipSlave.SlaveState) (region : UInt8) (recvAt : UInt32)
    (payload : List UInt8) : Prop :=
  w.malloc s.log = true → payload.length < 2 ^ 31 ∧
    (ClipKept w s ⟨PacketType.requestCopy.code, region, .ofNat payload.length, recvAt⟩ payload →
      packetDataSize + payload.length < 2 ^ 31)

/-- When the lengths of a request of an application are exact. -/
def AppExact (e : Env) : Request → Prop
  | .paste region dataSize => e.packetGranted = true → FitsHeader dataSize ∧
    memGet e.mem region.toNat dataSize.toNat ≠ none ∧
    packetDataSize + min dataSize.toNat (sizeAt e.mem region.toNat) < 2 ^ 31
  | .wait region dataSize => e.packetGranted = true → FitsHeader dataSize ∧
    memWaitReturn e.mem region.toNat dataSize.toNat ≠ none ∧
    packetDataSize + min dataSize.toNat (awakeAt e.mem region.toNat) < 2 ^ 31
  | .copy region _ payload _ => e.packetGranted = true → payload.length < 2 ^ 31 ∧
    (Kept e region payload → packetDataSize + payload.length < 2 ^ 31)
  | .goodbye => True

section Values

theorem toInt_exact {n : Nat} : toInt n = n ↔ n < 2 ^ 31 := by
  constructor
  · intro same
    rw [← transferred_eq_iff, transferred, same, Int.toNat_natCast]
  · exact toInt_small

variable {n : UInt32}

theorem toInt_plusHeader {length : Nat} (size : n.toNat = length) :
    toInt (plusHeader n).toNat = (packetDataSize + length : Nat) ↔
      packetDataSize + length < 2 ^ 31 := by
  subst size
  constructor
  · intro same
    have small := transferred_lt (plusHeader n).toNat
    rw [transferred, same, Int.toNat_natCast] at small
    exact small
  · intro small
    have fits : FitsHeader n := small.trans (by decide)
    rw [plusHeader_fits fits, toInt_small small]

end Values

section App

variable {env : Nat → Env} {s : SlaveState}

/-- The lengths used since are exact. -/
def ExactSince (s t : SlaveState) : Prop := ∃ uses, t.uses = s.uses ++ uses ∧ ∀ u ∈ uses, UseExact u

theorem exactSince_after {err : Int} {uses : List Use} :
    ExactSince s (after s err uses) ↔ ∀ u ∈ uses, UseExact u := by
  constructor
  · rintro ⟨uses', same, exact_⟩
    obtain rfl : uses = uses' := List.append_cancel_left same
    exact exact_
  · intro exact_
    exact ⟨uses, rfl, exact_⟩

theorem fetch_exact_iff {type : PacketType} {fetch : Memory → Int → Nat → Option (List UInt8)}
    {emptyEnds : Bool} (pf : PacketFetch) (held : Nat) (rest : List UInt8) (alive : 1 ≤ s.err)
    (switch : ∀ t : SlaveState, request (env s.turn) t [pf.packetType] =
      fetchRequest (env s.turn) type fetch emptyEnds t [pf.packetType])
    (length : ∀ data, fetch (env s.turn).mem pf.region.toNat pf.dataSize.toNat = some data →
      data.length = min pf.dataSize.toNat held) :
    (∃ t left outs, (appifSlave env s).exec (pf.bytes ++ rest) = some (some t, left, outs) ∧
        ExactSince s t) ↔
      ((env s.turn).packetGranted = true → FitsHeader pf.dataSize ∧
        fetch (env s.turn).mem pf.region.toNat pf.dataSize.toNat ≠ none ∧
        packetDataSize + min pf.dataSize.toNat held < 2 ^ 31) := by
  by_cases granted : (env s.turn).packetGranted = true
  · rw [forall_prop_of_true granted]
    by_cases right : FitsHeader pf.dataSize ∧
        fetch (env s.turn).mem pf.region.toNat pf.dataSize.toNat ≠ none
    · obtain ⟨fits, some_⟩ := right
      obtain ⟨data, found⟩ := Option.ne_none_iff_exists'.mp some_
      have bytes := length data found
      have size : (UInt32.ofNat data.length).toNat = data.length :=
        UInt32.toNat_ofNat_of_lt' (by have := pf.dataSize.toNat_lt; rw [UInt32.size]; omega)
      obtain ⟨outs, turn, _⟩ := turn_fetch_done switch alive granted fits found (by omega) rest
      have exact_ : (∀ u ∈ [Use.malloc pf.dataSize, .sendData (plusHeader (.ofNat data.length))
          (fetched (env s.turn) type pf data)], UseExact u) ↔
          packetDataSize + data.length < 2 ^ 31 := by
        rw [List.forall_mem_cons, List.forall_mem_singleton, UseExact, UseExact, length_fetched,
          toInt_plusHeader size, plusHeader_exact]
        exact and_iff_right fits
      rw [← bytes, ← exact_, and_iff_right fits, and_iff_right some_, ends_iff turn]
      exact exactSince_after
    · refine iff_of_false (not_ends ?_) fun h => right ⟨h.1, h.2.1⟩
      rw [not_and_or, not_not] at right
      exact turn_fetch_fault switch alive granted right rest
  · refine iff_of_true ?_ fun yes => absurd yes granted
    rw [ends_iff (turn_fetch_refused switch alive (by simpa using granted) rest)]
    exact exactSince_after.mpr (List.forall_mem_nil _)

theorem queued_exact {e : Env} (pd : PacketData) {payload : List UInt8}
    (type : pd.packetType = PacketType.requestCopy.code)
    (length : payload.length = pd.dataSize.toNat) :
    (∀ u ∈ queued e pd payload, UseExact u) ↔
      (Kept e pd.region payload → packetDataSize + payload.length < 2 ^ 31) := by
  have kept : Kept e pd.region payload ↔
      ¬ ((memPut e.mem pd.region.toNat payload e.timeMNow.toNat).1 = 0 ∨
        e.clipifAddBroadcast ≠ 0) := by
    rw [not_or, not_not, Kept]
    refine and_congr_left fun _ => ?_
    rcases memPut_cases e.mem pd.region.toNat payload e.timeMNow.toNat with
      ⟨zero, _, newer⟩ | ⟨r, found, filled, olds, returned, _⟩
    · refine iff_of_false ?_ (not_not.mpr zero)
      rintro ⟨r, found, filled, olds⟩
      obtain ⟨held, later⟩ := newer r found filled
      exact absurd (olds held) (Nat.not_le.mpr later)
    · refine iff_of_true ⟨r, found, filled, olds⟩ ?_
      rw [returned]
      exact fun zero => filled (List.length_eq_zero_iff.mp zero)
  rw [queued]
  by_cases dropped : (memPut e.mem pd.region.toNat payload e.timeMNow.toNat).1 = 0 ∨
      e.clipifAddBroadcast ≠ 0
  · rw [if_pos dropped]
    exact iff_of_true (List.forall_mem_nil _) fun yes => absurd dropped (kept.mp yes)
  · rw [if_neg dropped, List.forall_mem_singleton, UseExact,
      sendSize_copy { pd with recvAt := e.timeMNow } type, List.length_append,
      PacketData.length_bytes, forall_prop_of_true (kept.mpr dropped)]
    exact toInt_plusHeader length.symm

theorem copy_exact_iff (region : UInt8) (recvAt : UInt32) (payload : List UInt8)
    (length : payload.length < 2 ^ 32) (rest : List UInt8) (alive : 1 ≤ s.err) :
    (∃ t left outs, (appifSlave env s).exec ((Request.copy region recvAt payload length).bytes ++
        rest) = some (some t, left, outs) ∧ ExactSince s t) ↔
      AppExact (env s.turn) (.copy region recvAt payload length) := by
  let pd : PacketData := ⟨PacketType.requestCopy.code, region, .ofNat payload.length, recvAt⟩
  have bytes : (Request.copy region recvAt payload length).bytes ++ rest =
      pd.bytes ++ (payload ++ rest) := List.append_assoc _ _ _
  have size : pd.dataSize.toNat = payload.length := UInt32.toNat_ofNat_of_lt' length
  rw [AppExact]
  by_cases granted : (env s.turn).packetGranted = true
  · rw [forall_prop_of_true granted]
    by_cases small : payload.length < 2 ^ 31
    · have fits : FitsHeader pd.dataSize := by
        rw [FitsHeader, size, packetDataSize]
        omega
      obtain ⟨outs, turn, _⟩ := turn_copy_done alive rfl granted fits small size.symm rest
      have exact_ : (∀ u ∈ [Use.malloc pd.dataSize, .recvData pd.dataSize] ++
          queued (env s.turn) pd payload ++ (if (env s.turn).fetchGranted then
            [.sendData 6 (ack (env s.turn) pd payload)] else []), UseExact u) ↔
          ∀ u ∈ queued (env s.turn) pd payload, UseExact u := by
        have allocated : UseExact (.malloc pd.dataSize) := plusHeader_exact.mpr fits
        have received : UseExact (.recvData pd.dataSize) := toInt_small (by omega)
        have acked : UseExact (.sendData 6 (ack (env s.turn) pd payload)) :=
          show toInt 6 = 6 by decide
        simp only [List.forall_mem_append, List.forall_mem_cons, allocated, received, true_and]
        constructor
        · rintro ⟨⟨_, kept⟩, _⟩
          exact kept
        · intro kept
          refine ⟨⟨List.forall_mem_nil _, kept⟩, fun u mine => ?_⟩
          split at mine
          · obtain rfl := List.mem_singleton.mp mine
            exact acked
          · cases mine
      rw [and_iff_right small, ← queued_exact pd rfl size.symm, ← exact_]
      exact (ends_iff turn).trans exactSince_after
    · refine iff_of_false ?_ fun h => small h.1
      by_cases fits : FitsHeader pd.dataSize
      · rw [bytes, ends_iff (turn_copy_large alive rfl granted fits (by omega) _)]
        intro since
        have received : UseExact (.recvData pd.dataSize) :=
          exactSince_after.mp since _ (List.mem_cons_of_mem _ List.mem_cons_self)
        rw [UseExact, size, toInt_exact] at received
        exact small received
      · rw [bytes]
        exact not_ends (turn_copy_fault alive rfl granted fits _)
  · refine iff_of_true ?_ fun yes => absurd yes granted
    rw [bytes, ends_iff (turn_copy_refused alive rfl (by simpa using granted) _)]
    exact exactSince_after.mpr (List.forall_mem_nil _)

theorem app_exact_iff (f : Request) (rest : List UInt8) (alive : 1 ≤ s.err) :
    (∃ t left outs, (appifSlave env s).exec (f.bytes ++ rest) = some (some t, left, outs) ∧
      ExactSince s t) ↔ AppExact (env s.turn) f := by
  cases f with
  | paste region dataSize =>
    exact fetch_exact_iff ⟨PacketType.requestPaste.code, region, dataSize⟩
      (sizeAt (env s.turn).mem region.toNat) rest alive (fun _ => rfl)
      fun data found => memGet_length found
  | wait region dataSize =>
    exact fetch_exact_iff ⟨PacketType.requestWait.code, region, dataSize⟩
      (awakeAt (env s.turn).mem region.toNat) rest alive (fun _ => rfl)
      fun data found => memWaitReturn_length found
  | copy region recvAt payload length =>
    exact copy_exact_iff region recvAt payload length rest alive
  | goodbye =>
    refine iff_of_true ?_ trivial
    refine ⟨_, _, _, appifSlave_exec alive PacketType.goodbye.code rest, [], ?_, List.forall_mem_nil _⟩
    exact (List.append_nil _).symm

end App

section Clip

variable {w : ClipSlave.World} {s : ClipSlave.SlaveState} {pd : PacketData} {payload : List UInt8}

/-- The lengths of the calls made since are exact. -/
def ClipExactSince (dataSize : UInt32) (s t : ClipSlave.SlaveState) : Prop :=
  ∃ calls, t.log = s.log ++ calls ∧ ∀ c ∈ calls, CallExact dataSize c

theorem clipExactSince_iff {dataSize : UInt32} {t : ClipSlave.SlaveState}
    {calls : List ClipSlave.Call} (log : t.log = s.log ++ calls) :
    ClipExactSince dataSize s t ↔ ∀ c ∈ calls, CallExact dataSize c := by
  constructor
  · rintro ⟨calls', same, exact_⟩
    obtain rfl : calls = calls' := List.append_cancel_left (log.symm.trans same)
    exact exact_
  · intro exact_
    exact ⟨calls, log, exact_⟩

def placed (w : ClipSlave.World) (log : List ClipSlave.Call) (dataBuffer : Nat) (pd : PacketData)
    (data : List UInt8) : List ClipSlave.Call :=
  let put : ClipSlave.Call :=
    .memPut pd.region data pd.dataSize.toNat pd.recvAt (w.memPut log)
  let err2 := w.clipifAddBroadcast (log ++ [put])
  if w.memPut log = 0 then [put, .free dataBuffer]
  else if err2 ≠ 0 then
    [put, .clipifAddBroadcast dataBuffer (pd.bytes ++ data) err2, .free dataBuffer]
  else [put, .clipifAddBroadcast dataBuffer (pd.bytes ++ data) err2]

theorem place_log (dataBuffer : Nat) : (ClipSlave.place w s dataBuffer pd payload).log =
    s.log ++ placed w s.log dataBuffer pd payload := by
  by_cases refused : w.memPut s.log = 0
  · simp [ClipSlave.place, placed, refused]
  · by_cases accepted : w.clipifAddBroadcast (s.log ++
        [.memPut pd.region payload pd.dataSize.toNat pd.recvAt (w.memPut s.log)]) = 0
    · simp [ClipSlave.place, ClipSlave.forward, placed, refused, accepted]
    · simp [ClipSlave.place, ClipSlave.forward, placed, refused, accepted]

theorem placed_exact (type : pd.packetType = PacketType.requestCopy.code)
    (length : payload.length = pd.dataSize.toNat) (log : List ClipSlave.Call) (dataBuffer : Nat) :
    (∀ c ∈ placed w log dataBuffer pd payload, CallExact pd.dataSize c) ↔
      (w.memPut log ≠ 0 ∧ w.clipifAddBroadcast (log ++
          [.memPut pd.region payload pd.dataSize.toNat pd.recvAt (w.memPut log)]) = 0 →
        packetDataSize + payload.length < 2 ^ 31) := by
  have queued : toInt (sendSize (pd.bytes ++ payload)).toNat = (pd.bytes ++ payload).length ↔
      packetDataSize + payload.length < 2 ^ 31 := by
    rw [sendSize_copy pd type, List.length_append, PacketData.length_bytes]
    exact toInt_plusHeader length.symm
  rw [placed]
  split
  · rename_i refused
    refine iff_of_true ?_ fun kept => absurd refused kept.1
    simp only [List.forall_mem_cons, CallExact, true_and]
    exact List.forall_mem_nil _
  · rename_i stored
    split
    · rename_i rejected
      refine iff_of_true ?_ fun kept => absurd kept.2 rejected
      simp only [List.forall_mem_cons, CallExact, true_and]
      exact ⟨fun accepted => absurd accepted rejected, List.forall_mem_nil _⟩
    · rename_i accepted
      rw [not_not] at accepted
      rw [forall_prop_of_true ⟨stored, accepted⟩, ← queued]
      simp only [List.forall_mem_cons, CallExact, true_and, forall_prop_of_true accepted]
      exact and_iff_left (List.forall_mem_nil _)

theorem clip_exact_iff (type : pd.packetType = PacketType.requestCopy.code)
    (length : payload.length = pd.dataSize.toNat) (rest : List UInt8) (alive : 1 ≤ s.err) :
    (∃ t left outs, (ClipBuffers.clipifSlave w s).exec (pd.bytes ++ payload ++ rest) =
      some (some t, left, outs) ∧ ClipExactSince pd.dataSize s t) ↔
      (w.malloc s.log = true → payload.length < 2 ^ 31 ∧
        (ClipKept w s pd payload → packetDataSize + payload.length < 2 ^ 31)) := by
  by_cases granted : w.malloc s.log = true
  · rw [forall_prop_of_true granted]
    by_cases small : payload.length < 2 ^ 31
    · have fits : FitsHeader pd.dataSize := by
        rw [FitsHeader, ← length, packetDataSize]
        omega
      have turn := ClipBuffers.turn_copy_done type alive granted fits length small rest
      have log : (ClipSlave.place w (ClipBuffers.asked s payload.length pd true) s.log.length pd
          payload).log = s.log ++ (.malloc (plusHeader pd.dataSize).toNat true ::
            placed w (s.log ++ [.malloc (plusHeader pd.dataSize).toNat true]) s.log.length pd
              payload) := by
        rw [place_log, ClipBuffers.asked, ClipSlave.SlaveState.call_log, List.append_assoc,
          List.singleton_append]
      have allocated : CallExact pd.dataSize (.malloc (plusHeader pd.dataSize).toNat true) :=
        fun _ => ⟨plusHeader_exact.mpr fits, toInt_small (by omega)⟩
      rw [and_iff_right small, ClipKept, ← placed_exact type length _ s.log.length, ends_iff turn,
        clipExactSince_iff log, List.forall_mem_cons]
      exact and_iff_right allocated
    · refine iff_of_false ?_ fun h => small h.1
      by_cases fits : FitsHeader pd.dataSize
      · rw [List.append_assoc,
          ends_iff (ClipBuffers.turn_copy_large type alive granted fits (by omega) _)]
        intro since
        have log : ((ClipBuffers.asked s 0 pd true).call (.free s.log.length)).log = s.log ++
            [.malloc (plusHeader pd.dataSize).toNat true, .free s.log.length] :=
          List.append_assoc _ _ _
        rw [clipExactSince_iff log, List.forall_mem_cons] at since
        have received := (since.1 rfl).2
        rw [toInt_exact, ← length] at received
        exact small received
      · rw [List.append_assoc]
        exact not_ends (ClipBuffers.turn_copy_fault type alive granted fits _)
  · refine iff_of_true ?_ fun yes => absurd yes granted
    have log : (ClipBuffers.asked s 9 pd false).log = s.log ++
      [.malloc (plusHeader pd.dataSize).toNat false] := rfl
    rw [List.append_assoc,
      ends_iff (ClipBuffers.turn_copy_refused type alive (by simpa using granted) _)]
    refine (clipExactSince_iff log).mpr fun c mine => ?_
    obtain rfl := List.mem_singleton.mp mine
    exact fun yes => absurd yes Bool.false_ne_true

end Clip

/-- Every length used for a whole request of an application is exact, or none is used, when a paste
or a wait asks for less than 2^32 - 10 bytes of a memory it can read and gets a response that has an
`int` for a size, and a copy has less than 2^31 bytes, 10 less still when its packet is queued. The
same holds for a copy from a peer. -/
theorem lengths_exact_iff (env : Nat → Env) (s : SlaveState) (f : Request) (w : ClipSlave.World)
    (s' : ClipSlave.SlaveState) (region : UInt8) (recvAt : UInt32) (payload : List UInt8)
    (length : payload.length < 2 ^ 32) (rest : List UInt8) (alive : 1 ≤ s.err)
    (alive' : 1 ≤ s'.err) :
    ((∃ t left outs, (appifSlave env s).exec (f.bytes ++ rest) = some (some t, left, outs) ∧
      ExactSince s t) ↔ AppExact (env s.turn) f) ∧
    ((∃ t left outs, (ClipBuffers.clipifSlave w s').exec
        ((ClipBuffers.Frame.requestCopy region recvAt payload length).bytes ++ rest) =
          some (some t, left, outs) ∧ ClipExactSince (.ofNat payload.length) s' t) ↔
      ClipExact w s' region recvAt payload) := by
  let pd : PacketData := ⟨PacketType.requestCopy.code, region, .ofNat payload.length, recvAt⟩
  have size : payload.length = pd.dataSize.toNat := (UInt32.toNat_ofNat_of_lt' length).symm
  exact ⟨app_exact_iff f rest alive, clip_exact_iff rfl size rest alive'⟩

def keeping : ClipSlave.World := ⟨false, 0, fun _ => true, fun _ => 0, fun _ => 2, fun _ => 0⟩

theorem lengths_exact_two :
    (∃ t left outs, (appifSlave (fun _ => generous) .start).exec ((Request.paste 0 5).bytes ++ []) =
      some (some t, left, outs) ∧ ExactSince .start t) ∧
    ∃ t left outs, (ClipBuffers.clipifSlave keeping .start).exec
        ((ClipBuffers.Frame.requestCopy 0 0 [1, 2] (by decide)).bytes ++ []) =
          some (some t, left, outs) ∧ ClipExactSince (.ofNat 2) .start t := by
  have exact_ := lengths_exact_iff (fun _ => generous) .start (.paste 0 5) keeping .start 0 0 [1, 2]
    (by decide) [] (by decide) (by decide)
  refine ⟨exact_.1.mpr fun _ => ⟨by decide, by decide, by decide⟩, exact_.2.mpr fun _ => ?_⟩
  exact ⟨by decide, fun _ => by decide⟩

/-- A paste of 2^32 - 1 bytes has a packet of 9 allocated, and the header of 10 does not fit it. -/
theorem lengths_exact_wrapped_paste :
    ¬ ∃ t left outs, (appifSlave (fun _ => generous) .start).exec
      ((Request.paste 0 4294967295).bytes ++ []) = some (some t, left, outs) ∧
        ExactSince .start t := by
  intro served
  have fits := ((app_exact_iff (.paste 0 4294967295) [] (by decide)).mp served rfl).1
  exact absurd fits (by decide)

end DistributedClipboard.Interfaces.ExactLengths
