/- module: DistributedClipboard/Interfaces/FrameBoundaries
   source: src/src/interfaces/appif.c, src/src/interfaces/clipif.c
   layer: theorem
   digest: When each turn of a slave takes exactly one frame off its connection. -/

import DistributedClipboard.Interfaces.AppTurns
import DistributedClipboard.Interfaces.ClipBuffers
import DistributedClipboard.Lib.Turns

set_option autoImplicit false
set_option relaxedAutoImplicit false

namespace DistributedClipboard.Interfaces.FrameBoundaries

open DistributedClipboard.Interfaces
open DistributedClipboard.Lib.Stream (turns)
open DistributedClipboard.Lib.Turns
open DistributedClipboard.Mem.Clmem
open DistributedClipboard.Mem.Representation
open DistributedClipboard.Utils.Packet

section Clip

variable {w : ClipSlave.World} {s : ClipSlave.SlaveState}

/-- A turn that does not end the connection has left what is behind its frame, and no less. -/
def ClipWhole (_ : ClipSlave.SlaveState) (_ : ClipBuffers.Frame) (rest : List UInt8)
    (t : ClipSlave.SlaveState) (left : List UInt8) (_ : List (List UInt8)) : Prop :=
  1 ≤ t.err → left = rest

theorem left_whole_iff {err : Int} (live : 1 ≤ err) {payload rest : List UInt8} :
    (1 ≤ err → payload ++ rest = rest) ↔ payload = [] := by
  rw [forall_prop_of_true live]
  exact List.append_left_eq_self

/-- When `clipif_slave` takes a frame whole, or ends the connection. -/
def ClipTaken (w : ClipSlave.World) (s : ClipSlave.SlaveState) : ClipBuffers.Frame → Prop
  | .timeSync _ => w.withParent = true
  | .requestCopy _ _ payload _ =>
    if w.malloc s.log then packetDataSize + payload.length < 2 ^ 32 else payload = []
  | .goodbye => True

theorem fits_iff {payload : List UInt8} (length : payload.length < 2 ^ 32) :
    FitsHeader (.ofNat payload.length) ↔ packetDataSize + payload.length < 2 ^ 32 := by
  rw [FitsHeader, UInt32.toNat_ofNat_of_lt' length]

theorem clip_turn_iff (f : ClipBuffers.Frame) (rest : List UInt8) (alive : 1 ≤ s.err) :
    (∃ t left outs, (ClipBuffers.clipifSlave w s).exec (f.bytes ++ rest) =
      some (some t, left, outs) ∧ ClipWhole s f rest t left outs) ↔ ClipTaken w s f := by
  cases f with
  | timeSync time =>
    by_cases parent : w.withParent = true
    · refine iff_of_true ?_ parent
      by_cases granted : w.malloc s.log = true
      · obtain ⟨t, turn⟩ := ClipBuffers.turn_timeSync_done alive parent granted time rest
        exact ⟨t, rest, [], turn, fun _ => rfl⟩
      · obtain ⟨t, left, turn, ends⟩ := ClipBuffers.turn_timeSync_refused alive parent
          (by simpa using granted) time rest
        exact ⟨t, left, [], turn, fun live => by omega⟩
    · rw [ends_iff (ClipBuffers.turn_timeSync_ignored alive (by simpa using parent) time rest)]
      refine (left_whole_iff (show (1 : Int) ≤ 1 by decide)).trans ?_
      exact iff_of_false (List.cons_ne_nil _ _) parent
  | requestCopy region recvAt payload length =>
    let pd : PacketData := ⟨PacketType.requestCopy.code, region, .ofNat payload.length, recvAt⟩
    have bytes : (ClipBuffers.Frame.requestCopy region recvAt payload length).bytes ++ rest =
        pd.bytes ++ (payload ++ rest) := List.append_assoc _ _ _
    have size : pd.dataSize.toNat = payload.length := UInt32.toNat_ofNat_of_lt' length
    rw [ClipTaken]
    by_cases granted : w.malloc s.log = true
    · rw [if_pos granted, ← fits_iff length]
      by_cases fits : FitsHeader pd.dataSize
      · refine iff_of_true ?_ fits
        by_cases small : payload.length < 2 ^ 31
        · have turn := ClipBuffers.turn_copy_done rfl alive granted fits size.symm small rest
          exact ⟨_, _, _, turn, fun _ => rfl⟩
        · have turn := ClipBuffers.turn_copy_large rfl alive granted fits (by omega)
            (payload ++ rest)
          rw [bytes]
          exact ⟨_, _, _, turn, fun live => absurd live (show ¬ (1 : Int) ≤ 0 by decide)⟩
      · rw [bytes]
        exact iff_of_false (not_ends (ClipBuffers.turn_copy_fault rfl alive granted fits _)) fits
    · rw [if_neg granted, bytes,
        ends_iff (ClipBuffers.turn_copy_refused rfl alive (by simpa using granted) _)]
      exact left_whole_iff (show (1 : Int) ≤ 9 by decide)
  | goodbye =>
    refine iff_of_true ?_ trivial
    exact ⟨_, _, _, ClipBuffers.clipifSlave_exec alive .goodbye rest, fun _ => rfl⟩

end Clip

section App

variable {env : Nat → AppBuffers.Env} {s : AppBuffers.SlaveState}

/-- A turn that does not end the connection has left what is behind its frame, and no less. -/
def AppWhole (_ : AppBuffers.SlaveState) (_ : AppBuffers.Request) (rest : List UInt8)
    (t : AppBuffers.SlaveState) (left : List UInt8) (_ : List (List UInt8)) : Prop :=
  1 ≤ t.err → left = rest

/-- When `appif_slave` takes a frame whole, or ends the connection. -/
def AppTaken (env : Nat → AppBuffers.Env) (s : AppBuffers.SlaveState) : AppBuffers.Request → Prop
  | .paste region dataSize => (env s.turn).packetGranted = true →
    FitsHeader dataSize ∧ memGet (env s.turn).mem region.toNat dataSize.toNat ≠ none
  | .wait region dataSize => (env s.turn).packetGranted = true →
    FitsHeader dataSize ∧ memWaitReturn (env s.turn).mem region.toNat dataSize.toNat ≠ none
  | .copy _ _ payload _ =>
    if (env s.turn).packetGranted then packetDataSize + payload.length < 2 ^ 32 else payload = []
  | .goodbye => True

theorem fetch_turn_iff {type : PacketType} {fetch : Memory → Int → Nat → Option (List UInt8)}
    {emptyEnds : Bool} {pf : PacketFetch} (rest : List UInt8) (alive : 1 ≤ s.err)
    (switch : ∀ t : AppBuffers.SlaveState, AppBuffers.request (env s.turn) t [pf.packetType] =
      AppBuffers.fetchRequest (env s.turn) type fetch emptyEnds t [pf.packetType])
    (bound : ∀ data, fetch (env s.turn).mem pf.region.toNat pf.dataSize.toNat = some data →
      data.length ≤ pf.dataSize.toNat) :
    (∃ t left outs, (AppBuffers.appifSlave env s).exec (pf.bytes ++ rest) =
        some (some t, left, outs) ∧ (1 ≤ t.err → left = rest)) ↔
      ((env s.turn).packetGranted = true → FitsHeader pf.dataSize ∧
        fetch (env s.turn).mem pf.region.toNat pf.dataSize.toNat ≠ none) := by
  by_cases granted : (env s.turn).packetGranted = true
  · rw [forall_prop_of_true granted]
    by_cases right : FitsHeader pf.dataSize ∧
        fetch (env s.turn).mem pf.region.toNat pf.dataSize.toNat ≠ none
    · refine iff_of_true ?_ right
      obtain ⟨fits, some_⟩ := right
      obtain ⟨data, found⟩ := Option.ne_none_iff_exists'.mp some_
      obtain ⟨outs, turn, _⟩ := AppTurns.turn_fetch_done switch alive granted fits found
        (bound data found) rest
      exact ⟨_, _, _, turn, fun _ => rfl⟩
    · refine iff_of_false (not_ends ?_) right
      rw [not_and_or, not_not] at right
      exact AppTurns.turn_fetch_fault switch alive granted right rest
  · refine iff_of_true ?_ fun yes => absurd yes granted
    have turn := AppTurns.turn_fetch_refused switch alive (by simpa using granted) rest
    exact ⟨_, _, _, turn, fun _ => rfl⟩

theorem app_turn_iff (f : AppBuffers.Request) (rest : List UInt8) (alive : 1 ≤ s.err) :
    (∃ t left outs, (AppBuffers.appifSlave env s).exec (f.bytes ++ rest) =
      some (some t, left, outs) ∧ AppWhole s f rest t left outs) ↔ AppTaken env s f := by
  cases f with
  | paste region dataSize =>
    refine fetch_turn_iff rest alive (fun _ => rfl) fun data found => ?_
    rw [memGet_length found]
    exact Nat.min_le_left _ _
  | wait region dataSize =>
    refine fetch_turn_iff rest alive (fun _ => rfl) fun data found => ?_
    rw [memWaitReturn_length found]
    exact Nat.min_le_left _ _
  | copy region recvAt payload length =>
    let pd : PacketData := ⟨PacketType.requestCopy.code, region, .ofNat payload.length, recvAt⟩
    have bytes : (AppBuffers.Request.copy region recvAt payload length).bytes ++ rest =
        pd.bytes ++ (payload ++ rest) := List.append_assoc _ _ _
    have size : pd.dataSize.toNat = payload.length := UInt32.toNat_ofNat_of_lt' length
    rw [AppTaken]
    by_cases granted : (env s.turn).packetGranted = true
    · rw [if_pos granted, ← fits_iff length]
      by_cases fits : FitsHeader pd.dataSize
      · refine iff_of_true ?_ fits
        by_cases small : payload.length < 2 ^ 31
        · obtain ⟨outs, turn, _⟩ :=
            AppTurns.turn_copy_done alive rfl granted fits small size.symm rest
          exact ⟨_, _, _, turn, fun _ => rfl⟩
        · have turn := AppTurns.turn_copy_large alive rfl granted fits (by omega) (payload ++ rest)
          rw [bytes]
          exact ⟨_, _, _, turn, fun live => absurd live (show ¬ (1 : Int) ≤ 0 by decide)⟩
      · rw [bytes]
        exact iff_of_false (not_ends (AppTurns.turn_copy_fault alive rfl granted fits _)) fits
    · rw [if_neg granted, bytes,
        ends_iff (AppTurns.turn_copy_refused alive rfl (by simpa using granted) _)]
      exact left_whole_iff (show (1 : Int) ≤ 9 by decide)
  | goodbye =>
    refine iff_of_true ?_ trivial
    exact ⟨_, _, _, AppTurns.appifSlave_exec alive PacketType.goodbye.code rest, fun _ => rfl⟩

end App

/-- Each turn of a slave that does not end its connection takes exactly one frame, whatever comes
behind it, when `clipif_slave` gets `TIME_SYNC`s from its parent only, when no payload comes whose
packet is not granted, and when no packet is granted that has no room for its header and no read of
the memory goes wrong. -/
theorem frames_taken_iff (w : ClipSlave.World) (fs : List ClipBuffers.Frame)
    (env : Nat → AppBuffers.Env) (rs : List AppBuffers.Request) (more : List UInt8) :
    (Serves (ClipBuffers.clipifSlave w) ClipBuffers.Frame.bytes (fun t => 1 ≤ t.err) ClipWhole more
        .start fs ↔
      Meets (ClipBuffers.clipifSlave w) ClipBuffers.Frame.bytes (fun t => 1 ≤ t.err) (ClipTaken w)
        more .start fs) ∧
    (Serves (AppBuffers.appifSlave env) AppBuffers.Request.bytes (fun t => 1 ≤ t.err) AppWhole more
        .start rs ↔
      Meets (AppBuffers.appifSlave env) AppBuffers.Request.bytes (fun t => 1 ≤ t.err)
        (AppTaken env) more .start rs) :=
  ⟨serves_iff (fun _ f rest alive => clip_turn_iff f rest alive) (by decide),
    serves_iff (fun _ f rest alive => app_turn_iff f rest alive) (by decide)⟩

section Boundary

variable {n : Nat} {more left : List UInt8}

theorem clip_at_frame {w : ClipSlave.World} {fs : List ClipBuffers.Frame} {t : ClipSlave.SlaveState}
    (serves : Serves (ClipBuffers.clipifSlave w) ClipBuffers.Frame.bytes (fun t => 1 ≤ t.err)
      ClipWhole more .start fs) (count : n ≤ fs.length)
    (reached : turns (ClipBuffers.clipifSlave w) n .start
      (stream ClipBuffers.Frame.bytes fs more) = some (t, left)) (live : 1 ≤ t.err) :
    left = stream ClipBuffers.Frame.bytes (fs.drop n) more := by
  refine serves.boundary (fun _ _ _ _ _ _ whole => whole) (fun s finished => ?_) count reached live
  rw [ClipBuffers.clipifSlave, if_pos (by omega)]
  rfl

theorem app_at_frame {env : Nat → AppBuffers.Env} {fs : List AppBuffers.Request}
    {t : AppBuffers.SlaveState}
    (serves : Serves (AppBuffers.appifSlave env) AppBuffers.Request.bytes (fun t => 1 ≤ t.err)
      AppWhole more .start fs) (count : n ≤ fs.length)
    (reached : turns (AppBuffers.appifSlave env) n .start
      (stream AppBuffers.Request.bytes fs more) = some (t, left)) (live : 1 ≤ t.err) :
    left = stream AppBuffers.Request.bytes (fs.drop n) more := by
  refine serves.boundary (fun _ _ _ _ _ _ whole => whole) (fun s finished => ?_) count reached live
  rw [AppBuffers.appifSlave, if_pos (by omega)]
  rfl

end Boundary

/-- A slave whose connection is not the one to the parent. -/
def sibling : ClipSlave.World := { LinkCodec.refusing with withParent := false }

/-- A sync packet from a clipboard that is not the parent: its time is left on the stream, and would
be read as a goodbye. -/
theorem frames_taken_sibling_sync :
    ¬ Serves (ClipBuffers.clipifSlave sibling) ClipBuffers.Frame.bytes (fun t => 1 ≤ t.err)
      ClipWhole [] .start [.timeSync 2] := by
  rintro ⟨t, left, outs, turn, whole, _⟩
  have ignored := ClipBuffers.turn_timeSync_ignored (w := sibling) (s := .start) (by decide) rfl 2 []
  have same := ignored.symm.trans turn
  cases same
  exact absurd (whole (by decide)) (by decide)

end DistributedClipboard.Interfaces.FrameBoundaries
