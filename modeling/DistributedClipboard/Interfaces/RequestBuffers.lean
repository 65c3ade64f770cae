/- module: DistributedClipboard/Interfaces/RequestBuffers
   source: src/src/interfaces/appif.c, src/src/interfaces/clipif.c
   layer: model
   digest: What a turn of a slave does with its buffers, whatever its receives return. -/

import DistributedClipboard.Interfaces.AppCalls
import DistributedClipboard.Interfaces.LinkCodec
import DistributedClipboard.Lib.Ledger

set_option autoImplicit false
set_option relaxedAutoImplicit false

namespace DistributedClipboard.Interfaces.RequestBuffers

open DistributedClipboard.Interfaces.AppCalls (AppWorld Response appifSlave)
open DistributedClipboard.Interfaces.ClipSlave
open DistributedClipboard.Interfaces.LinkCodec (sendSize)
open DistributedClipboard.Lib.Ledger
open DistributedClipboard.Utils.Packet

/-- The transfers of a turn on its socket: for each its result, and the bytes that a receive has
left in its buffer. A short stream or an error is any other result than the size. -/
structure Socket where
  received : Nat → Int × List UInt8
  sent : Nat → Int

def Socket.answer (io : Socket) (n size : Nat) : Int × List UInt8 :=
  if 0 < toInt size then io.received n else (0, [])

/-- The next transfer of a turn is a receive. -/
def Socket.recvData (io : Socket) (size : Nat) : StateM Nat (Int × List UInt8) :=
  fun n => (io.answer n size, n + 1)

def Socket.sendData (io : Socket) (_ : List UInt8) (_ : Nat) : StateM Nat Int :=
  fun n => (io.sent n, n + 1)

/-- A turn of `appif_slave`; `none` when its loop has ended. -/
def appTurn (w : AppWorld) (io : Socket) (s : SlaveState) : Option SlaveState :=
  (appifSlave w io.recvData io.sendData s 0).1

/-- A turn of `clipif_slave`. -/
def clipTurn (w : World) (io : Socket) (s : SlaveState) : Option SlaveState :=
  (clipifSlave w io.recvData s 0).1

def Reads (io : Socket) (s : SlaveState) (type : PacketType) : Prop :=
  1 ≤ s.err ∧ (io.received 0).1 = packetSize ∧
    PacketType.ofCode ((io.received 0).2.getD 0 0) = some type

def copyHeader (io : Socket) : PacketData :=
  PacketData.ofBytes ((io.received 0).2 ++ (io.received 1).2)

/-- `appif_slave` gets the header of a copy and a buffer for the packet, and then a receive of the
payload returns another value than its size. -/
def CopyCutShort (w : World) (io : Socket) (s : SlaveState) : Prop :=
  Reads io s .requestCopy ∧ (io.received 1).1 = (packetDataSize - packetSize : Nat) ∧
    w.malloc s.log = true ∧
    (io.answer 2 (copyHeader io).dataSize.toNat).1 ≠ (copyHeader io).dataSize.toNat

/-- `clipif_slave` gets a `TIME_SYNC` from the parent and a buffer for it, and then the receive of the
time returns another value than its size. -/
def SyncCutShort (w : World) (io : Socket) (s : SlaveState) : Prop :=
  Reads io s .timeSync ∧ w.withParent = true ∧ w.malloc s.log = true ∧
    (io.received 1).1 ≠ (packetSyncSize - packetSize : Nat)

theorem Reads.unique {io : Socket} {s : SlaveState} {type type' : PacketType}
    (reads : Reads io s type) (other : Reads io s type') : type = type' :=
  Option.some.inj (reads.2.2.symm.trans other.2.2)

instance (io : Socket) (s : SlaveState) (type : PacketType) : Decidable (Reads io s type) :=
  inferInstanceAs (Decidable (_ ∧ _))

instance (w : World) (io : Socket) (s : SlaveState) : Decidable (CopyCutShort w io s) :=
  inferInstanceAs (Decidable (_ ∧ _))

instance (w : World) (io : Socket) (s : SlaveState) : Decidable (SyncCutShort w io s) :=
  inferInstanceAs (Decidable (_ ∧ _))

def entry : Call → Entry
  | .malloc _ granted => if granted then .alloc else .other
  | .free b => .release b
  | .clipifAddBroadcast b _ err => if err = 0 then .handOver b else .other
  | .timeMSync _ | .timeMNow _ | .memPut .. => .other

def entries (log : List Call) : List Entry := log.map entry

def accepted? : Call → Option (Nat × List UInt8)
  | .clipifAddBroadcast b packet err => if err = 0 then some (b, packet) else none
  | _ => none

def accepted (log : List Call) : List (Nat × List UInt8) := log.filterMap accepted?

/-- What the turn of a slave adds to its log: it gives away no buffer but its own, none of them twice,
keeps one exactly when the receive of a packet is cut short, and hands over packets that have a size
to send. -/
structure Spent (cutShort : Prop) (n : Nat) (calls : List Call) : Prop where
  sound : Sound n (entries calls)
  complete : Complete n (entries calls) ↔ ¬ cutShort
  sendable : ∀ p ∈ accepted calls, sendSize p.2 ≠ 0

def Adds (cutShort : Prop) (s t : SlaveState) : Prop :=
  ∃ calls, t.log = s.log ++ calls ∧ Spent cutShort s.log.length calls

section Pieces

variable {n b : Nat} {calls later : List Call} {cutShort : Prop}

theorem entries_length (log : List Call) : (entries log).length = log.length := List.length_map _

theorem entries_append (calls later : List Call) :
    entries (calls ++ later) = entries calls ++ entries later := List.map_append

theorem accepted_append (calls later : List Call) :
    accepted (calls ++ later) = accepted calls ++ accepted later := List.filterMap_append

/-- A piece of a log that begins at place `n`, by the buffers it allocates and those it gives away. -/
structure Piece (n : Nat) (calls : List Call) (allocates gives : List Nat) : Prop where
  allocated : buffers n (entries calls) = allocates
  gave : given (entries calls) = gives
  sendable : ∀ p ∈ accepted calls, sendSize p.2 ≠ 0

theorem Piece.append {bs cs bs' cs' : List Nat} (first : Piece n calls bs cs)
    (second : Piece (n + calls.length) later bs' cs') :
    Piece n (calls ++ later) (bs ++ bs') (cs ++ cs') := by
  constructor
  · rw [entries_append, buffers_append, entries_length, first.allocated, second.allocated]
  · rw [entries_append, given_append, first.gave, second.gave]
  · intro p mine
    rw [accepted_append, List.mem_append] at mine
    rcases mine with mine | mine
    · exact first.sendable p mine
    · exact second.sendable p mine

theorem Piece.spent {bs : List Nat} (h : Piece n calls bs bs) (whole : ¬ cutShort) (once : bs.Nodup) :
    Spent cutShort n calls := by
  have all : given (entries calls) = buffers n (entries calls) := h.gave.trans h.allocated.symm
  refine ⟨⟨?_, fun b mine => ?_⟩, ⟨fun _ => whole, fun _ b mine => ?_⟩, h.sendable⟩
  · rw [h.gave]
    exact once
  · rw [← all]
    exact mine
  · rw [all]
    exact mine

theorem Piece.malloc (size : Nat) : Piece n [.malloc size true] [n] [] :=
  ⟨rfl, rfl, List.forall_mem_nil _⟩

theorem Piece.free : Piece n [.free b] [] [b] := ⟨rfl, rfl, List.forall_mem_nil _⟩

def Silent (calls : List Call) : Prop := ∀ c ∈ calls, entry c = .other

theorem accepted_of_other {c : Call} (h : entry c = .other) : accepted? c = none := by
  cases c with
  | clipifAddBroadcast b packet err =>
    by_cases taken : err = 0
    · simp [entry, taken] at h
    · simp [accepted?, taken]
  | malloc _ _ | free _ | timeMSync _ | timeMNow _ | memPut _ _ _ _ _ => rfl

theorem silent_nil : Silent [] := List.forall_mem_nil _

theorem Silent.cons {c : Call} (here : entry c = .other) (h : Silent calls) : Silent (c :: calls) := by
  intro d mine
  rcases List.mem_cons.mp mine with rfl | mine
  · exact here
  · exact h d mine

theorem Silent.piece (h : Silent calls) (n : Nat) : Piece n calls [] [] := by
  induction calls generalizing n with
  | nil => exact ⟨rfl, rfl, List.forall_mem_nil _⟩
  | cons c calls ih =>
    have here : entry c = .other := h c List.mem_cons_self
    have rest := ih (fun c later => h c (List.mem_cons_of_mem _ later)) (n + 1)
    constructor
    · rw [entries, List.map_cons, here]
      exact rest.allocated
    · rw [entries, List.map_cons, here]
      exact rest.gave
    · rw [accepted, List.filterMap_cons, accepted_of_other here]
      exact rest.sendable

inductive Disposal (b : Nat) : List Call → Prop
  | free : Disposal b [.free b]
  | accept {packet : List UInt8} (sendable : sendSize packet ≠ 0) :
    Disposal b [.clipifAddBroadcast b packet 0]
  | refuse {packet : List UInt8} {err : Int} (refused : err ≠ 0) :
    Disposal b [.clipifAddBroadcast b packet err, .free b]

theorem Disposal.piece (h : Disposal b calls) (n : Nat) : Piece n calls [] [b] := by
  cases h with
  | free => exact .free
  | accept sendable =>
    refine ⟨rfl, rfl, fun p mine => ?_⟩
    obtain rfl := List.mem_singleton.mp mine
    exact sendable
  | @refuse packet err refused =>
    have refusal : entry (.clipifAddBroadcast b packet err) = .other := if_neg refused
    exact ((silent_nil.cons refusal).piece n).append .free

theorem Spent.kept (cut : cutShort) (size : Nat) : Spent cutShort n [.malloc size true] where
  sound := ⟨List.nodup_nil, List.forall_mem_nil _⟩
  complete := by
    refine ⟨fun all => ?_, fun whole => absurd cut whole⟩
    have given_ := all n List.mem_cons_self
    cases given_
  sendable := List.forall_mem_nil _

theorem Spent.disposed {middle tail : List Call} (size : Nat) (whole : ¬ cutShort)
    (silent : Silent middle) (disposal : Disposal n tail) :
    Spent cutShort n (.malloc size true :: (middle ++ tail)) := by
  have rest := (silent.piece (n + 1)).append (disposal.piece _)
  have all : Piece n (.malloc size true :: (middle ++ tail)) [n] [n] := (Piece.malloc size).append rest
  exact all.spent whole (List.nodup_singleton n)

theorem Spent.acknowledged {middle tail : List Call} (size : Nat) (granted : Bool)
    (whole : ¬ cutShort) (silent : Silent middle) (disposal : Disposal n tail) {ack : Nat}
    (place : ack = n + 1 + middle.length) :
    Spent cutShort n (.malloc size true :: (middle ++ .malloc packetFetchSize granted ::
      (tail ++ if granted then [.free ack] else []))) := by
  cases granted with
  | false =>
    have refused : entry (.malloc packetFetchSize false) = .other := rfl
    have rest := ((silent_nil.cons refused).piece (n + 1 + middle.length)).append (disposal.piece _)
    have all : Piece n _ [n] [n] := (Piece.malloc size).append ((silent.piece (n + 1)).append rest)
    rw [if_neg (by decide), List.append_nil]
    exact all.spent whole (List.nodup_singleton n)
  | true =>
    subst place
    have frees := (disposal.piece (n + 1 + middle.length + 1)).append
      (.free (b := n + 1 + middle.length))
    have rest := (Piece.malloc packetFetchSize).append frees
    have all : Piece n _ [n, n + 1 + middle.length] [n, n + 1 + middle.length] :=
      (Piece.malloc size).append ((silent.piece (n + 1)).append rest)
    rw [if_pos rfl]
    refine all.spent whole ?_
    rw [List.nodup_cons]
    refine ⟨fun same => ?_, List.nodup_singleton _⟩
    have same := List.mem_singleton.mp same
    omega

end Pieces

section Adds

variable {s t : SlaveState} {cutShort : Prop}

theorem Adds.quiet (calls : List Call) (whole : ¬ cutShort) (log : t.log = s.log ++ calls)
    (silent : Silent calls) : Adds cutShort s t := by
  exact ⟨calls, log, (silent.piece _).spent whole List.nodup_nil⟩

theorem Adds.same (whole : ¬ cutShort) (log : t.log = s.log) : Adds cutShort s t := by
  refine .quiet [] whole ?_ silent_nil
  rw [log, List.append_nil]

theorem Adds.refused (size : Nat) (whole : ¬ cutShort) (log : t.log = s.log ++ [.malloc size false]) :
    Adds cutShort s t := by
  have refused : entry (.malloc size false) = .other := rfl
  exact .quiet [.malloc size false] whole log (silent_nil.cons refused)

theorem Adds.kept (size : Nat) (cut : cutShort) (log : t.log = s.log ++ [.malloc size true]) :
    Adds cutShort s t := ⟨_, log, .kept cut size⟩

def Disposes (b : Nat) (s t : SlaveState) : Prop :=
  ∃ middle tail, t.log = s.log ++ (middle ++ tail) ∧ Silent middle ∧ Disposal b tail

theorem Adds.disposed {m : SlaveState} {size : Nat} (whole : ¬ cutShort)
    (log : m.log = s.log ++ [.malloc size true]) (disposes : Disposes s.log.length m t) :
    Adds cutShort s t := by
  obtain ⟨middle, tail, more, silent, disposal⟩ := disposes
  refine ⟨.malloc size true :: (middle ++ tail), ?_, .disposed size whole silent disposal⟩
  rw [more, log, List.append_assoc]
  rfl

theorem disposes_free (s : SlaveState) (b : Nat) : Disposes b s (s.call (.free b)) :=
  ⟨[], [.free b], rfl, silent_nil, .free⟩

/-- `free(response)` -/
def freed (response : Option Response) : List Call :=
  (response.map fun r => Call.free r.buffer).toList

theorem Adds.fetched {m : SlaveState} {r : Response} (size : Nat) (middle : List Call)
    (whole : ¬ cutShort) (log : m.log = s.log ++ .malloc size true :: middle)
    (silent : Silent middle) (own : r.buffer = s.log.length)
    (ends : t.log = m.log ++ freed (some r)) : Adds cutShort s t := by
  refine ⟨.malloc size true :: (middle ++ [.free s.log.length]), ?_,
    .disposed size whole silent .free⟩
  rw [ends, log, ← own]
  simp [freed]

end Adds

end DistributedClipboard.Interfaces.RequestBuffers
