/- module: DistributedClipboard/Interfaces/BroadcastSteps
   source: src/src/interfaces/clipif.c, src/src/interfaces/appif.c
   layer: theorem
   digest: What one step can do to the packets. -/

import DistributedClipboard.Interfaces.Broadcasts

set_option autoImplicit false
set_option relaxedAutoImplicit false

namespace DistributedClipboard.Interfaces.BroadcastSteps

open DistributedClipboard.Common
open DistributedClipboard.Interfaces.Broadcasts
open DistributedClipboard.Interfaces.LinkCodec (sendSize goodbye)
open DistributedClipboard.Interfaces.Links (sendTurn sendTurn_cases)
open DistributedClipboard.Interfaces.Tables (Fd Slot)
open DistributedClipboard.Utils.Packet

universe u

variable {T : Type u} [DecidableEq T]

/-- The packet that a slave has allocated and not handed over. -/
def holds : SlavePc → Option Addr
  | .idle => none
  | .receive _ _ a | .broadcast _ a | .free a => some a

/-- The goodbye packet that the finalizer has not handed over. -/
def bye : Finalize → Option Addr
  | .push a => some a
  | _ => none

def current : BroadcastPc → List Entry
  | .size msg | .slot msg _ _ | .send msg _ _ _ | .free msg => [msg]
  | .pop | .ended => []

def pending (s : State T) : List Entry := current s.broadcaster ++ s.broadcasts

def alive : ClockPc → Bool
  | .absent | .ended => false
  | _ => true

def preparing : Finalize → Bool
  | .idle | .push _ => true
  | _ => false

def accept (s : State T) (p : Place) (fromFd : Int) : State T :=
  { s with
    broadcasts := s.broadcasts ++ [⟨p, fromFd, s.accepted.length⟩]
    accepted := s.accepted ++ [s.read p] }

/-- There is memory for the `broadcast_t` and for its node. -/
def Granted (room : Room) : Prop := room.broadcast = true ∧ room.node = true

/-- `locked` after a `queue_push` that fails: the lock is kept only when the queue is terminated and
there was memory. -/
def Keeps (s : State T) (room : Room) (locked : Bool) : Prop :=
  locked = true → s.locked = true ∨ s.terminate = true ∧ Granted room

inductive Change (s : State T) : Label T → State T → Prop
  | fails (t : T) (kind : Kind) (sock : Fd) (bytes : List UInt8) :
      Change s (.receive t kind sock none bytes) s
  | allocates (t : T) (kind : Kind) (sock : Fd) (a : Addr) (bytes : List UInt8)
      (pc : s.threads t = .idle) (dead : s.store (.heap a) = none) :
      Change s (.receive t kind sock (some a) bytes)
        ((s.setStore (.heap a) (some bytes)).goto t (.receive kind sock a))
  | fills (t : T) (bytes : List UInt8) (kind : Kind) (sock : Fd) (a : Addr)
      (pc : s.threads t = .receive kind sock a) :
      Change s (.fill t bytes) (s.setStore (.heap a) (some bytes))
  | short (t : T) (pc : SlavePc) (keeps : ∀ a, holds pc = some a → holds (s.threads t) = some a) :
      Change s (.short t) (s.goto t pc)
  | completes (t : T) (stored : Bool) (pc : SlavePc)
      (keeps : ∀ a, holds pc = some a → holds (s.threads t) = some a) :
      Change s (.complete t stored) (s.goto t pc)
  | accepted (t : T) (room : Room) (sock : Fd) (a : Addr) (pc : s.threads t = .broadcast sock a)
      (opened : s.terminate = false) (granted : Granted room) :
      Change s (.broadcast t room) ((accept s (.heap a) sock).goto t .idle)
  | refused (t : T) (room : Room) (sock : Fd) (a : Addr) (locked : Bool)
      (pc : s.threads t = .broadcast sock a) (kept : Keeps s room locked) :
      Change s (.broadcast t room) ({ s with locked := locked }.goto t (.free a))
  | frees (t : T) (a : Addr) (pc : s.threads t = .free a) :
      Change s (.free t) ((s.setStore (.heap a) none).goto t .idle)
  | ticks (now : UInt32) (room : Room) (pc : ClockPc) (before : alive s.clock = true)
      (after : alive pc = true) : Change s (.clock now room) { s with clock := pc }
  | stamps (now : UInt32) (room : Room) (pc : s.clock = .stamp) :
      Change s (.clock now room) { s.setStore .clock (some (stamped now)) with clock := .info }
  | clockAccepted (now : UInt32) (room : Room) (pc : s.clock = .broadcast)
      (opened : s.terminate = false) (granted : Granted room) :
      Change s (.clock now room) { accept s .clock (-1) with clock := .sleep }
  | clockRefused (now : UInt32) (room : Room) (locked : Bool) (pc : s.clock = .broadcast)
      (kept : Keeps s room locked) :
      Change s (.clock now room) { s with locked := locked, clock := .sleep }
  | clockEnds (before : alive s.clock = true) :
      Change s .cancelClock { s.setStore .clock none with clock := .ended }
  | orphan (time : UInt32) (child : s.root = false) : Change s (.orphan time) (startClock s time)
  | connect (i : Slot) (fd : Fd) (idle : s.finalize = .idle) (free : s.connections i = none)
      (valid : 0 < fd) :
      Change s (.connect i fd) { s with
        connections := Function.update s.connections i (some (fd, s.links))
        links := s.links + 1 }
  | disconnect (i : Slot) (idle : sending s i = false) :
      Change s (.disconnect i) { s with connections := Function.update s.connections i none }
  | pops (ret : Option Nat) (msg : Entry) (rest : List Entry) (pc : s.broadcaster = .pop)
      (queue : s.broadcasts = msg :: rest) :
      Change s (.broadcaster ret) { s with broadcasts := rest, broadcaster := .size msg }
  | ends (ret : Option Nat) (pc : s.broadcaster = .pop) (queue : s.broadcasts = [])
      (closed : s.terminate = true) : Change s (.broadcaster ret) (s.broadcastGoto .ended)
  | sizes (ret : Option Nat) (msg : Entry) (pc : s.broadcaster = .size msg) :
      Change s (.broadcaster ret)
        ((s.use msg.p).broadcastGoto (.slot msg (sendSize (s.read msg.p)) 0))
  | skips (ret : Option Nat) (msg : Entry) (pc : s.broadcaster = .size msg)
      (zero : sendSize (s.read msg.p) = 0) :
      Change s (.broadcaster ret) ((s.use msg.p).broadcastGoto .pop)
  | calls (ret : Option Nat) (msg : Entry) (size : UInt32) (i : Slot) (fd : Fd) (k : Nat)
      (pc : s.broadcaster = .slot msg size i) (there : s.connections i = some (fd, k)) :
      Change s (.broadcaster ret) { s with
        broadcaster := .send msg size i 0
        calls := Function.update s.calls k (s.calls k ++ [msg.number]) }
  | passes (ret : Option Nat) (msg : Entry) (size : UInt32) (i : Slot)
      (pc : s.broadcaster = .slot msg size i)
      (not : ∀ fd k, s.connections i = some (fd, k) → (fd : Int) = msg.fromFd) :
      Change s (.broadcaster ret) (s.broadcastGoto (.slot msg size (i + 1)))
  | rounds (ret : Option Nat) (msg : Entry) (size : UInt32) (i : Nat)
      (pc : s.broadcaster = .slot msg size i) (finished : maxClipboards ≤ i) :
      Change s (.broadcaster ret) (s.broadcastGoto (.free msg))
  | writes (ret : Option Nat) (msg : Entry) (size : UInt32) (i : Slot) (start count : Nat) (fd : Fd)
      (k : Nat) (pc : s.broadcaster = .send msg size i start)
      (there : s.connections i = some (fd, k))
      (fits : ((start + count : Nat) : Int) ≤ toInt size.toNat) :
      Change s (.broadcaster ret) { s.use msg.p with
        broadcaster := .send msg size i (start + count)
        wire := Function.update s.wire k (s.wire k ++
          [⟨msg.number, start, count, ((s.read msg.p).drop start).take count⟩]) }
  | returns (ret : Option Nat) (msg : Entry) (size : UInt32) (i : Slot) (start : Nat)
      (pc : s.broadcaster = .send msg size i start)
      (stops : ret = none ∨ toInt size.toNat ≤ start) :
      Change s (.broadcaster ret) (s.broadcastGoto (.slot msg size (i + 1)))
  | releases (ret : Option Nat) (msg : Entry) (pc : s.broadcaster = .free msg)
      (heap : msg.fromFd ≠ -1) :
      Change s (.broadcaster ret) (((s.use msg.p).setStore msg.p none).broadcastGoto .pop)
  | leaves (ret : Option Nat) (msg : Entry) (pc : s.broadcaster = .free msg)
      (clock : msg.fromFd = -1) : Change s (.broadcaster ret) (s.broadcastGoto .pop)
  | prepares (new : Addr) (room : Room) (pc : s.finalize = .idle)
      (dead : s.store (.heap new) = none) :
      Change s (.finalize new room)
        { s.setStore (.heap new) (some goodbye) with finalize := .push new }
  | byeAccepted (new : Addr) (room : Room) (a : Addr) (pc : s.finalize = .push a)
      (opened : s.terminate = false) :
      Change s (.finalize new room)
        { accept s (.heap a) 0 with finalize := .role, goodbye := some s.accepted.length }
  | byeRefused (new : Addr) (room : Room) (a : Addr) (locked : Bool) (pc : s.finalize = .push a)
      (kept : locked = true → s.locked = true ∨ s.terminate = true) :
      Change s (.finalize new room)
        { s with locked := locked, finalize := .role, goodbye := none }
  | finalizes (new : Addr) (room : Room) (root cancelClock terminate : Bool) (pc : Finalize)
      (before : preparing s.finalize = false) (after : preparing pc = false)
      (child : root = false → s.root = false) (closed : s.terminate = true → terminate = true) :
      Change s (.finalize new room) { s with
        root := root, cancelClock := cancelClock, terminate := terminate, finalize := pc }

section Inversion

variable {verbose : Bool} {s s' : State T}

omit [DecidableEq T] in
theorem queuePush_cases {p : Place} {fromFd : Int} {node : Bool} {r : Int}
    (h : queuePush s p fromFd node = some (s', r)) :
    (r = 0 ∧ s.terminate = false ∧ node = true ∧ s' = accept s p fromFd) ∨
      (r ≠ 0 ∧ ∃ locked, s' = { s with locked := locked } ∧
        (locked = true → s.locked = true ∨ s.terminate = true ∧ node = true)) := by
  unfold queuePush at h
  split at h
  · rename_i memory
    split at h
    · cases h
    · split at h
      · rename_i closed
        cases h
        exact .inr ⟨by decide, true, rfl, fun _ => .inr ⟨closed, memory⟩⟩
      · rename_i opened
        cases h
        exact .inl ⟨rfl, Bool.eq_false_iff.mpr opened, memory, rfl⟩
  · cases h
    exact .inr ⟨by decide, s.locked, rfl, .inl⟩

omit [DecidableEq T] in
theorem clipifAddBroadcast_cases {p : Place} {fromFd : Int} {room : Room} {r : Int}
    (h : clipifAddBroadcast s p fromFd room = some (s', r)) :
    (r = 0 ∧ s.terminate = false ∧ Granted room ∧ s' = accept s p fromFd) ∨
      (r ≠ 0 ∧ ∃ locked, s' = { s with locked := locked } ∧ Keeps s room locked) := by
  unfold clipifAddBroadcast at h
  split at h
  · rename_i memory
    obtain ⟨rfl, opened, node, rfl⟩ | ⟨failed, locked, rfl, kept⟩ := queuePush_cases h
    · exact .inl ⟨rfl, opened, ⟨memory, node⟩, rfl⟩
    · refine .inr ⟨failed, locked, rfl, fun now => ?_⟩
      exact (kept now).imp_right fun ⟨closed, node⟩ => ⟨closed, memory, node⟩
  · cases h
    exact .inr ⟨by decide, s.locked, rfl, .inl⟩

theorem change_of_slave {a : Label T} (edge : slaveStep s a = some s') : Change s a s' := by
  cases a with
  | receive t kind sock new bytes =>
    simp only [slaveStep] at edge
    split at edge
    case h_1 pc =>
      obtain ⟨dead, now⟩ := Option.ite_none_right_eq_some.mp edge
      obtain rfl := Option.some.inj now
      exact .allocates t kind sock _ bytes pc dead
    case h_2 pc =>
      obtain rfl := Option.some.inj edge
      exact .fails t kind sock bytes
    case h_3 => cases edge
  | fill t bytes =>
    simp only [slaveStep] at edge
    split at edge
    case h_1 kind sock a pc =>
      obtain rfl := Option.some.inj edge
      exact .fills t bytes kind sock a pc
    case h_2 => cases edge
  | short t =>
    simp only [slaveStep] at edge
    split at edge
    case h_1 sock a pc =>
      obtain rfl := Option.some.inj edge
      exact .short t _ (by rw [pc]; exact fun _ => id)
    case h_2 kind sock a _ pc =>
      obtain rfl := Option.some.inj edge
      exact .short t _ (by simp [holds])
    case h_3 => cases edge
  | complete t stored =>
    simp only [slaveStep] at edge
    split at edge
    case h_1 sock a pc =>
      obtain rfl := Option.some.inj edge
      exact .completes t stored _ (by rw [pc]; exact fun _ => id)
    case h_2 kind sock a _ pc =>
      split at edge
      · obtain rfl := Option.some.inj edge
        exact .completes t stored _ (by rw [pc]; exact fun _ => id)
      · obtain rfl := Option.some.inj edge
        exact .completes t stored _ (by rw [pc]; exact fun _ => id)
    case h_3 => cases edge
  | broadcast t room =>
    simp only [slaveStep] at edge
    split at edge
    case h_1 sock a pc =>
      obtain ⟨⟨u, r⟩, pushed, rfl⟩ := Option.map_eq_some_iff.mp edge
      obtain ⟨rfl, opened, granted, rfl⟩ | ⟨failed, locked, rfl, kept⟩ :=
        clipifAddBroadcast_cases pushed
      · exact .accepted t room sock a pc opened granted
      · rw [if_pos failed]
        exact .refused t room sock a locked pc kept
    case h_2 => cases edge
  | free t =>
    simp only [slaveStep] at edge
    split at edge
    case h_1 a pc =>
      obtain rfl := Option.some.inj edge
      exact .frees t a pc
    case h_2 => cases edge
  | clock | cancelClock | orphan | connect | disconnect | broadcaster | finalize => cases edge

theorem change_of_clock {now : UInt32} {room : Room}
    (edge : clipifClockMan s now room = some s') : Change s (.clock now room) s' := by
  cases pc : s.clock with
  | absent | ended =>
    simp only [clipifClockMan, pc] at edge
    cases edge
  | sleep | info =>
    simp only [clipifClockMan, pc] at edge
    obtain rfl := Option.some.inj edge
    exact .ticks now room _ (by rw [pc]; rfl) rfl
  | stamp =>
    simp only [clipifClockMan, pc] at edge
    obtain rfl := Option.some.inj edge
    exact .stamps now room pc
  | broadcast =>
    simp only [clipifClockMan, pc] at edge
    obtain ⟨⟨u, r⟩, pushed, rfl⟩ := Option.map_eq_some_iff.mp edge
    obtain ⟨-, opened, granted, rfl⟩ | ⟨-, locked, rfl, kept⟩ := clipifAddBroadcast_cases pushed
    · exact .clockAccepted now room pc opened granted
    · exact .clockRefused now room locked pc kept

theorem change_of_broadcaster {ret : Option Nat} (edge : clipifBroadcast s ret = some s') :
    Change s (.broadcaster ret) s' := by
  cases pc : s.broadcaster with
  | pop =>
    simp only [clipifBroadcast, pc] at edge
    split at edge
    · cases edge
    · split at edge
      case h_1 msg rest queue =>
        obtain rfl := Option.some.inj edge
        exact .pops ret msg rest pc queue
      case h_2 queue =>
        obtain ⟨closed, now⟩ := Option.ite_none_right_eq_some.mp edge
        obtain rfl := Option.some.inj now
        exact .ends ret pc queue closed
  | size msg =>
    simp only [clipifBroadcast, pc] at edge
    split at edge
    · obtain rfl := Option.some.inj edge
      exact .sizes ret msg pc
    · rename_i zero
      obtain rfl := Option.some.inj edge
      exact .skips ret msg pc (not_not.mp zero)
  | slot msg size i =>
    simp only [clipifBroadcast, pc] at edge
    split at edge
    · rename_i inside
      split at edge
      case h_1 fd k there =>
        split at edge
        · obtain rfl := Option.some.inj edge
          exact .calls ret msg size ⟨i, inside⟩ fd k pc there
        · rename_i same
          obtain rfl := Option.some.inj edge
          refine .passes ret msg size ⟨i, inside⟩ pc ?_
          intro fd' k' there'
          obtain ⟨rfl, rfl⟩ := Prod.mk.inj (Option.some.inj (there.symm.trans there'))
          exact not_not.mp same
      case h_2 empty =>
        obtain rfl := Option.some.inj edge
        refine .passes ret msg size ⟨i, inside⟩ pc ?_
        intro fd k there
        rw [empty] at there
        cases there
    · rename_i outside
      obtain rfl := Option.some.inj edge
      exact .rounds ret msg size i pc (by omega)
  | send msg size i start =>
    simp only [clipifBroadcast, pc] at edge
    split at edge
    case h_1 sent fd k turn there =>
      obtain rfl := Option.some.inj edge
      obtain ⟨no, -⟩ | ⟨count, -, same, fits⟩ | ⟨no, -⟩ := sendTurn_cases turn
      · cases no
      · cases same
        rw [Nat.add_sub_cancel_left]
        exact .writes ret msg size i start count fd k pc there fits
      · cases no
    case h_2 turn =>
      obtain rfl := Option.some.inj edge
      refine .returns ret msg size i start pc ?_
      obtain ⟨-, failed, -⟩ | ⟨count, -, no, -⟩ | ⟨-, finished⟩ := sendTurn_cases turn
      · exact .inl failed
      · cases no
      · exact .inr finished
    case h_3 => cases edge
  | free msg =>
    simp only [clipifBroadcast, pc] at edge
    split at edge
    · rename_i heap
      obtain rfl := Option.some.inj edge
      exact .releases ret msg pc heap
    · rename_i clock
      obtain rfl := Option.some.inj edge
      exact .leaves ret msg pc (not_not.mp clock)
  | ended =>
    simp only [clipifBroadcast, pc] at edge
    cases edge

theorem change_of_finalize {new : Addr} {room : Room} (edge : clipifFinalize s new room = some s') :
    Change s (.finalize new room) s' := by
  cases pc : s.finalize with
  | idle =>
    simp only [clipifFinalize, pc] at edge
    obtain ⟨dead, now⟩ := Option.ite_none_right_eq_some.mp edge
    obtain rfl := Option.some.inj now
    exact .prepares new room pc dead
  | push a =>
    simp only [clipifFinalize, pc] at edge
    obtain ⟨⟨u, r⟩, pushed, rfl⟩ := Option.map_eq_some_iff.mp edge
    obtain ⟨rfl, opened, -, rfl⟩ | ⟨failed, locked, rfl, kept⟩ := queuePush_cases pushed
    · exact .byeAccepted new room a pc opened
    · rw [if_neg failed]
      exact .byeRefused new room a locked pc fun now => (kept now).imp_right And.left
  | role =>
    simp only [clipifFinalize, pc] at edge
    split at edge
    · obtain rfl := Option.some.inj edge
      exact .finalizes new room s.root true s.terminate _ (by rw [pc]; rfl) rfl id id
    · obtain rfl := Option.some.inj edge
      exact .finalizes new room true s.cancelClock s.terminate _ (by rw [pc]; rfl) rfl (by simp) id
  | joinClock | joinMaster =>
    simp only [clipifFinalize, pc] at edge
    obtain ⟨-, now⟩ := Option.ite_none_right_eq_some.mp edge
    obtain rfl := Option.some.inj now
    exact .finalizes new room s.root s.cancelClock s.terminate _ (by rw [pc]; rfl) rfl id id
  | terminate =>
    simp only [clipifFinalize, pc] at edge
    split at edge
    · cases edge
    · obtain rfl := Option.some.inj edge
      exact .finalizes new room s.root s.cancelClock true _ (by rw [pc]; rfl) rfl id fun _ => rfl
  | slaves =>
    simp only [clipifFinalize, pc] at edge
    cases edge

omit [DecidableEq T] in
theorem alive_of_point (h : atPoint verbose s = true) : alive s.clock = true := by
  cases pc : s.clock with
  | sleep | info | stamp | broadcast => rfl
  | absent | ended =>
    rw [atPoint, pc] at h
    cases h

theorem change_of_step {a : Label T} (edge : step verbose s a = some s') : Change s a s' := by
  cases a with
  | clock now room => exact change_of_clock edge
  | cancelClock =>
    obtain ⟨⟨-, point⟩, now⟩ := Option.ite_none_right_eq_some.mp edge
    obtain rfl := Option.some.inj now
    exact .clockEnds (alive_of_point point)
  | orphan time =>
    simp only [step] at edge
    split at edge
    · cases edge
    · rename_i child
      obtain rfl := Option.some.inj edge
      exact .orphan time (Bool.eq_false_iff.mpr child)
  | connect i fd =>
    obtain ⟨⟨idle, free, valid, -⟩, now⟩ := Option.ite_none_right_eq_some.mp edge
    obtain rfl := Option.some.inj now
    exact .connect i fd idle free valid
  | disconnect i =>
    obtain ⟨idle, now⟩ := Option.ite_none_right_eq_some.mp edge
    obtain rfl := Option.some.inj now
    exact .disconnect i idle
  | broadcaster ret => exact change_of_broadcaster edge
  | finalize new room => exact change_of_finalize edge
  | receive | fill | short | complete | broadcast | free => exact change_of_slave edge

end Inversion

section Frame

variable {s s' : State T}

structure BroadcasterFrame (s s' : State T) : Prop where
  threads : s'.threads = s.threads
  clock : s'.clock = s.clock
  root : s'.root = s.root
  finalize : s'.finalize = s.finalize
  terminate : s'.terminate = s.terminate
  connections : s'.connections = s.connections
  links : s'.links = s.links
  accepted : s'.accepted = s.accepted
  goodbye : s'.goodbye = s.goodbye
  queue : pending s' = pending s ∨ ∃ msg, pending s = msg :: pending s'
  store : s'.store = s.store ∨ ∃ msg, pending s = msg :: pending s' ∧ msg.fromFd ≠ -1 ∧
    s'.store = Function.update s.store msg.p none

omit [DecidableEq T] in
theorem pending_of_same (queue : s'.broadcasts = s.broadcasts)
    (works : current s'.broadcaster = current s.broadcaster) : pending s' = pending s := by
  rw [pending, pending, queue, works]

omit [DecidableEq T] in
theorem pending_of_done {msg : Entry} (queue : s'.broadcasts = s.broadcasts)
    (working : current s.broadcaster = [msg]) (done : current s'.broadcaster = []) :
    pending s = msg :: pending s' := by
  rw [pending, pending, queue, working, done]
  rfl

theorem broadcasterFrame {ret : Option Nat} (change : Change s (.broadcaster ret) s') :
    BroadcasterFrame s s' := by
  cases change with
  | pops _ msg rest pc queue =>
    refine ⟨rfl, rfl, rfl, rfl, rfl, rfl, rfl, rfl, rfl, .inl ?_, .inl rfl⟩
    rw [pending, pending, pc, queue]
    rfl
  | ends _ pc | sizes _ msg pc | calls _ msg size i fd k pc | passes _ msg size i pc
  | rounds _ msg size i pc | writes _ msg size i start count fd k pc
  | returns _ msg size i start pc =>
    refine ⟨rfl, rfl, rfl, rfl, rfl, rfl, rfl, rfl, rfl, .inl ?_, .inl rfl⟩
    exact pending_of_same rfl (by rw [pc]; rfl)
  | skips _ msg pc | leaves _ msg pc =>
    refine ⟨rfl, rfl, rfl, rfl, rfl, rfl, rfl, rfl, rfl, .inr ⟨msg, ?_⟩, .inl rfl⟩
    exact pending_of_done rfl (by rw [pc]; rfl) rfl
  | releases _ msg pc heap =>
    have done : pending s = msg :: s.broadcasts := by
      rw [pending, pc]
      rfl
    exact ⟨rfl, rfl, rfl, rfl, rfl, rfl, rfl, rfl, rfl, .inr ⟨msg, done⟩,
      .inr ⟨msg, done, heap, rfl⟩⟩

omit [DecidableEq T] in
theorem BroadcasterFrame.fewer (h : BroadcasterFrame s s') :
    (pending s').Sublist (pending s) := by
  obtain same | ⟨msg, done⟩ := h.queue
  · rw [same]
  · rw [done]
    exact List.sublist_cons_self msg _

structure OtherFrame (s s' : State T) : Prop where
  broadcaster : s'.broadcaster = s.broadcaster
  wire : s'.wire = s.wire
  calls : s'.calls = s.calls
  fault : s'.fault = s.fault
  queue : s'.accepted = s.accepted ∧ s'.broadcasts = s.broadcasts ∨
    s.terminate = false ∧ ∃ place fromFd, s'.accepted = s.accepted ++ [s.read place] ∧
      s'.broadcasts = s.broadcasts ++ [⟨place, fromFd, s.accepted.length⟩]
  terminate : s.terminate = true → s'.terminate = true

theorem otherFrame {label : Label T} (change : Change s label s')
    (other : ∀ ret, label ≠ .broadcaster ret) : OtherFrame s s' := by
  cases label with
  | broadcaster ret => exact absurd rfl (other ret)
  | receive | fill | short | complete | free | cancelClock | orphan | connect | disconnect =>
    cases change <;> exact ⟨rfl, rfl, rfl, rfl, .inl ⟨rfl, rfl⟩, id⟩
  | broadcast =>
    cases change with
    | accepted _ _ sock a pc opened => exact ⟨rfl, rfl, rfl, rfl, .inr ⟨opened, _, _, rfl, rfl⟩, id⟩
    | refused => exact ⟨rfl, rfl, rfl, rfl, .inl ⟨rfl, rfl⟩, id⟩
  | clock =>
    cases change with
    | clockAccepted _ _ pc opened =>
      exact ⟨rfl, rfl, rfl, rfl, .inr ⟨opened, _, _, rfl, rfl⟩, id⟩
    | ticks | stamps | clockRefused => exact ⟨rfl, rfl, rfl, rfl, .inl ⟨rfl, rfl⟩, id⟩
  | finalize =>
    cases change with
    | byeAccepted _ _ a pc opened =>
      exact ⟨rfl, rfl, rfl, rfl, .inr ⟨opened, _, _, rfl, rfl⟩, id⟩
    | prepares | byeRefused => exact ⟨rfl, rfl, rfl, rfl, .inl ⟨rfl, rfl⟩, id⟩
    | finalizes _ _ root cancelClock terminate pc before after child closed =>
      exact ⟨rfl, rfl, rfl, rfl, .inl ⟨rfl, rfl⟩, closed⟩

omit [DecidableEq T] in
theorem OtherFrame.accepted (h : OtherFrame s s') : ∃ more, s'.accepted = s.accepted ++ more := by
  obtain ⟨same, -⟩ | ⟨-, place, fromFd, more, -⟩ := h.queue
  · exact ⟨[], by rw [same, List.append_nil]⟩
  · exact ⟨_, more⟩

end Frame

end DistributedClipboard.Interfaces.BroadcastSteps
