/- module: DistributedClipboard/Interfaces/ReleasedOnce
   source: src/src/interfaces/appif.c, src/src/interfaces/clipif.c
   layer: theorem
   digest: The buffers of all slaves and the broadcaster, and when each is released exactly once. -/

import DistributedClipboard.Interfaces.RequestTurns
import DistributedClipboard.Lib.Transition
import Mathlib.Data.List.Count
import Mathlib.Logic.Function.Basic

set_option autoImplicit false
set_option relaxedAutoImplicit false

namespace DistributedClipboard.Interfaces.ReleasedOnce

open DistributedClipboard.Interfaces.AppCalls (AppWorld)
open DistributedClipboard.Interfaces.ClipSlave (Call SlaveState World)
open DistributedClipboard.Interfaces.LinkCodec (sendSize)
open DistributedClipboard.Interfaces.RequestBuffers
open DistributedClipboard.Interfaces.RequestTurns (appTurn_adds clipTurn_adds)
open DistributedClipboard.Lib.Ledger
open DistributedClipboard.Lib.Transition

universe u

/-- What a slave thread serves, and its socket. -/
structure Conn where
  app : Bool
  sock : Nat
  deriving DecidableEq, Repr

/-- `broadcast_t`. A packet of a slave goes by the slave and the place of its allocation in the
slave's log; those of `clipif_clock_man` and `clipif_finalize` are `none`. -/
structure Broadcast (T : Type u) where
  p : Option (T × Nat)
  packet : List UInt8
  fromFd : Int
  deriving DecidableEq, Repr

/-- The slaves with their logs, the queue, `msg` of `clipif_broadcast`, and as a ghost the packets
that `clipif_broadcast` has freed. -/
structure State (T : Type u) where
  slaves : T → SlaveState
  broadcasts : List (Broadcast T)
  msg : Option (Broadcast T)
  freed : List (T × Nat)

/-- `w` and `io` are what the calls and the transfers of a turn come to. -/
inductive Label (T : Type u)
  /-- A slave goes once through its loop. It has no use for a buffer after it has handed it over, so
  that nobody else is concerned in between. -/
  | turn (t : T) (w : AppWorld) (io : Socket)
  /-- `clipif_clock_man` or `clipif_finalize` queues a packet. -/
  | push (packet : List UInt8) (fromFd : Int)
  /-- `queue_pop` -/
  | pop
  /-- `clipif_broadcast` has sent `msg` on. -/
  | sent

section Step

variable {T : Type u} [DecidableEq T] (conn : T → Conn)

def slaveTurn (c : Conn) (w : AppWorld) (io : Socket) (s : SlaveState) : Option SlaveState :=
  if c.app then appTurn w io s else clipTurn w.toWorld io s

/-- What calls have handed to `clipif_add_broadcast`, as it is queued. -/
def messages (t : T) (sock : Nat) (calls : List Call) : List (Broadcast T) :=
  (accepted calls).map fun p => ⟨some (t, p.1), p.2, sock⟩

def step (s : State T) : Label T → Option (State T)
  | .turn t w io =>
    (slaveTurn (conn t) w io (s.slaves t)).map fun after =>
      { s with
        slaves := Function.update s.slaves t after
        broadcasts := s.broadcasts ++
          messages t (conn t).sock (after.log.drop (s.slaves t).log.length) }
  | .push packet fromFd => some { s with broadcasts := s.broadcasts ++ [⟨none, packet, fromFd⟩] }
  | .pop =>
    match s.msg, s.broadcasts with
    | none, msg :: rest => some { s with broadcasts := rest, msg := some msg }
    | _, _ => none
  | .sent =>
    match s.msg with
    | none => none
    | some msg =>
      -- with no size to send neither the packet nor the broadcast_t is freed
      if sendSize msg.packet ≠ 0 ∧ msg.fromFd ≠ -1 then
        some { s with msg := none, freed := s.freed ++ msg.p.toList }
      else some { s with msg := none }

/-- Any slaves, each before its first turn. -/
def slaveSystem : System (State T) (Label T) where
  init := ⟨fun _ => .start, [], none, []⟩
  step := step conn

def CutShort (s : State T) : Label T → Prop
  | .turn t w io =>
    if (conn t).app then CopyCutShort w.toWorld io (s.slaves t)
    else SyncCutShort w.toWorld io (s.slaves t)
  | .push .. | .pop | .sent => False

/-- No turn of the run is cut short. -/
def Careful : State T → List (Label T) → Prop
  | _, [] => True
  | s, a :: as => ¬ CutShort conn s a ∧ ∀ m, step conn s a = some m → Careful m as

end Step

section Ledger

variable {T : Type u} [DecidableEq T] (s : State T) (t : T) (b : Nat)

/-- The buffers a slave has been granted. -/
def State.granted : List Nat := buffers 0 (entries (s.slaves t).log)

/-- How often a slave has freed a buffer. -/
def State.freedBySlave : Nat := (released (entries (s.slaves t).log)).count b

/-- How often `clipif_add_broadcast` has accepted a buffer. -/
def State.acceptedFrom : Nat := (handedOver (entries (s.slaves t).log)).count b

/-- How often `clipif_broadcast` has freed a buffer. -/
def State.freedByBroadcaster : Nat := s.freed.count (t, b)

/-- The packets that are in the queue or with `clipif_broadcast`. -/
def State.pending : List (Broadcast T) := s.msg.toList ++ s.broadcasts

/-- How often a buffer is in the queue or with `clipif_broadcast`. -/
def State.waiting : Nat := (s.pending.filterMap Broadcast.p).count (t, b)

/-- The slave has freed the buffer once and nobody else has it, or `clipif_add_broadcast` has
accepted it once and `clipif_broadcast` has freed it once or is still to do so. -/
def State.Settled : Prop :=
  s.freedBySlave t b = 1 ∧ s.acceptedFrom t b = 0 ∧ s.freedByBroadcaster t b + s.waiting t b = 0 ∨
  s.freedBySlave t b = 0 ∧ s.acceptedFrom t b = 1 ∧ s.freedByBroadcaster t b + s.waiting t b = 1

instance : Decidable (s.Settled t b) := inferInstanceAs (Decidable (_ ∨ _))

end Ledger

section Invariant

variable {T : Type u} [DecidableEq T] {conn : T → Conn} {s s' : State T} {t : T} {b : Nat}
  {a : Label T}

structure Inv (s : State T) : Prop where
  sound : ∀ t, Sound 0 (entries (s.slaves t).log)
  carried : ∀ t b, s.freedByBroadcaster t b + s.waiting t b = s.acceptedFrom t b
  sendable : ∀ msg ∈ s.pending, msg.p ≠ none → sendSize msg.packet ≠ 0 ∧ msg.fromFd ≠ -1

theorem slaveTurn_adds {c : Conn} {w : AppWorld} {io : Socket} {before after : SlaveState}
    (turn : slaveTurn c w io before = some after) :
    Adds (if c.app then CopyCutShort w.toWorld io before else SyncCutShort w.toWorld io before)
      before after := by
  unfold slaveTurn at turn
  by_cases app : c.app = true
  · rw [if_pos app] at turn ⊢
    exact appTurn_adds turn
  · rw [if_neg app] at turn ⊢
    exact clipTurn_adds turn

theorem handedOver_entries (calls : List Call) :
    handedOver (entries calls) = (accepted calls).map Prod.fst := by
  induction calls with
  | nil => rfl
  | cons c calls ih =>
    have here : Entry.handedOver? (entry c) = (accepted? c).map Prod.fst := by
      cases c with
      | malloc size granted => cases granted <;> rfl
      | clipifAddBroadcast b packet err =>
        by_cases taken : err = 0
        · simp [entry, accepted?, taken, Entry.handedOver?]
        · simp [entry, accepted?, taken, Entry.handedOver?]
      | free _ | timeMSync _ | timeMNow _ | memPut _ _ _ _ _ => rfl
    simp only [handedOver, entries, accepted] at ih ⊢
    rw [List.map_cons, List.filterMap_cons, List.filterMap_cons, here]
    cases accepted? c with
    | none => exact ih
    | some p => exact congrArg (p.1 :: ·) ih

theorem count_pair (u t : T) (b : Nat) (bs : List Nat) :
    (bs.map fun c => (t, c)).count (u, b) = if u = t then bs.count b else 0 := by
  by_cases same : u = t
  · subst same
    rw [if_pos rfl]
    exact List.count_map_of_injective bs _ (fun _ _ eq => (Prod.mk.inj eq).2) b
  · rw [if_neg same]
    refine List.count_eq_zero_of_not_mem fun mine => ?_
    obtain ⟨c, -, eq⟩ := List.mem_map.mp mine
    exact same (Prod.mk.inj eq).1.symm

theorem messages_count {sock : Nat} {calls : List Call} (u : T) (b : Nat) :
    ((messages t sock calls).filterMap Broadcast.p).count (u, b) =
      if u = t then (handedOver (entries calls)).count b else 0 := by
  have packets : (messages t sock calls).filterMap Broadcast.p =
      ((accepted calls).map Prod.fst).map fun c => (t, c) := by
    rw [messages, List.map_map]
    induction accepted calls with
    | nil => rfl
    | cons p ps ih => exact congrArg ((t, p.1) :: ·) ih
  rw [packets, count_pair, handedOver_entries]

theorem turn_cases {w : AppWorld} {io : Socket} (edge : step conn s (.turn t w io) = some s') :
    ∃ calls, Spent (CutShort conn s (.turn t w io)) (s.slaves t).log.length calls ∧
      (s'.slaves t).log = (s.slaves t).log ++ calls ∧
      (∀ u, u ≠ t → s'.slaves u = s.slaves u) ∧ s'.freed = s.freed ∧
      s'.pending = s.pending ++ messages t (conn t).sock calls := by
  obtain ⟨after, turn, rfl⟩ := Option.map_eq_some_iff.mp edge
  obtain ⟨calls, log, spent⟩ := slaveTurn_adds turn
  refine ⟨calls, spent, ?_, fun u other => Function.update_of_ne other _ _, rfl, ?_⟩
  · exact (congrArg SlaveState.log (Function.update_self t after s.slaves)).trans log
  · rw [log, List.drop_left, State.pending, ← List.append_assoc]
    rfl

theorem other_cases (h : Inv s) (other : ∀ t w io, a ≠ .turn t w io)
    (edge : step conn s a = some s') : s'.slaves = s.slaves ∧
      (∀ t b, s'.freedByBroadcaster t b + s'.waiting t b =
        s.freedByBroadcaster t b + s.waiting t b) ∧
      ∀ msg ∈ s'.pending, msg ∈ s.pending ∨ msg.p = none := by
  cases a with
  | turn t w io => exact absurd rfl (other t w io)
  | push packet fromFd =>
    cases edge
    refine ⟨rfl, fun t b => ?_, fun msg mine => ?_⟩
    · simp [State.freedByBroadcaster, State.waiting, State.pending]
    · simp only [State.pending, List.mem_append, List.mem_singleton] at mine ⊢
      rcases mine with mine | mine | rfl
      · exact .inl (.inl mine)
      · exact .inl (.inr mine)
      · exact .inr rfl
  | pop =>
    simp only [step] at edge
    split at edge
    · rename_i msg rest idle queue
      cases edge
      have same : State.pending { s with broadcasts := rest, msg := some msg } = s.pending := by
        rw [State.pending, State.pending, idle, queue]
        rfl
      refine ⟨rfl, fun t b => ?_, fun m mine => .inl (same ▸ mine)⟩
      rw [State.waiting, same]
      rfl
    · cases edge
  | sent =>
    simp only [step] at edge
    split at edge
    · cases edge
    · rename_i msg holds
      have pending : s.pending = msg :: s.broadcasts := by
        rw [State.pending, holds]
        rfl
      have sendable := h.sendable msg (by rw [pending]; exact List.mem_cons_self)
      split at edge
      · cases edge
        refine ⟨rfl, fun t b => ?_, fun m mine => ?_⟩
        · rw [State.waiting, State.waiting, pending, State.freedByBroadcaster,
            State.freedByBroadcaster, List.count_append]
          cases place : msg.p with
          | none => simp [State.pending, place]
          | some own =>
            simp [State.pending, place, List.count_cons]
            omega
        · rw [pending]
          exact .inl (List.mem_cons_of_mem _ mine)
      · rename_i unsent
        cases edge
        have clock : msg.p = none := by
          by_contra slave
          exact unsent (sendable slave)
        refine ⟨rfl, fun t b => ?_, fun m mine => ?_⟩
        · rw [State.waiting, State.waiting, pending, List.filterMap_cons, clock]
          rfl
        · rw [pending]
          exact .inl (List.mem_cons_of_mem _ mine)

theorem Inv.step (h : Inv s) (edge : step conn s a = some s') : Inv s' := by
  by_cases slave : ∃ t w io, a = .turn t w io
  · obtain ⟨t, w, io, rfl⟩ := slave
    obtain ⟨calls, spent, log, others, freed, pending⟩ := turn_cases edge
    constructor
    · intro u
      by_cases same : u = t
      · subst same
        rw [log, entries_append]
        refine (h.sound u).append ?_
        rw [entries_length, Nat.zero_add]
        exact spent.sound
      · rw [others u same]
        exact h.sound u
    · intro u b
      have before := h.carried u b
      rw [State.freedByBroadcaster, State.waiting] at before
      rw [State.freedByBroadcaster, State.waiting, freed, pending, List.filterMap_append,
        List.count_append, messages_count]
      by_cases same : u = t
      · subst same
        rw [if_pos rfl, State.acceptedFrom, log, entries_append, handedOver_append,
          List.count_append, ← State.acceptedFrom]
        omega
      · rw [if_neg same, State.acceptedFrom, others u same, ← State.acceptedFrom]
        omega
    · intro msg mine packet
      rw [pending, List.mem_append] at mine
      rcases mine with old | new
      · exact h.sendable msg old packet
      · obtain ⟨p, taken, rfl⟩ := List.mem_map.mp new
        have sock : ((conn t).sock : Int) ≠ -1 := by omega
        exact ⟨spent.sendable p taken, sock⟩
  · have other : ∀ t w io, a ≠ .turn t w io := fun t w io eq => slave ⟨t, w, io, eq⟩
    obtain ⟨slaves, carried, pending⟩ := other_cases h other edge
    constructor
    · intro t
      rw [slaves]
      exact h.sound t
    · intro t b
      rw [carried, h.carried, State.acceptedFrom, State.acceptedFrom, slaves]
    · intro msg mine packet
      rcases pending msg mine with old | clock
      · exact h.sendable msg old packet
      · exact absurd clock packet

omit [DecidableEq T] in
def State.Clear (s : State T) : Prop := ∀ t, Complete 0 (entries (s.slaves t).log)

theorem clear_step_iff (h : Inv s) (edge : ReleasedOnce.step conn s a = some s') :
    s'.Clear ↔ s.Clear ∧ ¬ CutShort conn s a := by
  by_cases slave : ∃ t w io, a = .turn t w io
  · obtain ⟨t, w, io, rfl⟩ := slave
    obtain ⟨calls, spent, log, others, -, -⟩ := turn_cases edge
    have own : Complete 0 (entries (s'.slaves t).log) ↔
        Complete 0 (entries (s.slaves t).log) ∧ ¬ CutShort conn s (.turn t w io) := by
      rw [log, entries_append, ← spent.complete]
      have sound := spent.sound
      rw [← entries_length, ← Nat.zero_add (entries _).length] at sound ⊢
      exact complete_append_iff (h.sound t) sound
    constructor
    · intro complete
      refine ⟨fun u => ?_, (own.mp (complete t)).2⟩
      by_cases same : u = t
      · subst same
        exact (own.mp (complete u)).1
      · rw [← others u same]
        exact complete u
    · rintro ⟨complete, whole⟩ u
      by_cases same : u = t
      · subst same
        exact own.mpr ⟨complete u, whole⟩
      · rw [others u same]
        exact complete u
  · have other : ∀ t w io, a ≠ .turn t w io := fun t w io eq => slave ⟨t, w, io, eq⟩
    have slaves := (other_cases h other edge).1
    have whole : ¬ CutShort conn s a := by
      cases a with
      | turn t w io => exact absurd rfl (other t w io)
      | push _ _ | pop | sent => exact fun cut => cut
    rw [State.Clear, State.Clear, slaves]
    exact (and_iff_left whole).symm

theorem inv_init : Inv (slaveSystem conn).init where
  sound _ := sound_nil 0
  carried _ _ := rfl
  sendable _ mine := by cases mine

theorem clear_run_iff {as : List (Label T)} (h : Inv s)
    (goes : (slaveSystem conn).run s as = some s') :
    Inv s' ∧ (s'.Clear ↔ s.Clear ∧ Careful conn s as) := by
  induction as generalizing s with
  | nil =>
    obtain rfl : s = s' := Option.some.inj goes
    exact ⟨h, (and_iff_left trivial).symm⟩
  | cons a as ih =>
    obtain ⟨m, edge, rest⟩ := Option.bind_eq_some_iff.mp goes
    have edge : ReleasedOnce.step conn s a = some m := edge
    obtain ⟨inv, later⟩ := ih (h.step edge) rest
    refine ⟨inv, ?_⟩
    rw [later, clear_step_iff h edge, and_assoc]
    refine and_congr_right fun _ => and_congr_right fun _ => ?_
    constructor
    · intro careful m' edge'
      obtain rfl : m = m' := Option.some.inj (edge.symm.trans edge')
      exact careful
    · intro careful
      exact careful m edge

theorem settled_iff (h : Inv s) (t : T) (b : Nat) :
    s.Settled t b ↔ b ∈ given (entries (s.slaves t).log) := by
  have once := (h.sound t).count b
  have parts := count_given (entries (s.slaves t).log) b
  have carried := h.carried t b
  rw [State.Settled]
  rw [State.acceptedFrom] at carried ⊢
  rw [State.freedBySlave]
  by_cases gone : b ∈ given (entries (s.slaves t).log)
  · rw [if_pos gone] at once
    refine iff_of_true ?_ gone
    omega
  · rw [if_neg gone] at once
    refine iff_of_false ?_ gone
    omega

/-- After any run of slaves and broadcaster every buffer that a slave has been granted is released
exactly once, exactly when no receive of the run has been cut short with a buffer allocated for a
copy of an application or for a `TIME_SYNC` of the parent. -/
theorem released_once_iff (conn : T → Conn) (as : List (Label T)) (s : State T)
    (goes : (slaveSystem conn).run (slaveSystem conn).init as = some s) :
    (∀ t, ∀ b ∈ s.granted t, s.Settled t b) ↔ Careful conn (slaveSystem conn).init as := by
  obtain ⟨inv, complete⟩ := clear_run_iff inv_init goes
  have start : State.Clear (slaveSystem conn).init := fun _ _ mine => by cases mine
  have careful : s.Clear ↔ Careful conn (slaveSystem conn).init as := by
    rw [complete]
    exact and_iff_right start
  rw [← careful]
  refine forall_congr' fun t => forall₂_congr fun b _ => ?_
  exact settled_iff inv t b

end Invariant

/-- An application is `true`, the parent `false`. -/
private def twoSlaves : Bool → Conn
  | true => ⟨true, 4⟩
  | false => ⟨false, 5⟩

/-- Everything is granted, stored and queued. -/
private def granting : AppWorld where
  withParent := true
  parentDelay := 1
  malloc _ := true
  timeMNow _ := 7
  memPut _ := 2
  clipifAddBroadcast _ := 0
  memGet _ := []
  memWait _ := []

/-- A copy of two bytes to region 0. The results of the receives from the payload on are given. -/
private def copyOfTwo (payload : Int × List UInt8) : Socket where
  received
    | 0 => (1, [0x82])
    | 1 => (9, [0, 2, 0, 0, 0, 0, 0, 0, 0])
    | _ => payload
  sent _ := 6

/-- A `TIME_SYNC`, and the result of the receive of its time. -/
private def timeSyncOf (time : Int × List UInt8) : Socket where
  received
    | 0 => (1, [0x01])
    | _ => time
  sent _ := 5

private def copyThenSync : List (Label Bool) :=
  [.turn true granting (copyOfTwo (2, [97, 98])), .pop, .sent,
    .turn false granting (timeSyncOf (0, []))]

theorem released_once_iff_copy_then_sync : ∃ s : State Bool,
    s.granted true = [0, 3] ∧ s.freed = [(true, 0)] ∧ s.freedBySlave true 3 = 1 ∧
    s.granted false = [0] ∧
    ((∀ t, ∀ b ∈ s.granted t, s.Settled t b) ↔
      Careful twoSlaves (slaveSystem twoSlaves).init copyThenSync) :=
  ⟨_, rfl, rfl, rfl, rfl, released_once_iff twoSlaves copyThenSync _ rfl⟩

/-- An application that closes its connection after the header of a copy, and a parent that does so
after the type of a `TIME_SYNC`, each leave a buffer that is neither freed nor accepted. -/
theorem cut_short_neither_freed_nor_accepted : ∃ s : State Bool,
    (slaveSystem twoSlaves).run (slaveSystem twoSlaves).init
      [.turn true granting (copyOfTwo (0, [])), .turn false granting (timeSyncOf (0, []))] =
        some s ∧
    ∀ t, 0 ∈ s.granted t ∧ s.freedBySlave t 0 = 0 ∧ s.acceptedFrom t 0 = 0 ∧ ¬ s.Settled t 0 := by
  refine ⟨_, rfl, ?_⟩
  decide

end DistributedClipboard.Interfaces.ReleasedOnce
