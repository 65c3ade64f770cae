/- module: DistributedClipboard/Network/Handshake
   source: src/src/interfaces/clipif.c, src/src/utils/time.c
   layer: theorem
   digest: The clock that a clipboard has set when it has connected to its parent. -/

import DistributedClipboard.Network.SyncWaves

set_option autoImplicit false
set_option relaxedAutoImplicit false

namespace DistributedClipboard.Network.Handshake

open DistributedClipboard.Lib.Rooted
open DistributedClipboard.Lib.Transition
open DistributedClipboard.Network.SyncWaves
open DistributedClipboard.Utils.Time

/-- Where `clipif_init` is, with its variables so far. -/
inductive Stage
  /-- `time_init` is over. -/
  | connected
  | recvHello (t1 : UInt32)
  | received (t1 : UInt32) (hello : UInt32)
  | measured (parentDelay : UInt32) (hello : UInt32)
  /-- `time_m_sync` has read the machine's clock. -/
  | setting (parentDelay : UInt32)
  | set (parentDelay : UInt32)
  deriving DecidableEq, Repr

/-- The child and the packet that its parent has sent. The whole seconds that the two machines have
counted are ghosts, and so are the child's counts at which the packet was stamped, `t1` and `t2` were
read and `time_m_sync` was called. -/
structure State where
  clock : Clock
  stage : Stage
  hello : Option Sync
  seconds : Nat
  parents : Nat
  begun : Nat
  ended : Nat
  told : Nat
  deriving DecidableEq, Repr

inductive Label
  /-- Time passes, and so many seconds end on the child's machine and on the parent's. -/
  | pass (n m : Nat)
  /-- `clipif_listen` reads this time from the parent's clock and sends `p_hello`. -/
  | greet (time : UInt32)
  /-- The next statement of `clipif_init`. -/
  | next
  deriving DecidableEq, Repr

def step (s : State) : Label → Option State
  | .pass n m => some { s with
      clock := s.clock.pass n, seconds := s.seconds + n, parents := s.parents + m }
  | .greet time =>
    if s.hello = none then some { s with hello := some ⟨time, s.seconds⟩ } else none
  | .next =>
    match s.stage with
    -- t1 = time_m_local()
    | .connected => some { s with stage := .recvHello (timeMLocal s.clock), begun := s.seconds }
    | .recvHello t1 => s.hello.map fun p => { s with stage := .received t1 p.time }
    -- t2 = time_m_local(), clipif->parentDelay = (t2 - t1)/2
    | .received t1 hello =>
      some { s with stage := .measured ((timeMLocal s.clock - t1) / 2) hello, ended := s.seconds }
    -- time_m_sync(hello_p.time + clipif->parentDelay)
    | .measured parentDelay hello =>
      some { s with
        clock := timeMSync s.clock (hello + parentDelay), stage := .setting parentDelay
        told := s.seconds }
    | .setting parentDelay =>
      some { s with clock := timeStarts s.clock, stage := .set parentDelay }
    | .set _ => none

/-- A child on a machine whose clock shows anything. -/
def handshake (time start : Nat) : System State Label where
  init := ⟨timeInit time, .connected, none, start, start, start, start, start⟩
  step := step

/-- The parent's clock is off by at most `off` when it is read, the child's count is the parent's or
ahead of it by at most `skew`, and no clock comes to the end of its 32 bits. -/
def greeted (off skew start : Nat) (s : State) : Label → Prop
  | .pass n m => (s.parents + m ≤ s.seconds + n ∧ s.seconds + n ≤ s.parents + m + skew) ∧
      s.seconds + n + off + (s.seconds + n - start) < 2 ^ 32
  | .greet time => Near off s.parents time
  | .next => True

instance (off skew start : Nat) (s : State) : (a : Label) → Decidable (greeted off skew start s a)
  | .pass .. => inferInstanceAs (Decidable ((_ ∧ _) ∧ _ < 2 ^ 32))
  | .greet time => inferInstanceAs (Decidable (Near off s.parents time))
  | .next => inferInstanceAs (Decidable True)

/-- What the child's clock may be off by, in seconds that its machine has counted: as much as the
parent's, as long as the packet had been waiting when `t1` was read, half the time between `t1` and
`t2`, and what passed until it was set. -/
def slack (off stamped begun ended told : Nat) : Nat :=
  off + (begun - stamped) + (ended - begun + 1) / 2 + (told - ended)

section Invariant

variable (off skew start : Nat)

/-- What the variables of `clipif_init` say. -/
def Holds (s : State) : Stage → Prop
  | .connected => True
  | .recvHello t1 => start ≤ s.begun ∧ s.begun ≤ s.seconds ∧
      timeMLocal s.clock = t1 + .ofNat (s.seconds - s.begun)
  | .received t1 hello => start ≤ s.begun ∧ s.begun ≤ s.seconds ∧
      timeMLocal s.clock = t1 + .ofNat (s.seconds - s.begun) ∧
      ∃ p, s.hello = some p ∧ p.time = hello
  | .measured parentDelay hello => start ≤ s.begun ∧ s.begun ≤ s.ended ∧ s.ended ≤ s.seconds ∧
      parentDelay.toNat = (s.ended - s.begun) / 2 ∧
      ∃ p, s.hello = some p ∧ p.time = hello ∧ p.stamped ≤ s.ended
  | .setting parentDelay => parentDelay.toNat = (s.ended - s.begun) / 2 ∧
      ∃ p x, s.hello = some p ∧ s.clock.shown.next = some x ∧
        start + slack off p.stamped s.begun s.ended s.told ≤ s.seconds + off ∧
        Within (slack off p.stamped s.begun s.ended s.told + skew)
          (slack off p.stamped s.begun s.ended s.told) s.seconds x
  | .set parentDelay => parentDelay.toNat = (s.ended - s.begun) / 2 ∧ s.clock.syncing = none ∧
      ∃ p, s.hello = some p ∧
        start + slack off p.stamped s.begun s.ended s.told ≤ s.seconds + off ∧
        Within (slack off p.stamped s.begun s.ended s.told + skew)
          (slack off p.stamped s.begun s.ended s.told) s.seconds (timeMNow s.clock)

structure Shaken (s : State) : Prop where
  aligned : s.parents ≤ s.seconds ∧ s.seconds ≤ s.parents + skew
  range : start ≤ s.seconds ∧ s.seconds + off + (s.seconds - start) < 2 ^ 32
  hello : ∀ p, s.hello = some p → start ≤ p.stamped ∧ p.stamped ≤ s.seconds ∧
    Within (off + skew) off p.stamped p.time
  stage : Holds off skew start s s.stage

variable {off skew start} {s s' : State}

theorem Shaken.init {time : Nat} (fits : start + off < 2 ^ 32) :
    Shaken off skew start (handshake time start).init where
  aligned := ⟨Nat.le_refl _, Nat.le_add_right ..⟩
  range := by
    show start ≤ start ∧ start + off + (start - start) < 2 ^ 32
    omega
  hello p mine := by cases mine
  stage := trivial

theorem Shaken.told {parentDelay : UInt32} {p : Sync} (shaken : Shaken off skew start s)
    (hello : s.hello = some p) (order : start ≤ s.begun ∧ s.begun ≤ s.ended ∧ s.ended ≤ s.seconds)
    (half : parentDelay.toNat = (s.ended - s.begun) / 2) (past : p.stamped ≤ s.ended) :
    start + slack off p.stamped s.begun s.ended s.seconds ≤ s.seconds + off ∧
      Within (slack off p.stamped s.begun s.ended s.seconds + skew)
        (slack off p.stamped s.begun s.ended s.seconds) s.seconds (p.time + parentDelay) := by
  obtain ⟨later, _, within⟩ := shaken.hello p hello
  have age : Near (s.begun - p.stamped + (s.ended - s.begun + 1) / 2 + (s.seconds - s.ended))
      (s.seconds - p.stamped) parentDelay := by
    rw [Near, Within, half]
    omega
  have range := shaken.range
  have sum : slack off p.stamped s.begun s.ended s.seconds =
      off + (s.begun - p.stamped + (s.ended - s.begun + 1) / 2 + (s.seconds - s.ended)) := by
    rw [slack]
    omega
  obtain ⟨early, late⟩ := within.aged (by omega) age (by omega)
  rw [sum]
  exact ⟨by omega, by omega, by omega⟩

theorem local_pass {c : Clock} {t1 : UInt32} {begun seconds : Nat} (n : Nat)
    (past : begun ≤ seconds) (distance : timeMLocal c = t1 + .ofNat (seconds - begun)) :
    timeMLocal (c.pass n) = t1 + .ofNat (seconds + n - begun) := by
  have on : timeMLocal (c.pass n) = timeMLocal c + .ofNat n := by
    rw [timeMLocal, timeMLocal, Clock.pass, UInt32.ofNat_add]
  have sum : seconds + n - begun = seconds - begun + n := by omega
  rw [on, distance, sum, UInt32.ofNat_add, UInt32.add_assoc]

theorem half_distance {now t1 : UInt32} {seconds : Nat} (distance : now = t1 + .ofNat seconds)
    (fits : seconds < 2 ^ 32) : ((now - t1) / 2).toNat = seconds / 2 := by
  have back : now - t1 = .ofNat seconds := by
    rw [distance, UInt32.add_comm, UInt32.add_sub_cancel]
  rw [back, UInt32.toNat_div, UInt32.toNat_ofNat', Nat.mod_eq_of_lt fits]
  rfl

theorem Shaken.pass {n m : Nat} (shaken : Shaken off skew start s)
    (aligned : s.parents + m ≤ s.seconds + n ∧ s.seconds + n ≤ s.parents + m + skew)
    (fits : s.seconds + n + off + (s.seconds + n - start) < 2 ^ 32) :
    Shaken off skew start { s with
      clock := s.clock.pass n, seconds := s.seconds + n, parents := s.parents + m } := by
  obtain ⟨_, ⟨after, range⟩, hello, stage⟩ := shaken
  constructor
  case aligned => exact aligned
  case range => exact ⟨Nat.le_add_right_of_le after, fits⟩
  case hello =>
    intro p mine
    obtain ⟨later, past, near⟩ := hello p mine
    exact ⟨later, Nat.le_add_right_of_le past, near⟩
  case stage =>
    show Holds off skew start _ s.stage
    cases at_ : s.stage with rw [at_] at stage
    | connected => trivial
    | recvHello t1 =>
      obtain ⟨order, past, distance⟩ := stage
      exact ⟨order, Nat.le_add_right_of_le past, local_pass n past distance⟩
    | received t1 p =>
      obtain ⟨order, past, distance, mine⟩ := stage
      exact ⟨order, Nat.le_add_right_of_le past, local_pass n past distance, mine⟩
    | measured parentDelay p =>
      obtain ⟨order, later, past, half, mine⟩ := stage
      exact ⟨order, later, Nat.le_add_right_of_le past, half, mine⟩
    | setting parentDelay =>
      obtain ⟨half, p, x, mine, next, fewer, near⟩ := stage
      refine ⟨half, p, x + UInt32.ofNat n, mine, ?_, ?_, near.pass (by omega)⟩
      · show (s.clock.pass n).shown.next = some (x + UInt32.ofNat n)
        rw [shown_pass, Shown.pass, next]
        rfl
      · have more : s.seconds + off ≤ s.seconds + n + off := by omega
        exact Nat.le_trans fewer more
    | set parentDelay =>
      obtain ⟨half, written, p, mine, fewer, near⟩ := stage
      refine ⟨half, written, p, mine, ?_, ?_⟩
      · have more : s.seconds + off ≤ s.seconds + n + off := by omega
        exact Nat.le_trans fewer more
      · have shows : timeMNow (s.clock.pass n) = timeMNow s.clock + .ofNat n :=
          timeMLocal_pass s.clock n s.clock.timeStarted
        show Within _ _ (s.seconds + n) (timeMNow (s.clock.pass n))
        rw [shows]
        exact near.pass (by omega)

theorem Shaken.greet {time : UInt32} (shaken : Shaken off skew start s)
    (near : Near off s.parents time) (free : s.hello = none) :
    Shaken off skew start { s with hello := some ⟨time, s.seconds⟩ } := by
  obtain ⟨aligned, ⟨after, range⟩, hello, stage⟩ := shaken
  constructor
  case aligned => exact aligned
  case range => exact ⟨after, range⟩
  case hello =>
    intro p mine
    obtain rfl := Option.some.inj mine
    obtain ⟨early, late⟩ := near
    have within : Within (off + skew) off s.seconds time := ⟨by omega, by omega⟩
    exact ⟨after, Nat.le_refl _, within⟩
  case stage =>
    show Holds off skew start _ s.stage
    cases at_ : s.stage with rw [at_] at stage
    | connected => trivial
    | recvHello t1 => exact stage
    | received t1 p =>
      obtain ⟨_, _, _, q, mine, _⟩ := stage
      cases free.symm.trans mine
    | measured parentDelay p =>
      obtain ⟨_, _, _, _, q, mine, _⟩ := stage
      cases free.symm.trans mine
    | setting parentDelay =>
      obtain ⟨_, q, _, mine, _⟩ := stage
      cases free.symm.trans mine
    | set parentDelay =>
      obtain ⟨_, _, q, mine, _⟩ := stage
      cases free.symm.trans mine

theorem Shaken.next (shaken : Shaken off skew start s) (edge : step s .next = some s') :
    Shaken off skew start s' := by
  have ⟨aligned, ⟨after, range⟩, hello, stage⟩ := shaken
  simp only [Handshake.step] at edge
  split at edge
  case h_1 at_ =>
    cases edge
    refine ⟨aligned, ⟨after, range⟩, hello, after, Nat.le_refl _, ?_⟩
    show timeMLocal s.clock = timeMLocal s.clock + .ofNat (s.seconds - s.seconds)
    rw [Nat.sub_self]
    exact (UInt32.add_zero _).symm
  case h_2 t1 at_ =>
    rw [at_] at stage
    obtain ⟨p, mine, rfl⟩ := Option.map_eq_some_iff.mp edge
    obtain ⟨order, past, distance⟩ := stage
    exact ⟨aligned, ⟨after, range⟩, hello, order, past, distance, p, mine, rfl⟩
  case h_3 t1 time at_ =>
    rw [at_] at stage
    cases edge
    obtain ⟨order, past, distance, p, mine, told⟩ := stage
    have half := half_distance distance (by omega)
    exact ⟨aligned, ⟨after, range⟩, hello, order, past, Nat.le_refl _, half, p, mine, told,
      (hello p mine).2.1⟩
  case h_4 parentDelay time at_ =>
    rw [at_] at stage
    cases edge
    obtain ⟨order, later, past, half, p, mine, rfl, received⟩ := stage
    obtain ⟨fewer, near⟩ := shaken.told mine ⟨order, later, past⟩ half received
    refine ⟨aligned, ⟨after, range⟩, hello, half, p, p.time + parentDelay, mine, ?_, fewer, near⟩
    show (timeMSync s.clock (p.time + parentDelay)).shown.next = some (p.time + parentDelay)
    rw [shown_timeMSync]
    rfl
  case h_5 parentDelay at_ =>
    rw [at_] at stage
    cases edge
    obtain ⟨half, p, x, mine, next, fewer, near⟩ := stage
    have written : (timeStarts s.clock).syncing = none := by
      rw [timeStarts]
      cases under : s.clock.syncing with
      | none => exact under
      | some now => rfl
    refine ⟨aligned, ⟨after, range⟩, hello, half, written, p, mine, fewer, ?_⟩
    have shows : (timeStarts s.clock).shown.now = x := by
      rw [shown_timeStarts, Shown.settle, next]
      rfl
    show Within _ _ s.seconds (timeStarts s.clock).shown.now
    rwa [shows]
  case h_6 => cases edge

theorem Shaken.step {a : Label} (shaken : Shaken off skew start s) (guard : greeted off skew start s a)
    (edge : step s a = some s') : Shaken off skew start s' := by
  cases a with
  | pass n m =>
    cases edge
    exact shaken.pass guard.1 guard.2
  | greet time =>
    simp only [Handshake.step] at edge
    split at edge <;> cases edge
    exact shaken.greet guard ‹_›
  | next => exact shaken.next edge

variable {time : Nat}

theorem shaken_of_reach (fits : start + off < 2 ^ 32)
    (reach : (handshake time start).Reach (greeted off skew start) s) : Shaken off skew start s :=
  reach.invariant (Shaken.init fits) fun _ _ _ shaken guard edge => shaken.step guard edge

theorem started_of_hello {V : Type} {h : Hierarchy V} {u v : V} {parentDelay : UInt32} {error : Nat}
    (up : h.parent v = some u) (fits : start + apart h error skew u < 2 ^ 32)
    (reach : (handshake time start).Reach (greeted (apart h error skew u) skew start) s)
    (ready : s.stage = .set parentDelay) (fewer : ∀ p, s.hello = some p →
      slack (apart h error skew u) p.stamped s.begun s.ended s.told ≤ apart h error skew u + error) :
    s.clock.syncing = none ∧ Kept h error skew v s.seconds (timeMNow s.clock) := by
  have stage := (shaken_of_reach fits reach).stage
  rw [ready] at stage
  obtain ⟨_, written, p, mine, _, early, late⟩ := stage
  have few := fewer p mine
  have level : apart h error skew v = apart h error skew u + error + skew := apart_below up
  exact ⟨written, by omega, by omega⟩

end Invariant

def sixSeconds : List Label :=
  [.pass 1 1, .next, .pass 2 2, .greet 102, .pass 4 3, .next, .next, .next, .next, .pass 20 21]

end DistributedClipboard.Network.Handshake
