/- module: DistributedClipboard/Network/SyncWaves
   source: src/src/interfaces/clipif.c, src/src/utils/time.c
   layer: theorem
   digest: The clocks of a whole tree of clipboards, with any number of `TIME_SYNC` packets under way. -/

import DistributedClipboard.Lib.Rooted
import DistributedClipboard.Lib.Transition
import DistributedClipboard.Utils.Time
import Mathlib.Logic.Function.Basic

set_option autoImplicit false
set_option relaxedAutoImplicit false

namespace DistributedClipboard.Network.SyncWaves

open DistributedClipboard.Lib.Rooted
open DistributedClipboard.Lib.Transition
open DistributedClipboard.Utils.Time

universe u

/-- A `TIME_SYNC` packet. When its time was read is a ghost. -/
structure Sync where
  time : UInt32
  stamped : Nat
  deriving DecidableEq, Repr

/-- The slave of the connection with the parent: it waits for a packet, it is in `time_m_sync` and
has read its machine's clock, or it has set its clock and is to read it for its own children. -/
inductive Stage
  | idle
  | setting
  | set
  deriving DecidableEq, Repr

/-- `link u w` are the packets that `u` has queued for its child `w` and that `w` has not received.
One that is still in the queue of the root is `none`: it is the variable `p` of `clipif_clock_man`,
whose bytes are sent as they are then. The whole seconds that each machine has counted are a
ghost. -/
structure State (V : Type u) where
  clock : V → Clock
  stage : V → Stage
  link : V → V → List (Option Sync)
  p : Option Sync
  seconds : V → Nat

inductive Label (V : Type u)
  /-- Time passes, and each machine counts the seconds that end on it. -/
  | pass (n : V → Nat)
  /-- `p.time = time_m_now()` and `clipif_add_broadcast(&p,-1)` -/
  | tick
  /-- The broadcaster of the root sends `p` to a child. -/
  | send (w : V)
  /-- `time_m_sync(ps->time + clipif->parentDelay)` up to its lock. -/
  | sync (v : V)
  | set (v : V)
  /-- `ps->time = time_m_now()` and `clipif_add_broadcast(ps,sock)` -/
  | forward (v : V)

variable {V : Type u} [DecidableEq V]

def sendFirst (q : Sync) : List (Option Sync) → List (Option Sync)
  | [] => []
  | none :: rest => some q :: rest
  | some p :: rest => some p :: sendFirst q rest

variable (h : Hierarchy V) (parentDelay : V → UInt32)

/-- What the clipboard's clock shows now. -/
def reading (s : State V) (v : V) : Sync := ⟨timeMNow (s.clock v), s.seconds h.root⟩

/-- `clipif_add_broadcast`: the packet is to go to all the children. -/
def addBroadcast (s : State V) (v : V) (packet : Option Sync) : State V :=
  { s with link := fun u w =>
      if u = v ∧ h.parent w = some v then s.link u w ++ [packet] else s.link u w }

def step (s : State V) : Label V → Option (State V)
  | .pass n =>
    some { s with
      clock := fun v => (s.clock v).pass (n v)
      seconds := fun v => s.seconds v + n v }
  | .tick =>
    some { addBroadcast h s h.root none with p := some (reading h s h.root) }
  | .send w =>
    s.p.map fun q => { s with link := fun u x =>
      if u = h.root ∧ x = w then sendFirst q (s.link u x) else s.link u x }
  | .sync v =>
    match s.stage v, h.parent v with
    | .idle, some u =>
      match s.link u v with
      | some ps :: rest =>
        some { s with
          clock := Function.update s.clock v (timeMSync (s.clock v) (ps.time + parentDelay v))
          stage := Function.update s.stage v .setting
          link := fun a w => if a = u ∧ w = v then rest else s.link a w }
      | _ => none
    | _, _ => none
  | .set v =>
    if s.stage v = .setting then
      some { s with
        clock := Function.update s.clock v (timeStarts (s.clock v))
        stage := Function.update s.stage v .set }
    else none
  | .forward v =>
    if s.stage v = .set then
      some { addBroadcast h s v (some (reading h s v)) with
        stage := Function.update s.stage v .idle }
    else none

/-- The clipboards of a tree, with the clocks they have set when they connected. -/
def waves (clocks : V → Clock) (start : V → Nat) : System (State V) (Label V) where
  init := ⟨clocks, fun _ => .idle, fun _ _ => [], none, start⟩
  step := step h parentDelay

def Within (slow fast time : Nat) (shown : UInt32) : Prop :=
  time ≤ shown.toNat + slow ∧ shown.toNat ≤ time + fast

instance (slow fast time : Nat) (shown : UInt32) : Decidable (Within slow fast time shown) :=
  inferInstanceAs (Decidable (_ ∧ _))

/-- A clock shows the time, or is off by at most so much. -/
def Near (off time : Nat) (shown : UInt32) : Prop := Within off off time shown

instance (off time : Nat) (shown : UInt32) : Decidable (Near off time shown) :=
  inferInstanceAs (Decidable (Within ..))

variable (error skew : Nat)

/-- How far the clock of a clipboard may be from the root's. -/
def apart (v : V) : Nat := (error + skew) * h.depth v

def Aligned (seconds : V → Nat) : Prop :=
  ∀ v, seconds h.root ≤ seconds v ∧ seconds v ≤ seconds h.root + skew

instance [Fintype V] (seconds : V → Nat) : Decidable (Aligned h skew seconds) :=
  inferInstanceAs (Decidable (∀ _, _))

def InRange (seconds : V → Nat) : Prop := ∀ v, seconds v + apart h error skew v < 2 ^ 32

instance [Fintype V] (seconds : V → Nat) : Decidable (InRange h error skew seconds) :=
  inferInstanceAs (Decidable (∀ _, _))

def upNext (s : State V) (v : V) : Option Sync :=
  (h.parent v).bind fun u => (s.link u v).head?.join

/-- A clipboard that sets its clock is wrong about the age of the packet by at most `error` seconds,
the machines go on counting together, and no clock comes to the end of its 32 bits. -/
def steady (s : State V) : Label V → Prop
  | .pass n => Aligned h skew (fun v => s.seconds v + n v) ∧
      InRange h error skew (fun v => s.seconds v + n v)
  | .sync v => ∀ ps ∈ upNext h s v, Near error (s.seconds h.root - ps.stamped) (parentDelay v)
  | _ => True

instance [Fintype V] (s : State V) :
    (a : Label V) → Decidable (steady h parentDelay error skew s a)
  | .pass _ => inferInstanceAs (Decidable (Aligned h skew _ ∧ InRange h error skew _))
  | .sync v => inferInstanceAs (Decidable (∀ ps ∈ upNext h s v, _))
  | .tick | .send _ | .set _ | .forward _ => inferInstanceAs (Decidable True)

def Kept (v : V) (time : Nat) (shown : UInt32) : Prop :=
  Within (apart h error skew v) (apart h error skew v - skew) time shown

instance (v : V) (time : Nat) (shown : UInt32) : Decidable (Kept h error skew v time shown) :=
  inferInstanceAs (Decidable (Within ..))

/-- The clocks when the clipboards have connected. -/
structure Started (clocks : V → Clock) (start : V → Nat) : Prop where
  aligned : Aligned h skew start
  range : InRange h error skew start
  clocks : ∀ v, (clocks v).syncing = none ∧ Kept h error skew v (start v) (timeMNow (clocks v))

section Arithmetic

variable {slow fast off time stamped n : Nat} {shown delay : UInt32}

theorem Within.pass (within : Within slow fast time shown) (fits : time + n + fast < 2 ^ 32) :
    Within slow fast (time + n) (shown + .ofNat n) := by
  obtain ⟨early, late⟩ := within
  have small : (UInt32.ofNat n).toNat = n := by
    rw [UInt32.toNat_ofNat']
    exact Nat.mod_eq_of_lt (by omega)
  have sum : (shown + .ofNat n).toNat = shown.toNat + n := by
    rw [UInt32.toNat_add, small]
    exact Nat.mod_eq_of_lt (by omega)
  rw [Within, sum]
  omega

theorem Within.aged (within : Within slow fast stamped shown) (past : stamped ≤ time)
    (age : Near off (time - stamped) delay) (fits : time + (fast + off) < 2 ^ 32) :
    Within (slow + off) (fast + off) time (shown + delay) := by
  obtain ⟨early, late⟩ := within
  obtain ⟨less, more⟩ := age
  have sum : (shown + delay).toNat = shown.toNat + delay.toNat := by
    rw [UInt32.toNat_add]
    exact Nat.mod_eq_of_lt (by omega)
  rw [Within, sum]
  omega

end Arithmetic

section Invariant

def Fresh (v : V) (s : State V) (q : Sync) : Prop :=
  q.stamped ≤ s.seconds h.root ∧ Near (apart h error skew v) q.stamped q.time

structure Right (v : V) (time : Nat) (c : Clock) : Prop where
  now : Kept h error skew v time c.shown.now
  next : ∀ x, c.shown.next = some x → Kept h error skew v time x

structure Synced (s : State V) : Prop where
  aligned : Aligned h skew s.seconds
  range : InRange h error skew s.seconds
  clocks : ∀ v, Right h error skew v (s.seconds v) (s.clock v)
  packets : ∀ u w q, some q ∈ s.link u w → Fresh h error skew u s q
  shared : ∀ q, s.p = some q → Fresh h error skew h.root s q

variable {h parentDelay error skew} {s s' : State V} {v : V}

omit [DecidableEq V] in
theorem apart_below {u : V} (up : h.parent v = some u) :
    apart h error skew v = apart h error skew u + error + skew := by
  rw [apart, apart, h.below v u up, Nat.mul_succ, Nat.add_assoc]

omit [DecidableEq V] in
theorem Kept.near {seconds : V → Nat} {shown : UInt32} (aligned : Aligned h skew seconds)
    (kept : Kept h error skew v (seconds v) shown) :
    Near (apart h error skew v) (seconds h.root) shown := by
  obtain ⟨early, late⟩ := kept
  obtain ⟨behind, ahead⟩ := aligned v
  by_cases root : v = h.root
  · subst root
    exact ⟨early, by omega⟩
  · have level : skew ≤ apart h error skew v := by
      cases up : h.parent v with
      | none => exact absurd (h.top v up) root
      | some u =>
        rw [apart_below up]
        exact Nat.le_add_left ..
    exact ⟨by omega, by omega⟩

omit [DecidableEq V] in
theorem Synced.near (synced : Synced h error skew s) (v : V) :
    Near (apart h error skew v) (s.seconds h.root) (timeMNow (s.clock v)) :=
  Kept.near synced.aligned (synced.clocks v).now

omit [DecidableEq V] in
theorem Synced.init {clocks : V → Clock} {start : V → Nat}
    (started : Started h error skew clocks start) :
    Synced h error skew ⟨clocks, fun _ => .idle, fun _ _ => [], none, start⟩ where
  aligned := started.aligned
  range := started.range
  clocks v := by
    refine ⟨(started.clocks v).2, fun x later => ?_⟩
    rw [Clock.shown, (started.clocks v).1] at later
    cases later
  packets u w q mine := absurd mine List.not_mem_nil
  shared q mine := by cases mine

omit [DecidableEq V] in
theorem Synced.reading (synced : Synced h error skew s) (v : V) :
    Fresh h error skew v s (reading h s v) := ⟨Nat.le_refl _, synced.near v⟩

theorem mem_addBroadcast {u w : V} {packet q : Option Sync}
    (mine : q ∈ (addBroadcast h s v packet).link u w) : q ∈ s.link u w ∨ u = v ∧ q = packet := by
  simp only [addBroadcast] at mine
  split at mine
  · rename_i child
    rcases List.mem_append.mp mine with old | new
    · exact .inl old
    · exact .inr ⟨child.1, List.mem_singleton.mp new⟩
  · exact .inl mine

theorem mem_sendFirst {q p : Sync} {l : List (Option Sync)} (mine : some p ∈ sendFirst q l) :
    some p ∈ l ∨ p = q := by
  induction l with
  | nil => exact .inl mine
  | cons x rest ih =>
    cases x with
    | none =>
      rcases List.mem_cons.mp mine with new | old
      · exact .inr (Option.some.inj new)
      · exact .inl (List.mem_cons_of_mem _ old)
    | some y =>
      rcases List.mem_cons.mp mine with first | later
      · exact .inl (first ▸ List.mem_cons_self)
      · exact (ih later).imp_left (List.mem_cons_of_mem _)

omit [DecidableEq V] in
theorem Kept.pass {time n : Nat} {shown : UInt32} (kept : Kept h error skew v time shown)
    (fits : time + n + apart h error skew v < 2 ^ 32) :
    Kept h error skew v (time + n) (shown + .ofNat n) :=
  Within.pass kept (by omega)

omit [DecidableEq V] in
theorem Synced.pass {n : V → Nat} (synced : Synced h error skew s)
    (aligned : Aligned h skew fun v => s.seconds v + n v)
    (range : InRange h error skew fun v => s.seconds v + n v) :
    Synced h error skew { s with
      clock := fun v => (s.clock v).pass (n v), seconds := fun v => s.seconds v + n v } where
  aligned := aligned
  range := range
  clocks v := by
    obtain ⟨now, next⟩ := synced.clocks v
    refine ⟨?_, fun x later => ?_⟩
    · rw [shown_pass]
      exact now.pass (range v)
    · rw [shown_pass] at later
      obtain ⟨y, before, rfl⟩ := Option.map_eq_some_iff.mp later
      exact (next y before).pass (range v)
  packets u w q mine := by
    obtain ⟨past, near⟩ := synced.packets u w q mine
    exact ⟨Nat.le_add_right_of_le past, near⟩
  shared q mine := by
    obtain ⟨past, near⟩ := synced.shared q mine
    exact ⟨Nat.le_add_right_of_le past, near⟩

omit [DecidableEq V] in
theorem Synced.sync {u : V} {ps : Sync} {rest : List (Option Sync)}
    (synced : Synced h error skew s) (parent : h.parent v = some u)
    (first : s.link u v = some ps :: rest)
    (age : Near error (s.seconds h.root - ps.stamped) (parentDelay v)) :
    Kept h error skew v (s.seconds v) (ps.time + parentDelay v) := by
  have level : apart h error skew v = apart h error skew u + error + skew := apart_below parent
  have mine : some ps ∈ s.link u v := by
    rw [first]
    exact List.mem_cons_self
  obtain ⟨past, near⟩ := synced.packets u v ps mine
  obtain ⟨behind, ahead⟩ := synced.aligned v
  have fits := synced.range v
  obtain ⟨early, late⟩ := Within.aged near past age (by omega)
  exact ⟨by omega, by omega⟩

theorem Synced.setClock {c : Clock} {stage : V → Stage} {link : V → V → List (Option Sync)}
    (synced : Synced h error skew s) (right : Right h error skew v (s.seconds v) c)
    (fewer : ∀ u w, link u w ⊆ s.link u w) :
    Synced h error skew
      { s with clock := Function.update s.clock v c, stage := stage, link := link } where
  aligned := synced.aligned
  range := synced.range
  clocks w := by
    show Right h error skew w (s.seconds w) (Function.update s.clock v c w)
    by_cases here : w = v
    · subst here
      rwa [Function.update_self]
    · rw [Function.update_of_ne here]
      exact synced.clocks w
  packets u w q mine := synced.packets u w q (fewer u w mine)
  shared := synced.shared

theorem Synced.step {a : Label V} (synced : Synced h error skew s)
    (guard : steady h parentDelay error skew s a) (edge : step h parentDelay s a = some s') :
    Synced h error skew s' := by
  cases a with
  | pass n =>
    cases edge
    exact synced.pass guard.1 guard.2
  | tick =>
    cases edge
    refine ⟨synced.aligned, synced.range, synced.clocks, fun u w q mine => ?_, fun q mine => ?_⟩
    · rcases mem_addBroadcast mine with old | ⟨_, new⟩
      · exact synced.packets u w q old
      · cases new
    · cases mine
      exact synced.reading h.root
  | send w =>
    obtain ⟨q, shared, rfl⟩ := Option.map_eq_some_iff.mp edge
    refine ⟨synced.aligned, synced.range, synced.clocks, fun u x p mine => ?_, synced.shared⟩
    simp only at mine
    split at mine
    · rename_i child
      rcases mem_sendFirst mine with old | rfl
      · exact synced.packets u x p old
      · rw [child.1]
        exact synced.shared p shared
    · exact synced.packets u x p mine
  | sync v =>
    simp only [SyncWaves.step] at edge
    split at edge
    case h_2 => cases edge
    case h_1 u _ parent =>
      split at edge
      case h_2 => cases edge
      case h_1 ps rest first =>
        cases edge
        have told := synced.sync parent first (guard ps (by simp [upNext, parent, first]))
        refine synced.setClock ⟨?_, fun x later => ?_⟩ fun a w => ?_
        · rw [shown_timeMSync]
          exact (synced.clocks v).now
        · rw [shown_timeMSync] at later
          obtain rfl := Option.some.inj later
          exact told
        · split
          · rename_i same
            obtain ⟨rfl, rfl⟩ := same
            rw [first]
            exact List.subset_cons_self _ _
          · exact List.Subset.refl _
  | set v =>
    simp only [SyncWaves.step] at edge
    split at edge <;> cases edge
    obtain ⟨now, next⟩ := synced.clocks v
    refine synced.setClock ⟨?_, fun x later => ?_⟩ fun u w => List.Subset.refl _
    · rw [shown_timeStarts, Shown.settle]
      cases told : (s.clock v).shown.next with
      | none => exact now
      | some x => exact next x told
    · rw [shown_timeStarts] at later
      cases later
  | forward v =>
    simp only [SyncWaves.step] at edge
    split at edge <;> cases edge
    refine ⟨synced.aligned, synced.range, synced.clocks, fun u w q mine => ?_, synced.shared⟩
    rcases mem_addBroadcast mine with old | ⟨rfl, new⟩
    · exact synced.packets u w q old
    · obtain rfl := Option.some.inj new
      exact synced.reading u

variable {clocks : V → Clock} {start : V → Nat}

theorem synced_of_reach (started : Started h error skew clocks start)
    (reach : (waves h parentDelay clocks start).Reach (steady h parentDelay error skew) s) :
    Synced h error skew s :=
  reach.invariant (Synced.init started) fun _ _ _ synced guard edge => synced.step guard edge

end Invariant

section Line

def line : Hierarchy (Fin 3) where
  root := ⟨0, by decide⟩
  parent
    | ⟨0, _⟩ => none
    | ⟨v + 1, bound⟩ => some ⟨v, Nat.lt_of_succ_lt bound⟩
  depth v := v.val
  depth_root := rfl
  top v alone := by
    obtain ⟨_ | v, bound⟩ := v
    · rfl
    · cases alone
  below v u up := by
    obtain ⟨_ | v, bound⟩ := v
    · cases up
    · obtain rfl := Option.some.inj up
      rfl

def lineClocks : Fin 3 → Clock
  | 0 => ⟨100, 0, none⟩
  | 1 => ⟨7, 7 - 101, none⟩
  | 2 => ⟨4000000000, 4000000000 - 98, none⟩

/-- So many seconds for all machines, and one more for `v`, whose next second begins before the
root's. -/
def early {V : Type} [DecidableEq V] (n : Nat) (v : V) : V → Nat := fun w => if w = v then n + 1 else n

def late {V : Type} [DecidableEq V] (n : Nat) (v : V) : V → Nat := fun w => if w = v then n - 1 else n

def lineWave {V : Type} [DecidableEq V] (v w : V) : List (Label V) :=
  [.tick, .pass fun _ => 2, .send v, .pass (early 1 v), .sync v, .set v, .forward v,
    .pass (late 3 v), .sync w, .set w, .pass (early 9 w)]

end Line

end DistributedClipboard.Network.SyncWaves
