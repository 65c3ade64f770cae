/- module: DistributedClipboard/Network/ClockSkew
   source: src/src/utils/time.c, src/src/interfaces/clipif.c
   layer: results
   digest: How far the clocks of a path of clipboards are from the root's after a `TIME_SYNC`. -/

import DistributedClipboard.Lib.Transition
import DistributedClipboard.Interfaces.ClipSlave
import DistributedClipboard.Utils.Time
import Mathlib.Logic.Function.Basic

set_option autoImplicit false
set_option relaxedAutoImplicit false

namespace DistributedClipboard.Network.ClockSkew

open DistributedClipboard.Interfaces.ClipSlave (SlaveState World syncClock forward_log)
open DistributedClipboard.Lib.Transition
open DistributedClipboard.Utils.Packet
open DistributedClipboard.Utils.Time

inductive Wave
  /-- `clipif_clock_man` has not read its clock. -/
  | start
  /-- A packet with this time is on its way from the node, which stamped it when the ghost clock
  showed `stamped`. -/
  | sent (node : Nat) (time : UInt32) (stamped : Nat)
  /-- The node is in `time_m_sync` and has read its machine's clock. -/
  | setting (node : Nat)
  /-- `time_m_sync` has returned, `ps->time = time_m_now()` is next. -/
  | set (node : Nat)
  deriving DecidableEq, Repr

/-- The last node of the path whose clock the wave has set. -/
def Wave.done : Wave → Nat
  | .start => 0
  | .sent node _ _ | .set node => node
  | .setting node => node - 1

/-- `seconds` and `elapsed` are ghosts: the time since the beginning, and for each node the time
from the stamping of its packet for the next one to that one's `time_m_sync`. -/
structure PathState where
  machine : Nat → Clock
  wave : Wave
  seconds : Nat
  elapsed : Nat → Nat

inductive PathLabel
  /-- Time passes, on all machines alike. -/
  | pass (seconds : Nat)
  | next
  deriving DecidableEq, Repr

def PathState.setClock (s : PathState) (node : Nat) (c : Clock) (wave : Wave) : PathState :=
  { s with machine := Function.update s.machine node c, wave := wave }

/-- `p.time = time_m_now()` in `clipif_clock_man`, and `ps->time = time_m_now()` in `clipif_slave`. -/
def PathState.stamp (s : PathState) (node : Nat) : PathState :=
  { s with wave := .sent node (timeMNow (s.machine node)) s.seconds }

def pathStep (parentDelay : Nat → UInt32) (s : PathState) : PathLabel → Option PathState
  | .pass n =>
    some { s with machine := fun i => (s.machine i).pass n, seconds := s.seconds + n }
  | .next =>
    match s.wave with
    | .start => some (s.stamp 0)
    -- time_m_sync(ps->time + clipif->parentDelay)
    | .sent i time stamped =>
      some { s.setClock (i + 1) (timeMSync (s.machine (i + 1)) (time + parentDelay (i + 1)))
          (.setting (i + 1)) with
        elapsed := Function.update s.elapsed i (s.seconds - stamped) }
    | .setting i => some (s.setClock i (timeStarts (s.machine i)) (.set i))
    | .set i => some (s.stamp i)

/-- A path of clipboards with any clocks and delays. -/
def pathSystem (clocks : Nat → Clock) (parentDelay : Nat → UInt32) :
    System PathState PathLabel where
  init := ⟨clocks, .start, 0, fun _ => 0⟩
  step := pathStep parentDelay

/-- The sum over the first links of a path of the delay less the time elapsed. -/
def skew (parentDelay : Nat → UInt32) (elapsed : Nat → Nat) : Nat → UInt32
  | 0 => 0
  | k + 1 => skew parentDelay elapsed k + (parentDelay (k + 1) - .ofNat (elapsed k))

theorem syncClock_calls {w : World} {s : SlaveState} {dataBuffer : Nat} {time now : UInt32}
    (shows : w.timeMNow (s.log ++ [.timeMSync (time + w.parentDelay)]) = now) :
    ∃ err frees, (syncClock w s dataBuffer ⟨PacketType.timeSync.code, time⟩).log =
      s.log ++ [.timeMSync (time + w.parentDelay), .timeMNow now,
        .clipifAddBroadcast dataBuffer (PacketSync.bytes ⟨PacketType.timeSync.code, now⟩) err] ++
          frees := by
  let before := s.log ++ [.timeMSync (time + w.parentDelay), .timeMNow now]
  refine ⟨w.clipifAddBroadcast before,
    if w.clipifAddBroadcast before = 0 then [] else [.free dataBuffer], ?_⟩
  rw [syncClock, forward_log]
  simp only [SlaveState.call_log, shows, List.append_assoc, List.cons_append, List.nil_append,
    before]

section Skew

variable {parentDelay : Nat → UInt32} {elapsed elapsed' : Nat → Nat}

theorem skew_congr {k : Nat} (same : ∀ i, i < k → elapsed i = elapsed' i) :
    skew parentDelay elapsed k = skew parentDelay elapsed' k := by
  induction k with
  | zero => rfl
  | succ k ih =>
    rw [skew, skew, same k (Nat.lt_succ_self k), ih fun i below => same i (Nat.lt_succ_of_lt below)]

theorem skew_update {k i : Nat} (beyond : k ≤ i) (seconds : Nat) :
    skew parentDelay (Function.update elapsed i seconds) k = skew parentDelay elapsed k := by
  refine skew_congr fun j below => ?_
  exact Function.update_of_ne (by omega) _ _

theorem skew_eq_zero_iff (k : Nat) :
    (∀ j, j ≤ k → skew parentDelay elapsed j = 0) ↔
      ∀ i, i < k → parentDelay (i + 1) = .ofNat (elapsed i) := by
  constructor
  · intro zero i below
    have here := zero i (by omega)
    have next := zero (i + 1) (by omega)
    rw [skew, here] at next
    grind
  · intro exact_ j
    induction j with
    | zero =>
      intro _
      rfl
    | succ j ih =>
      intro below
      rw [skew, ih (by omega), exact_ j (by omega)]
      grind

end Skew

section Invariant

variable {clocks : Nat → Clock} {parentDelay : Nat → UInt32} {s t : PathState} {k : Nat}

def PathState.offset (s : PathState) (k : Nat) : UInt32 :=
  timeMNow (s.machine k) - timeMNow (s.machine 0)

/-- The nodes that the wave has set are off by the sum over their links, and so is what the packet,
or the node in `time_m_sync`, says the time is. -/
structure Skewed (parentDelay : Nat → UInt32) (s : PathState) : Prop where
  done : ∀ k, k ≤ s.wave.done → s.offset k = skew parentDelay s.elapsed k
  sent : ∀ i time stamped, s.wave = .sent i time stamped →
    stamped ≤ s.seconds ∧ time + .ofNat (s.seconds - stamped) = timeMNow (s.machine i)
  setting : ∀ i, s.wave = .setting i → 0 < i ∧ ∃ now realNow,
    (s.machine i).syncing = some (now, realNow) ∧
    timeMLocal (s.machine i) - (realNow - now) - timeMNow (s.machine 0) =
      skew parentDelay s.elapsed i

theorem offset_zero (s : PathState) : s.offset 0 = 0 := UInt32.sub_self _

theorem machine_setClock (s : PathState) (node : Nat) (c : Clock) (wave : Wave) :
    (s.setClock node c wave).machine = Function.update s.machine node c := rfl

theorem offset_setClock_of_ne {node : Nat} (child : node ≠ 0) (away : k ≠ node) (c : Clock)
    (wave : Wave) : (s.setClock node c wave).offset k = s.offset k := by
  rw [PathState.offset, machine_setClock, Function.update_of_ne away,
    Function.update_of_ne child.symm]
  rfl

theorem skewed_init : Skewed parentDelay (pathSystem clocks parentDelay).init where
  done k below := by
    obtain rfl : k = 0 := Nat.le_zero.mp below
    exact offset_zero _
  sent _ _ _ there := by cases there
  setting _ there := by cases there

theorem apart_pass (a b : Clock) (n : Nat) (start start' : UInt32) :
    timeMLocal (a.pass n) - start - (timeMLocal (b.pass n) - start') =
      timeMLocal a - start - (timeMLocal b - start') := by
  rw [timeMLocal_pass, timeMLocal_pass]
  grind

theorem Skewed.pass (h : Skewed parentDelay s) (n : Nat) :
    Skewed parentDelay { s with
      machine := fun i => (s.machine i).pass n, seconds := s.seconds + n } where
  done k below := by
    rw [← h.done k below]
    exact apart_pass _ _ n _ _
  sent i time stamped there := by
    obtain ⟨earlier, shows⟩ := h.sent i time stamped there
    refine ⟨Nat.le_add_right_of_le earlier, ?_⟩
    have split_ : s.seconds + n - stamped = (s.seconds - stamped) + n := by omega
    show time + .ofNat (s.seconds + n - stamped) = timeMLocal ((s.machine i).pass n) - _
    rw [timeMLocal_pass, split_, UInt32.ofNat_add, ← UInt32.add_assoc, shows]
    rfl
  setting i there := by
    obtain ⟨positive, now, realNow, syncing, shows⟩ := h.setting i there
    refine ⟨positive, now, realNow, syncing, ?_⟩
    rw [← shows]
    exact apart_pass _ _ n _ _

theorem Skewed.stamp (h : Skewed parentDelay s) {i : Nat} (done : i ≤ s.wave.done) :
    Skewed parentDelay (s.stamp i) where
  done k below := h.done k (Nat.le_trans below done)
  sent j time stamped there := by
    cases there
    refine ⟨Nat.le_refl _, ?_⟩
    show timeMNow (s.machine i) + .ofNat (s.seconds - s.seconds) = timeMNow (s.machine i)
    rw [Nat.sub_self]
    exact UInt32.add_zero _
  setting _ there := by cases there

theorem Skewed.sync (h : Skewed parentDelay s) {i stamped : Nat} {time : UInt32}
    (there : s.wave = .sent i time stamped) (edge : pathStep parentDelay s .next = some t) :
    Skewed parentDelay t := by
  obtain ⟨_, shows⟩ := h.sent i time stamped there
  have sender := h.done i (by rw [there]; exact Nat.le_refl i)
  simp only [pathStep, there, Option.some.injEq] at edge
  subst edge
  constructor
  · intro k below
    have below : k ≤ i := below
    rw [skew_update below, ← h.done k (by rw [there]; exact below)]
    exact offset_setClock_of_ne (Nat.succ_ne_zero i) (by omega) _ (.setting (i + 1))
  · intro j time' stamped' there'
    cases there'
  · intro j there'
    cases there'
    have mine : Function.update s.machine (i + 1)
        (timeMSync (s.machine (i + 1)) (time + parentDelay (i + 1))) (i + 1) =
          timeMSync (s.machine (i + 1)) (time + parentDelay (i + 1)) := Function.update_self ..
    have root : Function.update s.machine (i + 1)
        (timeMSync (s.machine (i + 1)) (time + parentDelay (i + 1))) 0 = s.machine 0 :=
      Function.update_of_ne (Nat.succ_ne_zero i).symm ..
    refine ⟨Nat.succ_pos i, time + parentDelay (i + 1), timeMLocal (s.machine (i + 1)), ?_, ?_⟩
    · simp only [machine_setClock, mine]
      rfl
    · simp only [machine_setClock, mine, root, skew]
      rw [skew_update (Nat.le_refl i), ← sender, Function.update_self, PathState.offset, ← shows]
      simp only [timeMSync, timeMLocal]
      grind

theorem Skewed.settle (h : Skewed parentDelay s) {i : Nat} (there : s.wave = .setting i) :
    Skewed parentDelay (s.setClock i (timeStarts (s.machine i)) (.set i)) := by
  obtain ⟨positive, now, realNow, syncing, shows⟩ := h.setting i there
  have child : i ≠ 0 := Nat.ne_of_gt positive
  constructor
  · intro k below
    have below : k ≤ i := below
    by_cases same : k = i
    · subst same
      rw [PathState.offset, machine_setClock, Function.update_self,
        Function.update_of_ne child.symm, timeStarts, syncing]
      exact shows
    · have before : k ≤ i - 1 := by omega
      rw [offset_setClock_of_ne child same]
      exact h.done k (by rw [there]; exact before)
  · intro j time stamped there'
    cases there'
  · intro j there'
    cases there'

theorem Skewed.step (h : Skewed parentDelay s) {a : PathLabel}
    (edge : pathStep parentDelay s a = some t) : Skewed parentDelay t := by
  cases a with
  | pass n =>
    cases edge
    exact h.pass n
  | next =>
    cases there : s.wave with
    | start =>
      simp only [pathStep, there, Option.some.injEq] at edge
      subst edge
      exact h.stamp (Nat.zero_le _)
    | sent i time stamped => exact h.sync there edge
    | setting i =>
      simp only [pathStep, there, Option.some.injEq] at edge
      subst edge
      exact h.settle there
    | set i =>
      simp only [pathStep, there, Option.some.injEq] at edge
      subst edge
      exact h.stamp (by rw [there]; exact Nat.le_refl i)

theorem skewed_of_reach (h : (pathSystem clocks parentDelay).Reach System.anyStep s) :
    Skewed parentDelay s :=
  h.invariant skewed_init fun _ _ _ skewed _ edge => skewed.step edge

/-- At every moment after the wave has set the clock of a node, the clock is off from the root's by
the sum over the links of the delay less the time elapsed; the clocks of the path agree with the
root's exactly when each delay is exact. -/
theorem clock_skew (clocks : Nat → Clock) (parentDelay : Nat → UInt32) (s : PathState)
    (h : (pathSystem clocks parentDelay).Reach System.anyStep s) (k : Nat)
    (done : k ≤ s.wave.done) :
    timeMNow (s.machine k) - timeMNow (s.machine 0) = skew parentDelay s.elapsed k ∧
    ((∀ j, j ≤ k → timeMNow (s.machine j) = timeMNow (s.machine 0)) ↔
      ∀ i, i < k → parentDelay (i + 1) = .ofNat (s.elapsed i)) := by
  have skewed := skewed_of_reach h
  refine ⟨skewed.done k done, ?_⟩
  rw [← skew_eq_zero_iff]
  refine forall₂_congr fun j below => ?_
  have off := skewed.done j (Nat.le_trans below done)
  rw [← off, PathState.offset]
  constructor
  · intro agree
    rw [agree]
    exact UInt32.sub_self _
  · intro zero
    grind

private def threeClocks : Nat → Clock
  | 0 => ⟨100, 0, none⟩
  | 1 => ⟨4294967295, 0, none⟩
  | _ => ⟨40, 7, none⟩

private def twoDelays : Nat → UInt32
  | 1 => 1
  | _ => 5

private def threeHops : List PathLabel :=
  [.next, .pass 3, .next, .next, .next, .pass 2, .next, .next, .pass 9]

theorem clock_skew_three : ∃ s : PathState,
    (pathSystem threeClocks twoDelays).Reach System.anyStep s ∧
    timeMNow (s.machine 0) = 114 ∧ timeMNow (s.machine 1) = 112 ∧ timeMNow (s.machine 2) = 115 ∧
    timeMNow (s.machine 2) - timeMNow (s.machine 0) = skew twoDelays s.elapsed 2 := by
  have reached : (pathSystem threeClocks twoDelays).Reach System.anyStep _ :=
    System.path_of_run threeHops (fun _ _ _ => trivial) rfl
  exact ⟨_, reached, by decide, by decide, by decide,
    (clock_skew threeClocks twoDelays _ reached 2 (by decide)).1⟩

end Invariant

end DistributedClipboard.Network.ClockSkew
