/- module: DistributedClipboard/Interfaces/Search
   source: src/src/interfaces/clipif.c
   layer: theorem
   digest: The trylock search of the clipboards' listener, and the order that makes it fail. -/

import DistributedClipboard.Interfaces.ClipChanges
import DistributedClipboard.Interfaces.Connections

set_option autoImplicit false
set_option relaxedAutoImplicit false

namespace DistributedClipboard.Interfaces.Search

open DistributedClipboard.Common
open DistributedClipboard.Interfaces.ClipChanges
open DistributedClipboard.Interfaces.Connections
open DistributedClipboard.Interfaces.Tables
open DistributedClipboard.Lib.Counting
open DistributedClipboard.Lib.Transition

def finds (fd : Slot → Fd) : ClipListen → Prop
  | .hello _ => ∃ j, fd j = 0
  | .trylock _ i => ∃ j : Slot, i ≤ j.val ∧ fd j = 0
  | .test _ i => ∃ j, i ≤ j ∧ fd j = 0
  | .release _ i => ∃ j, i < j ∧ fd j = 0
  | .zombie _ => False
  | _ => True

structure SearchInv (c : Clip) : Prop where
  finds : finds (fun i => (c.connections i).sockFd) c.listen
  unlocked : c.jammed = false

def lastSlotBusy (c : Clip) : Bool :=
  match c.listen with
  | .trylock _ i => decide (∃ j : Slot, j.val = i ∧ (c.connections j).sockFd = 0 ∧
      (c.connections j).lock ≠ none ∧ ∀ m, j < m → (c.connections m).sockFd ≠ 0)
  | _ => false

/-- The step is not such a trylock. -/
def lastSlotFree (s : State) (a : Label) : Prop :=
  (match a with
    | .clipListen _ => lastSlotBusy s.clip
    | _ => false) = false

instance (s : State) (a : Label) : Decidable (lastSlotFree s a) :=
  inferInstanceAs (Decidable (_ = false))

section Steps

variable {kernel kernel' : Kernel} {c c' : Clip}

theorem finds_idle {fd : Slot → Fd} {pc : ClipListen}
    (idle : ClipTable.Listener.holdsInterface pc = false) : finds fd pc := by
  cases pc <;> simp [ClipTable.Listener.holdsInterface] at idle <;> trivial

theorem SearchInv.listen {greeted : Bool} (inv : ClipTable.Inv kernel c) (h : SearchInv c)
    (free : lastSlotBusy c = false) (edge : clipListenStep kernel c greeted = some (kernel', c')) :
    SearchInv c' := by
  obtain ⟨found, unlocked⟩ := h
  unfold clipListenStep at edge
  split at edge
  case h_1 => cases edge
  case h_2 a pc =>
    split at edge <;> cases edge
    exact ⟨trivial, unlocked⟩
  case h_3 pc =>
    cases edge
    exact ⟨trivial, unlocked⟩
  case h_4 a pc =>
    split at edge <;> cases edge
    · exact ⟨trivial, unlocked⟩
    · rename_i room
      refine ⟨?_, unlocked⟩
      -- the counter is exact here, so a slot is free
      have mine := inv.listener_has (by rw [pc]; rfl)
      have counted := inv.counted
      simp only [ClipTable.ahead, mine, pc, ClipTable.Listener.ahead, Bool.toNat_false] at counted
      exact ClipTable.exists_free (c := c) (by omega)
  case h_5 a pc =>
    rw [pc] at found
    split at edge <;> cases edge
    · obtain ⟨j, zero⟩ := found
      exact ⟨⟨j, Nat.zero_le _, zero⟩, unlocked⟩
    · exact ⟨trivial, unlocked⟩
  case h_6 a pc =>
    cases edge
    exact ⟨trivial, unlocked⟩
  case h_7 a i pc =>
    rw [pc] at found
    obtain ⟨j, above, zero⟩ := found
    split at edge
    · rename_i bound
      split at edge <;> cases edge
      · refine ⟨⟨j, above, ?_⟩, unlocked⟩
        rw [← zero]
        exact (ClipTable.setLock_fd _ j _).1
      · rename_i held
        refine ⟨?_, unlocked⟩
        by_cases here : j.val = i
        · -- the slot tried is free and its lock is held: another free slot has to follow
          have later : ¬ ∀ m, (⟨i, bound⟩ : Slot) < m → (c.connections m).sockFd ≠ 0 := by
            intro last
            have same : j = ⟨i, bound⟩ := Fin.ext here
            have busy : lastSlotBusy c = true := by
              rw [lastSlotBusy, pc]
              exact decide_eq_true ⟨⟨i, bound⟩, rfl, same ▸ zero, held, last⟩
            rw [busy] at free
            cases free
          obtain ⟨m, rest⟩ := not_forall.mp later
          obtain ⟨beyond, zero'⟩ := Classical.not_imp.mp rest
          exact ⟨m, beyond, not_not.mp zero'⟩
        · exact ⟨j, by omega, zero⟩
    · rename_i past
      exact absurd (Nat.lt_of_le_of_lt above j.isLt) past
  case h_8 a i pc =>
    rw [pc] at found
    obtain ⟨j, above, zero⟩ := found
    split at edge <;> cases edge
    · exact ⟨trivial, unlocked⟩
    · rename_i taken
      refine ⟨⟨j, lt_of_le_of_ne above ?_, zero⟩, unlocked⟩
      rintro rfl
      exact taken zero
  case h_9 a i pc =>
    rw [pc] at found
    obtain ⟨j, beyond, zero⟩ := found
    cases edge
    refine ⟨⟨j, beyond, ?_⟩, unlocked⟩
    rw [← zero]
    exact (ClipTable.setLock_fd _ j _).1
  case h_10 a pc =>
    rw [pc] at found
    exact found.elim
  all_goals
    cases edge
    exact ⟨trivial, unlocked⟩

theorem SearchInv.slave {k : Nat} {act : SlaveAct} {packets : List Broadcast}
    (inv : ClipTable.Inv kernel c) (h : SearchInv c)
    (edge : clipSlaveStep kernel c k act = some (kernel', c', packets)) : SearchInv c' := by
  obtain ⟨listen, jammed, _, _⟩ := clipSlaveStep_frame edge
  refine ⟨?_, jammed.trans h.unlocked⟩
  rw [listen]
  cases clipSlaveStep_table edge with
  | same fd owner =>
    simp only [fd]
    exact h.finds
  | store a i pc =>
    rw [pc]
    trivial
  | clear m pc =>
    have busy := inv.slave_has (k := m) (by rw [pc]; rfl)
    refine finds_idle ?_
    by_contra searching
    have mine := inv.listener_has (by simpa using searching)
    rw [busy] at mine
    cases mine

theorem SearchInv.broadcast {queue queue' : List Broadcast} (h : SearchInv c)
    (edge : broadcastStep c queue = some (c', queue')) : SearchInv c' := by
  obtain ⟨listen, jammed, _, fd, _⟩ := broadcastStep_frame edge
  refine ⟨?_, jammed.trans h.unlocked⟩
  simp only [listen, fd]
  exact h.finds

theorem searchInv_of_reach {parent : Fd} {s : State}
    (h : (tables parent).Reach lastSlotFree s) : SearchInv s.clip := by
  have start : SearchInv (tables parent).init.clip := ⟨trivial, rfl⟩
  refine h.invariant_of (J := Connections.Inv) (I := fun s => SearchInv s.clip)
    (fun t => inv_of_reach) start fun s a t inv known free edge => ?_
  cases a with
  | clipAccept fd =>
    simp only [tables, Tables.step] at edge
    split at edge
    · obtain ⟨kernel, _, rfl⟩ := Option.map_eq_some_iff.mp edge
      exact ⟨trivial, known.unlocked⟩
    · cases edge
  | clipListen greeted =>
    obtain ⟨⟨kernel, c⟩, moved, rfl⟩ := Option.map_eq_some_iff.mp edge
    exact known.listen inv.clip free moved
  | clipSlave k act =>
    obtain ⟨⟨kernel, c, packets⟩, moved, rfl⟩ := Option.map_eq_some_iff.mp edge
    exact known.slave inv.clip moved
  | broadcast =>
    obtain ⟨⟨c, queue⟩, moved, rfl⟩ := Option.map_eq_some_iff.mp edge
    exact known.broadcast moved
  | clock =>
    simp only [tables, Tables.step] at edge
    split at edge <;> cases edge
    exact known
  | appAccept fd =>
    simp only [tables, Tables.step] at edge
    split at edge
    · obtain ⟨kernel, _, rfl⟩ := Option.map_eq_some_iff.mp edge
      exact known
    · cases edge
  | appListen =>
    obtain ⟨⟨kernel, p⟩, _, rfl⟩ := Option.map_eq_some_iff.mp edge
    exact known
  | appSlave k act =>
    obtain ⟨⟨kernel, p, packets⟩, _, rfl⟩ := Option.map_eq_some_iff.mp edge
    exact known

end Steps

/-- What is expected of the search and of the loop around it. -/
structure SearchSound (c : Clip) : Prop where
  ahead : ∀ a i, c.listen = .trylock a i → ∃ j : Slot, i ≤ j.val ∧ (c.connections j).sockFd = 0
  free : ∀ a i, c.listen = .count a i →
    (c.connections i).sockFd = 0 ∧ (c.connections i).lock = some .listener
  noZombie : ∀ a, c.listen ≠ .zombie a
  unlocked : c.listen = .accept → c.lock ≠ some .listener

theorem searchSound_of_inv {kernel : Kernel} {c : Clip} (inv : ClipTable.Inv kernel c)
    (h : SearchInv c) : SearchSound c where
  ahead a i pc := by
    have found := h.finds
    rw [pc] at found
    exact found
  free a i pc := by
    refine ⟨inv.owners.chosen i (by rw [pc]; rfl), (inv.locks.slots i .listener).mp ?_⟩
    simp [ClipTable.holdsSlot, pc, ClipTable.Listener.holdsSlot]
  noZombie a pc := by
    have found := h.finds
    rw [pc] at found
    exact found
  unlocked pc mine := by
    have holds := (inv.locks.interface .listener).mpr mine
    simp [ClipTable.holdsInterface, pc, ClipTable.Listener.holdsInterface, h.unlocked] at holds

/-- As long as no search tries the last free slot while its lock is held, every search ends on a
free slot and every turn of the loop unlocks the interface. -/
theorem search_sound {parent : Fd} {s : State} (h : (tables parent).Reach lastSlotFree s) :
    SearchSound s.clip :=
  searchSound_of_inv (inv_of_reach h).clip (searchInv_of_reach h)

private def greetedRun : List Label :=
  [Label.clock, .broadcast, .clipAccept (some 4)] ++ List.replicate 3 (Label.clipListen true) ++
    [Label.broadcast] ++ List.replicate 5 (Label.clipListen true)

theorem search_sound_second : ∃ s, (tables 0).Reach lastSlotFree s ∧
    (∃ a, s.clip.listen = .unlockSlot a ⟨1, by decide⟩) ∧ SearchSound s.clip := by
  have reached : ∃ s, (tables 0).Reach lastSlotFree s ∧
      decide (s.clip.listen = .unlockSlot ⟨4, 1⟩ ⟨1, by decide⟩) = true :=
    System.reach_of_guardedRun _ true greetedRun (by decide +kernel)
  obtain ⟨s, reached, seen⟩ := reached
  exact ⟨s, reached, ⟨_, of_decide_eq_true seen⟩, search_sound reached⟩

private def lockstepRun : List Label :=
  [Label.clock, .broadcast, .clipAccept (some 4)] ++ List.replicate 3 (Label.clipListen true) ++
    (List.range maxClipboards).flatMap (fun _ =>
      [Label.broadcast, .clipListen true, .broadcast, .broadcast]) ++
    List.replicate 2 (Label.clipListen true)

/-- Every slot is free, and the listener has taken the "Zombie connection" branch and is back at
`accept` with the interface locked. -/
theorem search_misses_free_slots : ∃ s, (tables 0).Reach System.anyStep s ∧
    (∀ i, (s.clip.connections i).sockFd = 0) ∧ ¬ SearchSound s.clip := by
  have reached : ∃ s, (tables 0).Reach System.anyStep s ∧
      decide ((∀ i, (s.clip.connections i).sockFd = 0) ∧ s.clip.listen = .accept ∧
        s.clip.lock = some .listener) = true :=
    System.reach_of_run _ true lockstepRun (by simp [System.anyStep]) (by decide +kernel)
  obtain ⟨s, reached, seen⟩ := reached
  obtain ⟨free, pc, mine⟩ := of_decide_eq_true seen
  exact ⟨s, reached, free, fun sound => sound.unlocked pc mine⟩

end DistributedClipboard.Interfaces.Search
