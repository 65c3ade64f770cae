/- module: DistributedClipboard/Interfaces/ClipChanges
   source: src/src/interfaces/clipif.c
   layer: refinement
   digest: What one step of the clipboards' threads does to the slots. -/

import DistributedClipboard.Interfaces.ClipTable

set_option autoImplicit false
set_option relaxedAutoImplicit false

namespace DistributedClipboard.Interfaces.ClipChanges

open DistributedClipboard.Common
open DistributedClipboard.Interfaces.Tables
open DistributedClipboard.Interfaces.ClipTable

inductive TableChange (c c' : Clip) : Prop
  | same (fd : ∀ j, (c'.connections j).sockFd = (c.connections j).sockFd)
      (owner : ∀ j, (c'.connections j).owner = (c.connections j).owner)
  | store (a : Accepted) (i : Slot) (pc : c.listen = .store a i) (next : c'.listen = .unlockSlot a i)
      (mine : (c'.connections i).sockFd = a.fd ∧ (c'.connections i).owner = some a.conn)
      (others : ∀ j, j ≠ i → c'.connections j = c.connections j)
  | clear (k : Nat) (pc : (c.slaves k).pc = .clear)
      (mine : (c'.connections (c.slaves k).index).sockFd = 0 ∧
        (c'.connections (c.slaves k).index).owner = none)
      (others : ∀ j, j ≠ (c.slaves k).index → c'.connections j = c.connections j)

section Steps

variable {kernel kernel' : Kernel} {c c' : Clip}

theorem clipListenStep_table {greeted : Bool}
    (edge : clipListenStep kernel c greeted = some (kernel', c')) : TableChange c c' := by
  unfold clipListenStep at edge
  split at edge
  case h_7 =>
    repeat' split at edge
    all_goals cases edge
    · exact .same (fun j => (setLock_fd _ j _).1) fun j => (setLock_fd _ j _).2
    · exact .same (fun _ => rfl) fun _ => rfl
    · exact .same (fun _ => rfl) fun _ => rfl
  case h_9 =>
    cases edge
    exact .same (fun j => (setLock_fd _ j _).1) fun j => (setLock_fd _ j _).2
  case h_12 a i pc =>
    cases edge
    refine .store a i pc rfl ?_ fun j apart => ?_
    · simp [Clip.listenGoto, Clip.setSlot]
    · simp [Clip.listenGoto, Clip.setSlot, apart]
  case h_13 =>
    cases edge
    exact .same (fun j => (setLock_fd _ j _).1) fun j => (setLock_fd _ j _).2
  all_goals
    repeat' split at edge
    all_goals
      cases edge
      try exact .same (fun _ => rfl) fun _ => rfl

theorem clipSlaveStep_table {k : Nat} {act : SlaveAct} {packets : List Broadcast}
    (edge : clipSlaveStep kernel c k act = some (kernel', c', packets)) : TableChange c c' := by
  unfold clipSlaveStep at edge
  simp only at edge
  split at edge
  case h_5 =>
    split at edge <;> cases edge
    exact .same (fun j => (setLock_fd _ j _).1) fun j => (setLock_fd _ j _).2
  case h_7 pc =>
    cases edge
    refine .clear k pc ?_ fun j apart => ?_
    · simp [Clip.slaveGoto, Clip.setSlave, Clip.setSlot]
    · simp [Clip.slaveGoto, Clip.setSlave, Clip.setSlot, apart]
  case h_8 =>
    cases edge
    exact .same (fun j => (setLock_fd _ j _).1) fun j => (setLock_fd _ j _).2
  all_goals
    repeat' split at edge
    all_goals
      cases edge
      try exact .same (fun _ => rfl) fun _ => rfl

theorem clipSlaveStep_frame {k : Nat} {act : SlaveAct} {packets : List Broadcast}
    (edge : clipSlaveStep kernel c k act = some (kernel', c', packets)) :
    c'.listen = c.listen ∧ c'.jammed = c.jammed ∧ c'.accepted = c.accepted ∧
      c'.broadcast = c.broadcast := by
  unfold clipSlaveStep at edge
  simp only at edge
  split at edge
  all_goals
    repeat' split at edge
    all_goals
      cases edge
      try exact ⟨rfl, rfl, rfl, rfl⟩

theorem broadcastStep_frame {queue queue' : List Broadcast}
    (edge : broadcastStep c queue = some (c', queue')) :
    c'.listen = c.listen ∧ c'.jammed = c.jammed ∧ c'.accepted = c.accepted ∧
      (∀ j, (c'.connections j).sockFd = (c.connections j).sockFd) ∧
      ∀ j, (c'.connections j).owner = (c.connections j).owner := by
  unfold broadcastStep at edge
  split at edge
  case h_2 =>
    repeat' split at edge
    all_goals cases edge
    · exact ⟨rfl, rfl, rfl, fun j => (setLock_fd _ j _).1, fun j => (setLock_fd _ j _).2⟩
    · exact ⟨rfl, rfl, rfl, fun _ => rfl, fun _ => rfl⟩
  case h_5 =>
    cases edge
    exact ⟨rfl, rfl, rfl, fun j => (setLock_fd _ j _).1, fun j => (setLock_fd _ j _).2⟩
  all_goals
    repeat' split at edge
    all_goals
      cases edge
      try exact ⟨rfl, rfl, rfl, fun _ => rfl, fun _ => rfl⟩

theorem broadcastStep_slaves {queue queue' : List Broadcast}
    (edge : broadcastStep c queue = some (c', queue')) :
    c'.parentSock = c.parentSock ∧ c'.slaves = c.slaves := by
  unfold broadcastStep at edge
  split at edge
  all_goals
    repeat' split at edge
    all_goals
      cases edge
      try exact ⟨rfl, rfl⟩

theorem broadcastStep_queue {queue queue' : List Broadcast}
    (edge : broadcastStep c queue = some (c', queue')) : ∀ m ∈ queue', m ∈ queue := by
  intro m mine
  unfold broadcastStep at edge
  split at edge
  case h_1 =>
    split at edge <;> cases edge
    exact List.mem_cons_of_mem _ mine
  all_goals
    repeat' split at edge
    all_goals
      cases edge
      try exact mine

theorem clipListenStep_frame {greeted : Bool}
    (edge : clipListenStep kernel c greeted = some (kernel', c')) :
    c'.broadcast = c.broadcast ∧ c'.accepted = c.accepted := by
  unfold clipListenStep at edge
  split at edge
  all_goals
    repeat' split at edge
    all_goals
      cases edge
      try exact ⟨rfl, rfl⟩

theorem clipListenStep_slaves {greeted : Bool}
    (edge : clipListenStep kernel c greeted = some (kernel', c')) :
    c'.parentSock = c.parentSock ∧
      (c'.slaves = c.slaves ∧ (∀ j, (c'.connections j).sockFd = (c.connections j).sockFd) ∨
        (∃ a i, c.listen = .store a i ∧ c'.slaves = c.slaves ∧
          ∀ j, j ≠ i → c'.connections j = c.connections j) ∨
        ∃ a i, c.listen = .create a i ∧ c'.connections = c.connections ∧
          c'.slaves = Function.update c.slaves a.conn ⟨i, 0, 0, .start⟩) := by
  unfold clipListenStep at edge
  split at edge
  case h_7 =>
    repeat' split at edge
    all_goals cases edge
    · exact ⟨rfl, .inl ⟨rfl, fun j => (setLock_fd _ j _).1⟩⟩
    · exact ⟨rfl, .inl ⟨rfl, fun _ => rfl⟩⟩
    · exact ⟨rfl, .inl ⟨rfl, fun _ => rfl⟩⟩
  case h_9 =>
    cases edge
    exact ⟨rfl, .inl ⟨rfl, fun j => (setLock_fd _ j _).1⟩⟩
  case h_12 a i pc =>
    cases edge
    refine ⟨rfl, .inr (.inl ⟨a, i, pc, rfl, fun j apart => ?_⟩)⟩
    simp [Clip.listenGoto, Clip.setSlot, apart]
  case h_13 =>
    cases edge
    exact ⟨rfl, .inl ⟨rfl, fun j => (setLock_fd _ j _).1⟩⟩
  case h_14 a i pc =>
    cases edge
    exact ⟨rfl, .inr (.inr ⟨a, i, pc, rfl, rfl⟩)⟩
  all_goals
    repeat' split at edge
    all_goals
      cases edge
      try exact ⟨rfl, .inl ⟨rfl, fun _ => rfl⟩⟩

theorem locked_same (inv : ClipTable.Inv kernel c) (change : TableChange c c') {i : Slot}
    (mine : ClipTable.holdsSlot c i .broadcaster = true) :
    (c'.connections i).owner = (c.connections i).owner := by
  cases change with
  | same fd owner => exact owner i
  | store a j pc next stored others =>
    have apart : i ≠ j := by
      rintro rfl
      have other : ClipTable.holdsSlot c i .listener = true := by
        simp [ClipTable.holdsSlot, pc, ClipTable.Listener.holdsSlot]
      cases (inv.locks.slots i).unique mine other
    rw [others i apart]
  | clear l pc cleared others =>
    have apart : i ≠ (c.slaves l).index := by
      rintro rfl
      have other : ClipTable.holdsSlot c (c.slaves l).index (.slave l) = true := by
        simp [ClipTable.holdsSlot, pc, ClipTable.Slave.holdsSlot]
      cases (inv.locks.slots _).unique mine other
    rw [others i apart]

end Steps

end DistributedClipboard.Interfaces.ClipChanges
