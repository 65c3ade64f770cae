/- module: DistributedClipboard/Interfaces/Settling
   source: src/src/interfaces/clipif.c, src/src/interfaces/appif.c
   layer: results
   digest: Left to themselves the threads of both interfaces come to rest with every lock free. -/

import DistributedClipboard.Interfaces.ClipChanges
import DistributedClipboard.Interfaces.Connections
import DistributedClipboard.Lib.Termination

set_option autoImplicit false
set_option relaxedAutoImplicit false

namespace DistributedClipboard.Interfaces.Settling

open DistributedClipboard.Common
open DistributedClipboard.Interfaces.Connections
open DistributedClipboard.Interfaces.Tables
open DistributedClipboard.Lib.Counting
open DistributedClipboard.Lib.Transition

/-- The broadcaster is in `sendData` on a connection whose other end does not read: it waits there,
with the lock of the slot. -/
def WaitsInSend (reads : Nat → Prop) (c : Clip) : Prop :=
  ∃ r i k, c.broadcast = .send r i ∧ (c.connections i).owner = some k ∧ ¬ reads k

/-- The threads go on with what they have begun: nobody connects, sends a packet or goes away. The
connections whose other ends go on reading are given. -/
def internal (reads : Nat → Prop) : State → Label → Prop
  | _, .clipListen _ | _, .appListen => True
  | s, .broadcast => ¬ WaitsInSend reads s.clip
  | _, .clipSlave _ act | _, .appSlave _ act => act = .next
  | _, _ => False

section Ranks

/-- How many statements `clipif_listen` executes at most before it accepts again. The thread it may
create has one statement before it waits for packets. -/
def listenRank : ClipListen → Nat
  | .accept => 0
  | .unlock | .zombie _ => 1
  | .reject _ => 2
  | .create _ _ => 3
  | .unlockSlot _ _ => 4
  | .store _ _ => 5
  | .count _ _ => 6
  | .release _ i => 8 + 3 * (maxClipboards - i.val)
  | .test _ i => 9 + 3 * (maxClipboards - i.val)
  | .trylock _ i => 10 + 3 * (maxClipboards - i)
  | .hello _ => 11 + 3 * maxClipboards
  | .check _ => 12 + 3 * maxClipboards
  | .lock _ => 13 + 3 * maxClipboards

def slaveRank : SlavePc → Nat
  | .unborn | .running | .finished => 0
  | .start | .unlock => 1
  | .count => 2
  | .parent => 3
  | .close => 4
  | .unlockSlot => 5
  | .clear => 6
  | .take => 7
  | .lockSlot => 8
  | .lock => 9

/-- How many statements a round of `clipif_broadcast` takes at most. -/
def roundRank : Nat := 2 + 4 * maxClipboards

def broadcastRank : BroadcastPc → Nat
  | .pop => 0
  | .unlockSlot _ i => 4 * (maxClipboards - i.val) - 2
  | .send _ i => 4 * (maxClipboards - i.val) - 1
  | .test _ i => 4 * (maxClipboards - i.val)
  | .lockSlot _ i => 1 + 4 * (maxClipboards - i)

def appListenRank : AppListen → Nat
  | .accept | .zombie _ => 0
  | .unlock => 1
  | .reject _ => 2
  | .create _ _ => 3
  | .store _ _ => 4
  | .count _ _ => 5
  | .search _ i => 6 + (maxApps - i)
  | .check _ => 7 + maxApps
  | .lock _ => 8 + maxApps

def appSlaveRank : AppSlavePc → Nat
  | .unborn | .running | .finished => 0
  | .start | .unlock => 1
  | .clear => 2
  | .close => 3
  | .take => 4
  | .count => 5
  | .lock => 6

def clipWork (c : Clip) (queued : Nat) : Nat :=
  listenRank c.listen + ∑ k ∈ Finset.range c.accepted, slaveRank (c.slaves k).pc +
    broadcastRank c.broadcast + roundRank * queued

def appWork (p : App) : Nat :=
  appListenRank p.listen + ∑ k ∈ Finset.range p.accepted, appSlaveRank (p.slaves k).pc

/-- How many statements are left of both interfaces. -/
def work (s : State) : Nat := clipWork s.clip s.queue.length + appWork s.app

end Ranks

section Clip

variable {kernel kernel' : Kernel} {c c' : Clip} {k n : Nat}

theorem slaves_change (c' : Clip) {pc : SlavePc} (below : k < c.accepted) {x : Slave} (next : x.pc = pc)
    (slaves : c'.slaves = Function.update c.slaves k x) (accepted : c'.accepted = c.accepted) :
    ∑ m ∈ Finset.range c'.accepted, slaveRank (c'.slaves m).pc + slaveRank (c.slaves k).pc =
      ∑ m ∈ Finset.range c.accepted, slaveRank (c.slaves m).pc + slaveRank pc := by
  have change := sum_change (fun m => slaveRank (c.slaves m).pc)
    (fun m => slaveRank (c'.slaves m).pc) k (Finset.mem_range.mpr below)
    fun m other => by rw [slaves, Function.update_of_ne other]
  simp only [slaves, Function.update_self, next] at change
  rw [accepted, slaves]
  exact change

theorem listen_lowers {greeted : Bool} (inv : ClipTable.Inv kernel c)
    (edge : clipListenStep kernel c greeted = some (kernel', c')) :
    clipWork c' n < clipWork c n := by
  unfold clipListenStep at edge
  cases pc : c.listen <;> simp only [pc] at edge
  case accept => cases edge
  case create a i =>
    cases edge
    obtain ⟨below, unborn⟩ := inv.owners.newborn a.conn (.held i) (by
      rw [pc]
      simp [ClipTable.Listener.life])
    have change := slaves_change ((c.setSlave a.conn ⟨i, 0, 0, .start⟩).listenGoto .unlock)
      below rfl rfl rfl
    rw [unborn] at change
    simp only [clipWork, Clip.listenGoto, Clip.setSlave, listenRank, slaveRank, pc] at change ⊢
    omega
  case trylock a i =>
    repeat' split at edge
    all_goals
      cases edge
      simp only [clipWork, Clip.listenGoto, Clip.lockSlot, Clip.setSlot, listenRank, pc]
      omega
  case release a i =>
    cases edge
    have inside := i.isLt
    simp only [clipWork, Clip.listenGoto, Clip.unlockSlot, Clip.setSlot, listenRank, pc]
    omega
  case check a =>
    cases a <;> simp only at edge <;> repeat' split at edge
    all_goals
      cases edge
      simp only [clipWork, Clip.listenGoto, listenRank, pc, maxClipboards]
      omega
  all_goals
    repeat' split at edge
    all_goals cases edge
    all_goals
      simp only [clipWork, Clip.listenGoto, Clip.setSlot, Clip.unlockSlot, listenRank, pc,
        maxClipboards]
      omega

theorem slave_lowers {packets : List Broadcast} (inv : ClipTable.Inv kernel c)
    (edge : clipSlaveStep kernel c k .next = some (kernel', c', packets)) :
    packets = [] ∧ clipWork c' n < clipWork c n := by
  have below (born : (c.slaves k).pc ≠ .unborn) : k < c.accepted := by
    by_contra above
    exact born (inv.owners.fresh k (Nat.le_of_not_lt above))
  obtain ⟨listen, _, accepted, broadcast⟩ := ClipChanges.clipSlaveStep_frame edge
  have lowers (x : Slave) (slaves : c'.slaves = Function.update c.slaves k x)
      (less : slaveRank x.pc < slaveRank (c.slaves k).pc) : clipWork c' n < clipWork c n := by
    have born : (c.slaves k).pc ≠ .unborn := by
      intro unborn
      rw [unborn] at less
      cases less
    have change := slaves_change c' (below born) rfl slaves accepted
    unfold clipWork
    rw [listen, broadcast]
    omega
  unfold clipSlaveStep at edge
  cases pc : (c.slaves k).pc <;> simp only [pc] at edge
  case unborn | running | finished => cases edge
  all_goals
    (repeat' split at edge) <;> cases edge <;> exact ⟨rfl, lowers _ rfl (by simp [pc, slaveRank])⟩

theorem broadcast_lowers {queue queue' : List Broadcast}
    (edge : broadcastStep c queue = some (c', queue')) :
    clipWork c' queue'.length < clipWork c queue.length := by
  unfold broadcastStep at edge
  cases pc : c.broadcast <;> simp only [pc] at edge
  case pop =>
    split at edge <;> cases edge
    simp only [clipWork, Clip.broadcastGoto, broadcastRank, pc, List.length_cons, roundRank,
      maxClipboards]
    omega
  case lockSlot r i =>
    repeat' split at edge
    all_goals cases edge
    all_goals
      simp only [clipWork, Clip.broadcastGoto, Clip.lockSlot, Clip.setSlot, broadcastRank, pc]
      omega
  case unlockSlot r i =>
    cases edge
    have inside := i.isLt
    simp only [clipWork, Clip.broadcastGoto, Clip.unlockSlot, Clip.setSlot, broadcastRank, pc]
    omega
  case send r i =>
    cases edge
    have inside := i.isLt
    simp only [clipWork, Clip.broadcastGoto, broadcastRank, pc]
    omega
  case test r i =>
    have inside := i.isLt
    split at edge
    all_goals
      cases edge
      simp only [clipWork, Clip.broadcastGoto, broadcastRank, pc]
      omega

structure ClipStuck (kernel : Kernel) (c : Clip) (queue : List Broadcast) : Prop where
  listen : ∀ greeted, clipListenStep kernel c greeted = none
  slaves : ∀ k, clipSlaveStep kernel c k .next = none
  broadcast : broadcastStep c queue = none

structure ClipAtEase (c : Clip) (queue : List Broadcast) : Prop where
  interface : c.lock = none
  slots : ∀ i, (c.connections i).lock = none
  listen : c.listen = .accept
  slaves : ∀ k, (c.slaves k).pc = .unborn ∨ (c.slaves k).pc = .running ∨ (c.slaves k).pc = .finished
  broadcast : c.broadcast = .pop
  queue : queue = []

theorem ClipStuck.atEase {queue : List Broadcast} (stuck : ClipStuck kernel c queue)
    (inv : ClipTable.Inv kernel c) (unjammed : c.jammed = false) : ClipAtEase c queue := by
  have sender (i : Slot) : ClipTable.Broadcaster.holdsSlot c.broadcast ≠ some i := by
    intro holds
    have none_ := stuck.broadcast
    cases pc : c.broadcast <;> rw [pc] at holds <;>
      simp only [ClipTable.Broadcaster.holdsSlot, reduceCtorEq] at holds <;>
      simp only [broadcastStep, pc] at none_
    case test r i => split at none_ <;> cases none_
    all_goals cases none_
  have listener (holds : ClipTable.Listener.holdsInterface c.listen = true) : False := by
    have none_ := stuck.listen true
    cases pc : c.listen <;> rw [pc] at holds <;>
      simp only [ClipTable.Listener.holdsInterface, Bool.false_eq_true] at holds <;>
      simp only [clipListenStep, pc] at none_
    case check a => cases a <;> simp only at none_ <;> (repeat' split at none_) <;> cases none_
    all_goals (repeat' split at none_) <;> cases none_
  have slotsFree (i : Slot) : (c.connections i).lock = none := by
    cases lock : (c.connections i).lock with
    | none => rfl
    | some t =>
      have holds := (inv.locks.slots i t).mpr lock
      cases t with
      | broadcaster => exact absurd (by simpa [ClipTable.holdsSlot] using holds) (sender i)
      | listener =>
        refine (listener ?_).elim
        cases pc : c.listen <;>
          simp [ClipTable.holdsSlot, pc, ClipTable.Listener.holdsSlot] at holds <;> rfl
      | slave k =>
        have none_ := stuck.slaves k
        have mine := (Bool.and_eq_true _ _ ▸ holds).1
        cases pc : (c.slaves k).pc <;> rw [pc] at mine <;>
          simp only [ClipTable.Slave.holdsSlot, Bool.false_eq_true] at mine <;>
          simp only [clipSlaveStep, pc] at none_ <;> cases none_
  have interfaceFree : c.lock = none := by
    cases lock : c.lock with
    | none => rfl
    | some t =>
      have holds := (inv.locks.interface t).mpr lock
      cases t with
      | broadcaster => cases holds
      | listener => exact (listener (by simpa [ClipTable.holdsInterface, unjammed] using holds)).elim
      | slave k =>
        have none_ := stuck.slaves k
        simp only [ClipTable.holdsInterface] at holds
        cases pc : (c.slaves k).pc <;> rw [pc] at holds <;>
          simp only [ClipTable.Slave.holdsInterface, Bool.false_eq_true] at holds <;>
          simp only [clipSlaveStep, pc, slotsFree, if_true] at none_ <;>
          (repeat' split at none_) <;> cases none_
  have pops : c.broadcast = .pop := by
    have none_ := stuck.broadcast
    cases pc : c.broadcast with
    | pop => rfl
    | lockSlot r i =>
      simp only [broadcastStep, pc, slotsFree, if_true] at none_
      split at none_ <;> cases none_
    | test r i | send r i | unlockSlot r i => exact absurd (by rw [pc]; rfl) (sender i)
  refine ⟨interfaceFree, slotsFree, ?_, fun k => ?_, pops, ?_⟩
  · cases pc : c.listen with
    | accept => rfl
    | lock a =>
      have none_ := stuck.listen true
      simp [clipListenStep, pc, interfaceFree] at none_
    | _ => exact (listener (by rw [pc]; rfl)).elim
  · have none_ := stuck.slaves k
    cases pc : (c.slaves k).pc <;>
      simp [clipSlaveStep, pc, interfaceFree, slotsFree] at none_ ⊢
    split at none_ <;> cases none_
  · have none_ := stuck.broadcast
    cases queue with
    | nil => rfl
    | cons m rest => simp [broadcastStep, pops] at none_

end Clip

section App

variable {kernel kernel' : Kernel} {p p' : App} {k : Nat}

theorem appSlaves_change (p' : App) {x : AppSlave} (below : k < p.accepted)
    (slaves : p'.slaves = Function.update p.slaves k x) (accepted : p'.accepted = p.accepted) :
    ∑ m ∈ Finset.range p'.accepted, appSlaveRank (p'.slaves m).pc +
        appSlaveRank (p.slaves k).pc =
      ∑ m ∈ Finset.range p.accepted, appSlaveRank (p.slaves m).pc + appSlaveRank x.pc := by
  have change := sum_change (fun m => appSlaveRank (p.slaves m).pc)
    (fun m => appSlaveRank (p'.slaves m).pc) k (Finset.mem_range.mpr below)
    fun m other => by rw [slaves, Function.update_of_ne other]
  simp only [slaves, Function.update_self] at change
  rw [accepted, slaves]
  exact change

theorem appListen_lowers (inv : AppTable.Inv kernel p)
    (edge : appListenStep kernel p = some (kernel', p')) : appWork p' < appWork p := by
  unfold appListenStep at edge
  cases pc : p.listen <;> simp only [pc] at edge
  case accept | zombie => cases edge
  case create a i =>
    cases edge
    obtain ⟨below, unborn⟩ := inv.owners.newborn a.conn (.held i) (by
      rw [pc]
      simp [AppTable.Listener.life])
    have change := appSlaves_change
      ((p.setSlave a.conn ⟨i, 0, 0, .start⟩).listenGoto .unlock) below rfl rfl
    rw [unborn] at change
    simp only [appWork, App.listenGoto, App.setSlave, appListenRank, appSlaveRank, pc] at change ⊢
    omega
  case search a i =>
    repeat' split at edge
    all_goals cases edge
    · simp only [appWork, App.listenGoto, appListenRank, pc]
      omega
    · simp only [appWork, App.listenGoto, appListenRank, pc]
      omega
    · simp only [appWork, App.listenGoto, appListenRank, pc]
      omega
  case check a =>
    cases a <;> simp only at edge <;> repeat' split at edge
    all_goals
      cases edge
      simp only [appWork, App.listenGoto, appListenRank, pc, maxApps]
      omega
  all_goals
    repeat' split at edge
    all_goals cases edge
    all_goals
      simp only [appWork, App.listenGoto, App.setSlot, appListenRank, pc, maxApps]
      omega

theorem appSlave_lowers {packets : List Broadcast} (inv : AppTable.Inv kernel p)
    (edge : appSlaveStep kernel p k .next = some (kernel', p', packets)) :
    packets = [] ∧ appWork p' < appWork p := by
  have below (born : (p.slaves k).pc ≠ .unborn) : k < p.accepted := by
    by_contra above
    exact born (inv.owners.fresh k (Nat.le_of_not_lt above))
  have lowers (x : AppSlave) (slaves : p'.slaves = Function.update p.slaves k x)
      (accepted : p'.accepted = p.accepted) (listen : p'.listen = p.listen)
      (less : appSlaveRank x.pc < appSlaveRank (p.slaves k).pc) : appWork p' < appWork p := by
    have born : (p.slaves k).pc ≠ .unborn := by
      intro unborn
      rw [unborn] at less
      cases less
    have change := appSlaves_change p' (below born) slaves accepted
    unfold appWork
    rw [listen]
    omega
  unfold appSlaveStep at edge
  cases pc : (p.slaves k).pc <;> simp only [pc] at edge
  case unborn | running | finished => cases edge
  all_goals
    repeat' split at edge
    all_goals cases edge
    all_goals exact ⟨rfl, lowers _ rfl rfl rfl (by simp [pc, appSlaveRank])⟩

structure AppStuck (kernel : Kernel) (p : App) : Prop where
  listen : appListenStep kernel p = none
  slaves : ∀ k, appSlaveStep kernel p k .next = none

structure AppAtEase (p : App) : Prop where
  interface : p.lock = none
  listen : p.listen = .accept
  slaves : ∀ k, (p.slaves k).pc = .unborn ∨ (p.slaves k).pc = .running ∨ (p.slaves k).pc = .finished

theorem AppStuck.atEase (stuck : AppStuck kernel p) (inv : AppTable.Inv kernel p) :
    AppAtEase p := by
  have listener (holds : AppTable.Listener.holdsInterface p.listen = true) : False := by
    have none_ := stuck.listen
    cases pc : p.listen <;> rw [pc] at holds <;>
      simp only [AppTable.Listener.holdsInterface, Bool.false_eq_true] at holds <;>
      simp only [appListenStep, pc] at none_
    case zombie a =>
      have found := inv.owners.finds
      rw [pc] at found
      exact found
    case check a => cases a <;> simp only at none_ <;> (repeat' split at none_) <;> cases none_
    all_goals (repeat' split at none_) <;> cases none_
  have interfaceFree : p.lock = none := by
    cases lock : p.lock with
    | none => rfl
    | some t =>
      have holds := (inv.interface t).mpr lock
      cases t with
      | listener => exact (listener holds).elim
      | slave k =>
        have none_ := stuck.slaves k
        simp only [AppTable.holdsInterface] at holds
        cases pc : (p.slaves k).pc <;> rw [pc] at holds <;>
          simp only [AppTable.Slave.holdsInterface, Bool.false_eq_true] at holds <;>
          simp only [appSlaveStep, pc] at none_ <;> cases none_
  refine ⟨interfaceFree, ?_, fun k => ?_⟩
  · cases pc : p.listen with
    | accept => rfl
    | lock a =>
      have none_ := stuck.listen
      simp [appListenStep, pc, interfaceFree] at none_
    | _ => exact (listener (by rw [pc]; rfl)).elim
  · have none_ := stuck.slaves k
    cases pc : (p.slaves k).pc <;> simp [appSlaveStep, pc, interfaceFree] at none_ ⊢

end App

section Run

variable {reads : Nat → Prop} {parent : Fd} {s s' : State}

theorem work_lt (inv : Connections.Inv s) (a : Label) (own : internal reads s a)
    (edge : step s a = some s') : work s' < work s := by
  cases a with
  | clipAccept fd | clock | appAccept fd => exact absurd own id
  | clipListen greeted =>
    obtain ⟨⟨kernel, c⟩, moved, rfl⟩ := Option.map_eq_some_iff.mp edge
    exact Nat.add_lt_add_right (listen_lowers inv.clip moved) _
  | clipSlave k act =>
    obtain rfl : act = .next := own
    obtain ⟨⟨kernel, c, packets⟩, moved, rfl⟩ := Option.map_eq_some_iff.mp edge
    obtain ⟨rfl, less⟩ := slave_lowers (n := s.queue.length) inv.clip moved
    simpa only [work, List.append_nil] using Nat.add_lt_add_right less _
  | broadcast =>
    obtain ⟨⟨c, queue⟩, moved, rfl⟩ := Option.map_eq_some_iff.mp edge
    exact Nat.add_lt_add_right (broadcast_lowers moved) _
  | appListen =>
    obtain ⟨⟨kernel, p⟩, moved, rfl⟩ := Option.map_eq_some_iff.mp edge
    exact Nat.add_lt_add_left (appListen_lowers inv.app moved) _
  | appSlave k act =>
    obtain rfl : act = .next := own
    obtain ⟨⟨kernel, p, packets⟩, moved, rfl⟩ := Option.map_eq_some_iff.mp edge
    obtain ⟨rfl, less⟩ := appSlave_lowers inv.app moved
    simpa only [work, List.append_nil] using Nat.add_lt_add_left less _

/-- Both interfaces are at ease. -/
structure AtEase (s : State) : Prop where
  clip : ClipAtEase s.clip s.queue
  app : AppAtEase s.app

theorem atEase_of_stuck (inv : Connections.Inv s) (unjammed : s.clip.jammed = false)
    (returns : ¬ WaitsInSend reads s.clip) (stuck : (tables parent).Stuck (internal reads) s) :
    AtEase s where
  clip := by
    have stopped : ClipStuck s.kernel s.clip s.queue :=
      ⟨fun greeted => Option.map_eq_none_iff.mp (stuck (.clipListen greeted) trivial),
        fun k => Option.map_eq_none_iff.mp (stuck (.clipSlave k .next) rfl),
        Option.map_eq_none_iff.mp (stuck .broadcast returns)⟩
    exact stopped.atEase inv.clip unjammed
  app := by
    have stopped : AppStuck s.kernel s.app :=
      ⟨Option.map_eq_none_iff.mp (stuck .appListen trivial),
        fun k => Option.map_eq_none_iff.mp (stuck (.appSlave k .next) rfl)⟩
    exact stopped.atEase inv.app

end Run

end DistributedClipboard.Interfaces.Settling
