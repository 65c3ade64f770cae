/- module: DistributedClipboard/Daemon/TableCloses
   source: src/src/interfaces/clipif.c, src/src/interfaces/appif.c
   layer: lemma
   digest: What the threads of the interfaces open and close, and what they do before the daemon serves. -/

import DistributedClipboard.Daemon.Main
import DistributedClipboard.Interfaces.Connections

set_option autoImplicit false
set_option relaxedAutoImplicit false

namespace DistributedClipboard.Daemon.TableCloses

open DistributedClipboard.Common
open DistributedClipboard.Daemon.Main (closing)
open DistributedClipboard.Interfaces
open DistributedClipboard.Interfaces.Tables

inductive KernelChange (s : State) (a : Label) (t : State) : Prop
  | same (closes : closing s a = none) (kernel : t.kernel = s.kernel)
    (clip : s.clip.accepted ≤ t.clip.accepted) (app : s.app.accepted ≤ t.app.accepted)
  | closes (c : Conn) (fd : Fd) (closes : closing s a = some (c, fd))
    (kernel : t.kernel = closeFd s.kernel fd) (clip : t.clip.accepted = s.clip.accepted)
    (app : t.app.accepted = s.app.accepted)
  | clipAccepts (fd : Fd) (label : a = .clipAccept (some fd)) (free : s.kernel fd = none)
    (kernel : t.kernel = Function.update s.kernel fd (some (.clip s.clip.accepted)))
    (clip : t.clip.accepted = s.clip.accepted + 1) (app : t.app.accepted = s.app.accepted)
  | appAccepts (fd : Fd) (label : a = .appAccept (some fd)) (free : s.kernel fd = none)
    (kernel : t.kernel = Function.update s.kernel fd (some (.app s.app.accepted)))
    (clip : t.clip.accepted = s.clip.accepted) (app : t.app.accepted = s.app.accepted + 1)

variable {s t : State} {a : Label}

theorem acceptFd_outcome {kernel kernel' : Kernel} {conn : Conn} {fd : Option Fd}
    (edge : acceptFd kernel conn fd = some kernel') :
    fd = none ∧ kernel' = kernel ∨
      ∃ f, fd = some f ∧ kernel f = none ∧ kernel' = Function.update kernel f (some conn) := by
  cases fd with
  | none => exact .inl ⟨rfl, (Option.some.inj edge).symm⟩
  | some f =>
    simp only [acceptFd, Option.ite_none_right_eq_some, Option.some.injEq] at edge
    obtain ⟨⟨-, free⟩, rfl⟩ := edge
    exact .inr ⟨f, rfl, free, rfl⟩

theorem clipListen_kernel {greeted : Bool} (edge : step s (.clipListen greeted) = some t) :
    KernelChange s (.clipListen greeted) t := by
  obtain ⟨⟨kernel, c⟩, moved, rfl⟩ := Option.map_eq_some_iff.mp edge
  unfold clipListenStep at moved
  split at moved
  case h_6 x pc =>
    cases moved
    exact .closes (.clip x.conn) _ (by simp only [closing, pc]) rfl rfl rfl
  case h_10 x pc =>
    cases moved
    exact .closes (.clip x.conn) _ (by simp only [closing, pc]) rfl rfl rfl
  all_goals
    rename_i pc
    repeat' split at moved
    all_goals
      cases moved
      try exact .same (by simp only [closing, pc]) rfl (Nat.le_refl _) (Nat.le_refl _)

theorem clipSlave_kernel {k : Nat} {act : SlaveAct} (edge : step s (.clipSlave k act) = some t) :
    KernelChange s (.clipSlave k act) t := by
  obtain ⟨⟨kernel, c, packets⟩, moved, rfl⟩ := Option.map_eq_some_iff.mp edge
  unfold clipSlaveStep at moved
  simp only at moved
  split at moved
  case h_9 pc =>
    cases moved
    exact .closes (.clip k) _ (by simp only [closing, pc, if_true]) rfl rfl rfl
  case h_13 => cases moved
  all_goals
    rename_i pc
    repeat' split at moved
    all_goals
      cases moved
      try exact .same (by simp [closing, pc]) rfl (Nat.le_refl _) (Nat.le_refl _)

theorem appListen_kernel (edge : step s .appListen = some t) : KernelChange s .appListen t := by
  obtain ⟨⟨kernel, p⟩, moved, rfl⟩ := Option.map_eq_some_iff.mp edge
  unfold appListenStep at moved
  split at moved
  case h_5 x pc =>
    cases moved
    exact .closes (.app x.conn) _ (by simp only [closing, pc]) rfl rfl rfl
  all_goals
    rename_i pc
    repeat' split at moved
    all_goals
      cases moved
      try exact .same (by simp only [closing, pc]) rfl (Nat.le_refl _) (Nat.le_refl _)

theorem appSlave_kernel {k : Nat} {act : SlaveAct} (edge : step s (.appSlave k act) = some t) :
    KernelChange s (.appSlave k act) t := by
  obtain ⟨⟨kernel, p, packets⟩, moved, rfl⟩ := Option.map_eq_some_iff.mp edge
  unfold appSlaveStep at moved
  simp only at moved
  split at moved
  case h_7 pc =>
    cases moved
    exact .closes (.app k) _ (by simp only [closing, pc, if_true]) rfl rfl rfl
  case h_10 => cases moved
  all_goals
    rename_i pc
    repeat' split at moved
    all_goals
      cases moved
      try exact .same (by simp [closing, pc]) rfl (Nat.le_refl _) (Nat.le_refl _)

theorem kernel_of_step (edge : step s a = some t) : KernelChange s a t := by
  cases a with
  | clipAccept fd =>
    simp only [step] at edge
    split at edge
    · obtain ⟨kernel, opened, rfl⟩ := Option.map_eq_some_iff.mp edge
      obtain ⟨rfl, rfl⟩ | ⟨f, rfl, free, rfl⟩ := acceptFd_outcome opened
      · exact .same rfl rfl (Nat.le_succ _) (Nat.le_refl _)
      · exact .clipAccepts f rfl free rfl rfl rfl
    · cases edge
  | clipListen greeted => exact clipListen_kernel edge
  | clipSlave k act => exact clipSlave_kernel edge
  | broadcast =>
    obtain ⟨⟨c, queue⟩, moved, rfl⟩ := Option.map_eq_some_iff.mp edge
    have same : c.accepted = s.clip.accepted := by
      unfold broadcastStep at moved
      repeat' split at moved
      all_goals cases moved
      all_goals rfl
    exact .same rfl rfl (Nat.le_of_eq same.symm) (Nat.le_refl _)
  | clock =>
    simp only [step] at edge
    split at edge <;> cases edge
    exact .same rfl rfl (Nat.le_refl _) (Nat.le_refl _)
  | appAccept fd =>
    simp only [step] at edge
    split at edge
    · obtain ⟨kernel, opened, rfl⟩ := Option.map_eq_some_iff.mp edge
      obtain ⟨rfl, rfl⟩ | ⟨f, rfl, free, rfl⟩ := acceptFd_outcome opened
      · exact .same rfl rfl (Nat.le_refl _) (Nat.le_succ _)
      · exact .appAccepts f rfl free rfl rfl rfl
    · cases edge
  | appListen => exact appListen_kernel edge
  | appSlave k act => exact appSlave_kernel edge

theorem closing_opened (h : Connections.Inv s) {c : Conn} {fd : Fd}
    (closes : closing s a = some (c, fd)) : s.kernel fd = some c := by
  have waiting (x : Accepted)
      (has : ClipTable.Listener.life s.clip.listen x.conn = some (.waiting x.fd)) :
      s.kernel x.fd = some (.clip x.conn) :=
    (h.clip.owners.table.waiting x.conn x.fd (by simp [ClipTable.tableOf, ClipTable.life, has])).2
  unfold closing at closes
  split at closes
  · split at closes
    · rename_i x pc
      cases closes
      exact waiting x (by simp [pc, ClipTable.Listener.life])
    · rename_i x pc
      cases closes
      exact waiting x (by simp [pc, ClipTable.Listener.life])
    · cases closes
  · rename_i k
    obtain ⟨pc, same⟩ := Option.ite_none_right_eq_some.mp closes
    cases same
    have mine : (ClipTable.tableOf s.clip).life k = .cleared (s.clip.slaves k).sock_ := by
      have out := h.clip.owners.born (k := k) (by simp [pc])
      simp [ClipTable.tableOf, ClipTable.life, out, ClipTable.Slave.life, pc]
    exact h.clip.owners.table.cleared k _ mine
  · split at closes
    · rename_i x pc
      cases closes
      exact (h.app.owners.table.waiting x.conn x.fd
        (by simp [AppTable.tableOf, AppTable.life, pc, AppTable.Listener.life])).2
    · cases closes
  · rename_i k
    obtain ⟨pc, same⟩ := Option.ite_none_right_eq_some.mp closes
    cases same
    have held := h.app.owners.held (k := k) (by simp [AppTable.Slave.life, pc])
    rw [h.app.owners.taken k pc]
    exact h.app.owners.table.opened _ k held
  · cases closes

def parentClosed (s : State) : Bool :=
  match (s.clip.slaves 0).pc with
  | .parent | .count | .unlock | .finished => true
  | _ => false

structure Idle (s : State) : Prop where
  clipListen : s.clip.listen = .accept
  appListen : s.app.listen = .accept
  clips : ∀ k, k ≠ 0 → (s.clip.slaves k).pc = .unborn
  apps : ∀ k, (s.app.slaves k).pc = .unborn

theorem Idle.init (parent : Fd) : Idle (tables parent).init := by
  refine ⟨rfl, rfl, fun k other => ?_, fun k => rfl⟩
  simp [tables, clipInit, other]

theorem parent_of_slave {act : SlaveAct} (edge : step s (.clipSlave 0 act) = some t) :
    t.clip.listen = s.clip.listen ∧ t.app = s.app ∧ (s.clip.slaves 0).pc ≠ .unborn ∧
      (∀ k, k ≠ 0 → t.clip.slaves k = s.clip.slaves k) ∧
      parentClosed t = (parentClosed s || (closing s (.clipSlave 0 act)).isSome) := by
  obtain ⟨⟨kernel, c, packets⟩, moved, rfl⟩ := Option.map_eq_some_iff.mp edge
  unfold clipSlaveStep at moved
  simp only at moved
  split at moved
  case h_13 => cases moved
  all_goals
    rename_i pc
    repeat' split at moved
    all_goals
      cases moved
      try
        refine ⟨rfl, rfl, by simp [pc], fun k other => ?_, by
          simp [parentClosed, closing, pc, Clip.slaveGoto, Clip.setSlave, Clip.setSlot,
            Clip.lockSlot, Clip.unlockSlot]⟩
        simp [Clip.slaveGoto, Clip.setSlave, Clip.setSlot, Clip.lockSlot, Clip.unlockSlot, other]

theorem broadcast_slaves {c : Clip} {queue : List Broadcast}
    (moved : broadcastStep s.clip s.queue = some (c, queue)) :
    c.listen = s.clip.listen ∧ c.slaves = s.clip.slaves := by
  unfold broadcastStep at moved
  repeat' split at moved
  all_goals cases moved
  all_goals exact ⟨rfl, rfl⟩

theorem Idle.step (h : Idle s) (clip : ∀ fd, a ≠ .clipAccept fd) (app : ∀ fd, a ≠ .appAccept fd)
    (edge : Tables.step s a = some t) :
    Idle t ∧ parentClosed t = (parentClosed s || (closing s a).isSome) ∧
      ((s.clip.slaves 0).pc = .unborn → (t.clip.slaves 0).pc = .unborn) := by
  cases a with
  | clipAccept fd => exact absurd rfl (clip fd)
  | appAccept fd => exact absurd rfl (app fd)
  | clipListen greeted => simp [Tables.step, clipListenStep, h.clipListen] at edge
  | appListen => simp [Tables.step, appListenStep, h.appListen] at edge
  | appSlave k act => simp [Tables.step, appSlaveStep, h.apps k] at edge
  | clipSlave k act =>
    by_cases first : k = 0
    · subst first
      obtain ⟨listen, same, born, others, closed⟩ := parent_of_slave edge
      refine ⟨⟨listen.trans h.clipListen, ?_, fun k other => ?_, ?_⟩, closed,
        fun unborn => absurd unborn born⟩
      · rw [same]
        exact h.appListen
      · rw [others k other]
        exact h.clips k other
      · rw [same]
        exact h.apps
    · simp [Tables.step, clipSlaveStep, h.clips k first] at edge
  | broadcast =>
    obtain ⟨⟨c, queue⟩, moved, rfl⟩ := Option.map_eq_some_iff.mp edge
    obtain ⟨listen, slaves⟩ := broadcast_slaves moved
    refine ⟨⟨listen.trans h.clipListen, h.appListen, ?_, h.apps⟩, ?_, ?_⟩
    · change ∀ k, k ≠ 0 → (c.slaves k).pc = .unborn
      rw [slaves]
      exact h.clips
    · simp [parentClosed, slaves, closing]
    · change (s.clip.slaves 0).pc = .unborn → (c.slaves 0).pc = .unborn
      rw [slaves]
      exact id
  | clock =>
    simp only [Tables.step] at edge
    split at edge <;> cases edge
    refine ⟨⟨h.clipListen, h.appListen, h.clips, h.apps⟩, ?_, id⟩
    simp [parentClosed, closing]

end DistributedClipboard.Daemon.TableCloses
