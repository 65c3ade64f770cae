/- module: DistributedClipboard/Interfaces/Connections
   source: src/src/interfaces/clipif.c, src/src/interfaces/appif.c
   layer: theorem
   digest: The connection tables of both interfaces over whole runs. -/

import DistributedClipboard.Interfaces.AppTable
import DistributedClipboard.Interfaces.ClipTable

set_option autoImplicit false
set_option relaxedAutoImplicit false

namespace DistributedClipboard.Interfaces.Connections

open DistributedClipboard.Common
open DistributedClipboard.Interfaces.Tables
open DistributedClipboard.Lib.Counting
open DistributedClipboard.Lib.Transition

structure Inv (s : State) : Prop where
  clip : ClipTable.Inv s.kernel s.clip
  app : AppTable.Inv s.kernel s.app

section Kernels

variable {kernel kernel' : Kernel}

theorem closeFd_keeps {fd f : Fd} {x y : Conn} (mine : kernel fd = some x) (other : y ≠ x)
    (opened : kernel f = some y) : closeFd kernel fd f = some y := by
  have apart : f ≠ fd := by
    rintro rfl
    rw [mine] at opened
    exact other (Option.some.inj opened).symm
  rw [closeFd, Function.update_of_ne apart]
  exact opened

theorem acceptFd_keeps {fd : Option Fd} {f : Fd} {x y : Conn}
    (edge : acceptFd kernel x fd = some kernel') (opened : kernel f = some y) :
    kernel' f = some y := by
  cases fd with
  | none =>
    obtain rfl : kernel = kernel' := by simpa [acceptFd] using edge
    exact opened
  | some g =>
    simp only [acceptFd, Option.ite_none_right_eq_some, Option.some.injEq] at edge
    obtain ⟨⟨_, free⟩, rfl⟩ := edge
    have apart : f ≠ g := by
      rintro rfl
      rw [free] at opened
      cases opened
    rw [Function.update_of_ne apart]
    exact opened

theorem clipListen_keeps {c c' : Clip} {greeted : Bool} {f : Fd} {k : Nat}
    (h : ClipTable.Inv kernel c) (edge : clipListenStep kernel c greeted = some (kernel', c'))
    (opened : kernel f = some (.app k)) : kernel' f = some (.app k) := by
  have waiting (a : Accepted) (has : ClipTable.Listener.life c.listen a.conn = some (.waiting a.fd)) :
      closeFd kernel a.fd f = some (.app k) := by
    have mine := (h.owners.table.waiting a.conn a.fd
      (by simp [ClipTable.tableOf, ClipTable.life, has])).2
    exact closeFd_keeps mine (by simp) opened
  unfold clipListenStep at edge
  split at edge
  case h_6 a pc =>
    cases edge
    exact waiting a (by simp [pc, ClipTable.Listener.life])
  case h_10 a pc =>
    cases edge
    exact waiting a (by simp [pc, ClipTable.Listener.life])
  all_goals
    repeat' split at edge
    all_goals
      cases edge
      try exact opened

theorem clipSlave_keeps {c c' : Clip} {k m : Nat} {act : SlaveAct} {packets : List Broadcast} {f : Fd}
    (h : ClipTable.Inv kernel c) (edge : clipSlaveStep kernel c k act = some (kernel', c', packets))
    (opened : kernel f = some (.app m)) : kernel' f = some (.app m) := by
  unfold clipSlaveStep at edge
  simp only at edge
  split at edge
  case h_9 pc =>
    cases edge
    have mine : (ClipTable.tableOf c).life k = .cleared (c.slaves k).sock_ := by
      have out := h.owners.born (k := k) (by simp [pc])
      simp [ClipTable.tableOf, ClipTable.life, out, ClipTable.Slave.life, pc]
    exact closeFd_keeps (h.owners.table.cleared k _ mine) (by simp) opened
  all_goals
    repeat' split at edge
    all_goals
      cases edge
      try exact opened

theorem appListen_keeps {p p' : App} {f : Fd} {k : Nat}
    (h : AppTable.Inv kernel p) (edge : appListenStep kernel p = some (kernel', p'))
    (opened : kernel f = some (.clip k)) : kernel' f = some (.clip k) := by
  unfold appListenStep at edge
  split at edge
  case h_5 a pc =>
    cases edge
    have mine := (h.owners.table.waiting a.conn a.fd
      (by simp [AppTable.tableOf, AppTable.life, pc, AppTable.Listener.life])).2
    exact closeFd_keeps mine (by simp) opened
  all_goals
    repeat' split at edge
    all_goals
      cases edge
      try exact opened

theorem appSlave_keeps {p p' : App} {k m : Nat} {act : SlaveAct} {packets : List Broadcast} {f : Fd}
    (h : AppTable.Inv kernel p) (edge : appSlaveStep kernel p k act = some (kernel', p', packets))
    (opened : kernel f = some (.clip m)) : kernel' f = some (.clip m) := by
  unfold appSlaveStep at edge
  simp only at edge
  split at edge
  case h_7 pc =>
    cases edge
    have held := h.owners.held (k := k) (by simp [AppTable.Slave.life, pc])
    have mine := h.owners.table.opened _ k held
    rw [h.owners.taken k pc]
    exact closeFd_keeps mine (by simp) opened
  all_goals
    repeat' split at edge
    all_goals
      cases edge
      try exact opened

end Kernels

section Steps

variable {s s' : State}

theorem Inv.init (parent : Fd) : Inv (tables parent).init where
  clip := ClipTable.Inv.init
  app := AppTable.Inv.init _

theorem Inv.step (h : Inv s) (a : Label) (edge : step s a = some s') : Inv s' := by
  cases a with
  | clipAccept fd =>
    simp only [Tables.step] at edge
    split at edge
    · rename_i pc
      obtain ⟨kernel, opened, rfl⟩ := Option.map_eq_some_iff.mp edge
      exact ⟨h.clip.accept pc opened, h.app.other fun _ _ => acceptFd_keeps opened⟩
    · cases edge
  | clipListen greeted =>
    obtain ⟨⟨kernel, c⟩, moved, rfl⟩ := Option.map_eq_some_iff.mp edge
    exact ⟨h.clip.listen moved, h.app.other fun _ _ => clipListen_keeps h.clip moved⟩
  | clipSlave k act =>
    obtain ⟨⟨kernel, c, packets⟩, moved, rfl⟩ := Option.map_eq_some_iff.mp edge
    exact ⟨h.clip.slave moved, h.app.other fun _ _ => clipSlave_keeps h.clip moved⟩
  | broadcast =>
    obtain ⟨⟨c, queue⟩, moved, rfl⟩ := Option.map_eq_some_iff.mp edge
    exact ⟨h.clip.broadcast moved, h.app⟩
  | clock =>
    simp only [Tables.step] at edge
    split at edge <;> cases edge
    exact ⟨h.clip, h.app⟩
  | appAccept fd =>
    simp only [Tables.step] at edge
    split at edge
    · rename_i pc
      obtain ⟨kernel, opened, rfl⟩ := Option.map_eq_some_iff.mp edge
      exact ⟨h.clip.other fun _ _ => acceptFd_keeps opened, h.app.accept pc opened⟩
    · cases edge
  | appListen =>
    obtain ⟨⟨kernel, p⟩, moved, rfl⟩ := Option.map_eq_some_iff.mp edge
    exact ⟨h.clip.other fun _ _ => appListen_keeps h.app moved, h.app.listen moved⟩
  | appSlave k act =>
    obtain ⟨⟨kernel, p, packets⟩, moved, rfl⟩ := Option.map_eq_some_iff.mp edge
    exact ⟨h.clip.other fun _ _ => appSlave_keeps h.app moved, h.app.slave moved⟩

theorem Inv.orphan (h : Inv s) : Inv { s with clip := { s.clip with parentSock := -1 } } where
  clip :=
    { locks := ⟨h.clip.locks.interface, h.clip.locks.slots, h.clip.locks.jam⟩
      owners := ⟨h.clip.owners.table, h.clip.owners.newborn, h.clip.owners.fresh,
        h.clip.owners.sock, h.clip.owners.taken, h.clip.owners.chosen, h.clip.owners.sending⟩
      counted := h.clip.counted }
  app := h.app

theorem inv_of_reach {parent : Fd} {ok : State → Label → Prop} (h : (tables parent).Reach ok s) :
    Inv s :=
  h.invariant (Inv.init parent) fun _ a _ inv _ edge => inv.step a edge

end Steps

/-- The clipboards' table is in order. -/
structure ClipConsistent (kernel : Kernel) (c : Clip) : Prop where
  counted : c.lock = none →
    c.nConnections = (Finset.univ.filter fun i => 0 < (c.connections i).sockFd).card
  bounded : c.lock = none → 0 ≤ c.nConnections ∧ c.nConnections ≤ maxClipboards
  distinct : ∀ i j, 0 < (c.connections i).sockFd →
    (c.connections i).sockFd = (c.connections j).sockFd → i = j
  handover : ∀ a i, c.listen = .store a i → ∀ k, (c.slaves k).index = i →
    (c.slaves k).pc = .unborn ∨ (c.slaves k).pc = .finished
  writes : ∀ r i, c.broadcast = .send r i →
    0 < (c.connections i).sockFd ∧ (c.connections i).lock = some .broadcaster ∧
      ∃ k, (c.connections i).owner = some k ∧ kernel (c.connections i).sockFd = some (.clip k)

/-- The applications' table is in order. -/
structure AppConsistent (p : App) : Prop where
  counted : p.lock = none →
    p.nConnections = (Finset.univ.filter fun i => 0 < (p.connections i).sockFd).card
  bounded : p.lock = none → 0 ≤ p.nConnections ∧ p.nConnections ≤ maxApps
  distinct : ∀ i j, 0 < (p.connections i).sockFd →
    (p.connections i).sockFd = (p.connections j).sockFd → i = j
  handover : ∀ a i, p.listen = .store a i → ∀ k, (p.slaves k).index = i →
    (p.slaves k).pc = .unborn ∨ (p.slaves k).pc = .finished
  noZombie : ∀ a, p.listen ≠ .zombie a

section Clip

variable {kernel : Kernel} {c : Clip}

theorem clip_occupied (c : Clip) : ClipTable.occupied c =
    (Finset.univ.filter fun i => 0 < (c.connections i).sockFd).card := by
  simp [ClipTable.occupied, count_eq_card]

theorem clip_counted (h : ClipTable.Inv kernel c) (free : c.lock = none) :
    c.nConnections = ClipTable.occupied c := by
  have counted := h.counted
  simpa [ClipTable.ahead, free] using counted

theorem clip_handover (h : ClipTable.Inv kernel c) {a : Accepted} {i : Slot}
    (pc : c.listen = .store a i) {k : Nat} (index : (c.slaves k).index = i) :
    (c.slaves k).pc = .unborn ∨ (c.slaves k).pc = .finished := by
  have zero := h.owners.chosen i (by rw [pc]; rfl)
  have mine := h.listener_has (by rw [pc]; rfl)
  have outside : ClipTable.Slave.holdsInterface (c.slaves k).pc = false := by
    by_contra busy
    have other := h.slave_has (k := k) (by simpa using busy)
    rw [mine] at other
    cases other
  have out : ClipTable.Slave.life (c.slaves k) ≠ .held (c.slaves k).index := by
    intro runs
    exact h.owners.nonzero runs (index ▸ zero)
  cases hp : (c.slaves k).pc <;>
    simp [hp, ClipTable.Slave.life, ClipTable.Slave.holdsInterface] at out outside ⊢

theorem clip_writes (h : ClipTable.Inv kernel c) {r : Round} {i : Slot}
    (pc : c.broadcast = .send r i) :
    0 < (c.connections i).sockFd ∧ (c.connections i).lock = some .broadcaster ∧
      ∃ k, (c.connections i).owner = some k ∧
        kernel (c.connections i).sockFd = some (.clip k) := by
  have pos := h.owners.sending i (by rw [pc]; rfl)
  have mine : ClipTable.holdsSlot c i .broadcaster = true := by
    simp [ClipTable.holdsSlot, pc, ClipTable.Broadcaster.holdsSlot]
  refine ⟨pos, (h.locks.slots i .broadcaster).mp mine, ?_⟩
  cases ho : (c.connections i).owner with
  | none =>
    have zero : (c.connections i).sockFd = 0 := (h.owners.table.zero i).mpr ho
    exact absurd zero (Nat.ne_of_gt pos)
  | some k =>
    have held := h.owners.owner_held ho
    exact ⟨k, rfl, h.owners.table.opened i k held⟩

theorem clip_consistent (h : ClipTable.Inv kernel c) : ClipConsistent kernel c where
  counted free := by rw [clip_counted h free, clip_occupied]
  bounded free := by
    have most : ClipTable.occupied c ≤ maxClipboards := by
      rw [clip_occupied]
      refine (Finset.card_le_univ _).trans ?_
      rw [Fintype.card_fin]
    rw [clip_counted h free]
    exact ⟨Int.natCast_nonneg _, Int.ofNat_le.mpr most⟩
  distinct i j pos same := h.owners.table.distinct i j (Nat.ne_of_gt pos) same
  handover a i pc k index := clip_handover h pc index
  writes r i pc := clip_writes h pc

end Clip

section App

variable {kernel : Kernel} {p : App}

theorem app_occupied (p : App) : AppTable.occupied p =
    (Finset.univ.filter fun i => 0 < (p.connections i).sockFd).card := by
  simp [AppTable.occupied, count_eq_card]

theorem app_counted (h : AppTable.Inv kernel p) (free : p.lock = none) :
    p.nConnections = AppTable.occupied p := by
  have counted := h.counted
  simpa [AppTable.ahead, AppTable.behind, free] using counted

theorem app_handover (h : AppTable.Inv kernel p) {a : Accepted} {i : AppSlot}
    (pc : p.listen = .store a i) {k : Nat} (index : (p.slaves k).index = i) :
    (p.slaves k).pc = .unborn ∨ (p.slaves k).pc = .finished := by
  have zero : (p.connections i).sockFd = 0 := by
    have found := h.owners.finds
    rw [pc] at found
    exact found
  have mine := h.listener_has (by rw [pc]; rfl)
  have outside : AppTable.Slave.holdsInterface (p.slaves k).pc = false := by
    by_contra busy
    have other := h.slave_has (k := k) (by simpa using busy)
    rw [mine] at other
    cases other
  have out : AppTable.Slave.life (p.slaves k) ≠ .held (p.slaves k).index := by
    intro runs
    exact h.owners.nonzero runs (index ▸ zero)
  cases hp : (p.slaves k).pc <;>
    simp [hp, AppTable.Slave.life, AppTable.Slave.holdsInterface] at out outside ⊢

theorem app_consistent (h : AppTable.Inv kernel p) : AppConsistent p where
  counted free := by rw [app_counted h free, app_occupied]
  bounded free := by
    have most := AppTable.occupied_le p
    rw [app_counted h free]
    exact ⟨Int.natCast_nonneg _, Int.ofNat_le.mpr most⟩
  distinct i j pos same := h.owners.table.distinct i j (Nat.ne_of_gt pos) same
  handover a i pc k index := app_handover h pc index
  noZombie a pc := by
    have found := h.owners.finds
    rw [pc] at found
    exact found

end App

/-- In every run both tables stay in order. -/
theorem tables_consistent {parent : Fd} {s : State}
    (h : (tables parent).Reach System.anyStep s) :
    ClipConsistent s.kernel s.clip ∧ AppConsistent s.app :=
  ⟨clip_consistent (inv_of_reach h).clip, app_consistent (inv_of_reach h).app⟩

private def reconnect : List Label :=
  [Label.clipAccept (some 4)] ++ List.replicate 10 (Label.clipListen true) ++
    [Label.clipSlave 1 .next, .clipSlave 1 .leave] ++
    List.replicate 9 (Label.clipSlave 1 .next) ++
    [Label.appAccept (some 5)] ++ List.replicate 7 Label.appListen ++
    [Label.clipAccept (some 4)] ++ List.replicate 10 (Label.clipListen true)

theorem tables_consistent_reconnect :
    ∃ s, (tables 0).Reach System.anyStep s ∧
      (s.clip.lock = none ∧ s.clip.nConnections = 1 ∧ s.app.lock = none ∧
        s.app.nConnections = 1 ∧ (s.clip.slaves 2).index = (s.clip.slaves 1).index) ∧
      ClipConsistent s.kernel s.clip ∧ AppConsistent s.app := by
  have reached : ∃ s, (tables 0).Reach System.anyStep s ∧
      decide (s.clip.lock = none ∧ s.clip.nConnections = 1 ∧ s.app.lock = none ∧
        s.app.nConnections = 1 ∧ (s.clip.slaves 2).index = (s.clip.slaves 1).index) = true :=
    System.reach_of_run _ true reconnect (by simp [System.anyStep]) (by decide +kernel)
  obtain ⟨s, reached, seen⟩ := reached
  exact ⟨s, reached, of_decide_eq_true seen, tables_consistent reached⟩

end DistributedClipboard.Interfaces.Connections
