/- module: DistributedClipboard/Interfaces/AppTable
   source: src/src/interfaces/appif.c
   layer: refinement
   digest: What the listener and the slaves keep true of the applications' table. -/

import DistributedClipboard.Interfaces.Tables
import DistributedClipboard.Lib.Counting
import DistributedClipboard.Lib.Mutex
import DistributedClipboard.Lib.SlotTable

set_option autoImplicit false
set_option relaxedAutoImplicit false

namespace DistributedClipboard.Interfaces.AppTable

open DistributedClipboard.Common
open DistributedClipboard.Interfaces.Tables
open DistributedClipboard.Lib.Counting
open DistributedClipboard.Lib.Mutex
open DistributedClipboard.Lib.SlotTable (Life Table Consistent)

section Views

namespace Listener

def holdsInterface : AppListen → Bool
  | .accept | .lock _ => false
  | _ => true

def life (pc : AppListen) (k : Nat) : Option (Life AppSlot) :=
  match pc with
  | .lock (some a) | .check (some a) | .reject a | .search a _ | .zombie a | .count a _
  | .store a _ => if a.conn = k then some (.waiting a.fd) else none
  | .create a i => if a.conn = k then some (.held i) else none
  | _ => none

def ahead : AppListen → Bool
  | .store _ _ => true
  | _ => false

def finds (fd : AppSlot → Fd) : AppListen → Prop
  | .search _ i => ∃ j : AppSlot, i ≤ j.val ∧ fd j = 0
  | .count _ i | .store _ i => fd i = 0
  | .zombie _ => False
  | _ => True

end Listener

namespace Slave

def holdsInterface : AppSlavePc → Bool
  | .count | .take | .close | .clear | .unlock => true
  | _ => false

def life (x : AppSlave) : Life AppSlot :=
  match x.pc with
  | .start | .running | .lock | .count | .take | .close => .held x.index
  | .clear => .stale x.index
  | _ => .absent

def behind : AppSlavePc → Bool
  | .take | .close | .clear => true
  | _ => false

end Slave

def holdsInterface (p : App) : AppThread → Bool
  | .listener => Listener.holdsInterface p.listen
  | .slave k => Slave.holdsInterface (p.slaves k).pc

def ahead (p : App) : Bool :=
  match p.lock with
  | some .listener => Listener.ahead p.listen
  | _ => false

def behind (p : App) : Bool :=
  match p.lock with
  | some (.slave k) => Slave.behind (p.slaves k).pc
  | _ => false

def life (p : App) (k : Nat) : Life AppSlot :=
  (Listener.life p.listen k).getD (Slave.life (p.slaves k))

def tableOf (p : App) : Table AppSlot where
  fd i := (p.connections i).sockFd
  owner i := (p.connections i).owner
  life := life p

/-- The number of slots with `sock_fd > 0`. -/
def occupied (p : App) : Nat := count (fun x => decide (0 < x.sockFd)) p.connections

end Views

structure Owners (kernel : Kernel) (p : App) : Prop where
  table : Consistent kernel Conn.app (tableOf p)
  newborn : ∀ k l, Listener.life p.listen k = some l → k < p.accepted ∧ (p.slaves k).pc = .unborn
  fresh : ∀ k, p.accepted ≤ k → (p.slaves k).pc = .unborn
  sock : ∀ k, (p.slaves k).pc = .running →
    (p.slaves k).sock = (p.connections (p.slaves k).index).sockFd
  taken : ∀ k, (p.slaves k).pc = .close →
    (p.slaves k).sock_ = (p.connections (p.slaves k).index).sockFd
  finds : Listener.finds (fun i => (p.connections i).sockFd) p.listen

structure Inv (kernel : Kernel) (p : App) : Prop where
  interface : Held (holdsInterface p) p.lock
  owners : Owners kernel p
  counted : p.nConnections + (behind p).toNat = occupied p + (ahead p).toNat

theorem conn_injective : Function.Injective Conn.app := fun _ _ eq => Conn.app.inj eq

section Frames

variable {kernel kernel' : Kernel} {p p' : App} {k : Nat}

theorem Owners.born (h : Owners kernel p) (born : (p.slaves k).pc ≠ .unborn) :
    Listener.life p.listen k = none := by
  cases hl : Listener.life p.listen k with
  | none => rfl
  | some l => exact absurd (h.newborn k l hl).2 born

theorem Owners.held (h : Owners kernel p)
    (runs : Slave.life (p.slaves k) = .held (p.slaves k).index) :
    (tableOf p).life k = .held (p.slaves k).index := by
  have mine : Listener.life p.listen k = none := by
    refine h.born fun unborn => ?_
    simp [Slave.life, unborn] at runs
  simp [tableOf, AppTable.life, mine, runs]

theorem Owners.nonzero (h : Owners kernel p)
    (runs : Slave.life (p.slaves k) = .held (p.slaves k).index) :
    (p.connections (p.slaves k).index).sockFd ≠ 0 :=
  h.table.fd_ne_zero (h.table.owner_of_held (h.held runs))

theorem Inv.listener_has (h : Inv kernel p) (busy : Listener.holdsInterface p.listen = true) :
    p.lock = some .listener := (h.interface .listener).mp busy

theorem Inv.slave_has (h : Inv kernel p) (busy : Slave.holdsInterface (p.slaves k).pc = true) :
    p.lock = some (.slave k) := (h.interface (.slave k)).mp busy

theorem occupied_same (connections : p'.connections = p.connections) :
    occupied p' = occupied p := by
  rw [occupied, connections, occupied]

theorem occupied_set (i : AppSlot) (x : AppConnection)
    (connections : p'.connections = Function.update p.connections i x) :
    occupied p' + (decide (0 < (p.connections i).sockFd)).toNat =
      occupied p + (decide (0 < x.sockFd)).toNat := by
  have moved := count_update (fun x => decide (0 < x.sockFd)) p.connections i x
  rw [← connections] at moved
  exact moved

theorem exists_free (room : occupied p < maxApps) : ∃ i, (p.connections i).sockFd = 0 := by
  by_contra none
  rw [not_exists] at none
  have full : (Finset.univ.filter fun i =>
      decide (0 < (p.connections i).sockFd) = true) = Finset.univ := by
    refine Finset.filter_true_of_mem fun i _ => ?_
    simpa using Nat.pos_of_ne_zero (none i)
  rw [occupied, count_eq_card, full, Finset.card_univ, Fintype.card_fin] at room
  exact Nat.lt_irrefl _ room

theorem occupied_le (p : App) : occupied p ≤ maxApps := by
  rw [occupied, count_eq_card]
  refine (Finset.card_le_univ _).trans ?_
  rw [Fintype.card_fin]

end Frames

section Listen

variable {kernel : Kernel} {p p' : App}

theorem locks_listener (h : Inv kernel p) (slaves : p'.slaves = p.slaves)
    (mine : Change .listener (Listener.holdsInterface p.listen) (Listener.holdsInterface p'.listen)
      p.lock p'.lock) : Held (holdsInterface p') p'.lock := by
  refine h.interface.change (t := .listener) (fun u ne => ?_) mine
  cases u with
  | listener => exact absurd rfl ne
  | slave k => simp only [holdsInterface, slaves]

theorem Inv.listenMove (h : Inv kernel p)
    (life : Listener.life p'.listen = Listener.life p.listen)
    (finds : Listener.finds (fun i => (p.connections i).sockFd) p'.listen)
    (interface : Change .listener (Listener.holdsInterface p.listen)
      (Listener.holdsInterface p'.listen) p.lock p'.lock)
    (counted : p'.nConnections + (behind p').toNat = occupied p + (ahead p').toNat)
    (connections : p'.connections = p.connections) (slaves : p'.slaves = p.slaves)
    (accepted : p'.accepted = p.accepted) : Inv kernel p' := by
  have table : tableOf p' = tableOf p := by
    simp only [tableOf, connections, Table.mk.injEq, true_and]
    funext k
    simp only [AppTable.life, slaves, life]
  refine ⟨locks_listener h slaves interface, ⟨table ▸ h.owners.table, ?_, ?_, ?_, ?_, ?_⟩, ?_⟩
  · rw [life, accepted, slaves]
    exact h.owners.newborn
  · rw [accepted, slaves]
    exact h.owners.fresh
  · rw [slaves, connections]
    exact h.owners.sock
  · rw [slaves, connections]
    exact h.owners.taken
  · rw [connections]
    exact finds
  · rw [occupied_same connections]
    exact counted

theorem Inv.listenGoto (h : Inv kernel p) {pc : AppListen}
    (before : Listener.holdsInterface p.listen = true) (after : Listener.holdsInterface pc = true)
    (life : Listener.life pc = Listener.life p.listen)
    (finds : Listener.finds (fun i => (p.connections i).sockFd) pc)
    (ahead : Listener.ahead pc = Listener.ahead p.listen) : Inv kernel (p.listenGoto pc) := by
  have busy := h.listener_has before
  have counted := h.counted
  refine h.listenMove life finds (.same (after.trans before.symm) rfl) ?_ rfl rfl rfl
  simpa [AppTable.ahead, behind, busy, App.listenGoto, ahead] using counted

theorem Inv.reject (h : Inv kernel p) {a : Accepted} (pc : p.listen = .reject a) :
    Inv (closeFd kernel a.fd) (p.listenGoto .unlock) := by
  have busy := h.listener_has (by rw [pc]; rfl)
  have counted := h.counted
  obtain ⟨_, unborn⟩ := h.owners.newborn a.conn (.waiting a.fd) (by simp [pc, Listener.life])
  have waits : (tableOf p).life a.conn = .waiting a.fd := by
    simp [tableOf, life, pc, Listener.life]
  have table : tableOf (p.listenGoto .unlock) = (tableOf p).setLife a.conn .absent := by
    refine Table.ext_of (fun _ => rfl) (fun _ => rfl) fun k => ?_
    by_cases eq : k = a.conn
    · subst eq
      simp [tableOf, Table.setLife, life, App.listenGoto, Listener.life, Slave.life, unborn]
    · simp [tableOf, Table.setLife, life, App.listenGoto, Listener.life, pc, eq, Ne.symm eq]
  refine ⟨locks_listener h rfl (.same ?_ rfl), ⟨?_, fun k l unborn => ?_, h.owners.fresh,
    h.owners.sock, h.owners.taken, trivial⟩, ?_⟩
  · rw [pc]
    rfl
  · rw [table]
    exact h.owners.table.drop conn_injective waits
  · cases unborn
  · simpa [ahead, behind, busy, App.listenGoto, pc, Listener.ahead, occupied] using counted

theorem Inv.store (h : Inv kernel p) {a : Accepted} {i : AppSlot} (pc : p.listen = .store a i) :
    Inv kernel ((p.setSlot i ⟨a.fd, some a.conn⟩).listenGoto (.create a i)) := by
  have busy := h.listener_has (by rw [pc]; rfl)
  have zero : (p.connections i).sockFd = 0 := by
    have := h.owners.finds
    rw [pc] at this
    exact this
  obtain ⟨below, unborn⟩ := h.owners.newborn a.conn (.waiting a.fd) (by simp [pc, Listener.life])
  have waits : (tableOf p).life a.conn = .waiting a.fd := by
    simp [tableOf, life, pc, Listener.life]
  have pos := (h.owners.table.waiting a.conn a.fd waits).1
  generalize eq : (p.setSlot i ⟨a.fd, some a.conn⟩).listenGoto (.create a i) = p'
  have connections : p'.connections = Function.update p.connections i ⟨a.fd, some a.conn⟩ := by
    rw [← eq]
    rfl
  have listen : p'.listen = .create a i := by rw [← eq]; rfl
  have same : p'.slaves = p.slaves ∧ p'.accepted = p.accepted ∧ p'.lock = p.lock ∧
      p'.nConnections = p.nConnections := by
    rw [← eq]
    exact ⟨rfl, rfl, rfl, rfl⟩
  obtain ⟨slaves, accepted, lock, n⟩ := same
  have noStale (k : Nat) (j : AppSlot) : (tableOf p).life k ≠ .stale j := by
    intro stale
    have clears : (p.slaves k).pc = .clear := by
      simp only [tableOf, life, pc, Listener.life] at stale
      split at stale
      · cases stale
      · cases hp : (p.slaves k).pc <;> simp [Slave.life, hp] at stale ⊢
    have owner := h.slave_has (k := k) (by rw [clears]; rfl)
    rw [busy] at owner
    cases owner
  have table : tableOf p' = (tableOf p).register a.conn i a.fd := by
    refine Table.ext_of (fun j => ?_) (fun j => ?_) fun k => ?_
    · by_cases eq : j = i
      · subst eq
        simp [tableOf, Table.register, Table.setSlot, Table.setLife, connections]
      · simp [tableOf, Table.register, Table.setSlot, Table.setLife, connections, eq]
    · by_cases eq : j = i
      · subst eq
        simp [tableOf, Table.register, Table.setSlot, Table.setLife, connections]
      · simp [tableOf, Table.register, Table.setSlot, Table.setLife, connections, eq]
    · by_cases eq : k = a.conn
      · subst eq
        simp [tableOf, Table.register, Table.setLife, life, listen, Listener.life]
      · simp [tableOf, Table.register, Table.setSlot, Table.setLife, life, Listener.life, listen,
          slaves, pc, eq, Ne.symm eq]
  have frame (j : AppSlot) (occupied : (p.connections j).sockFd ≠ 0) :
      p'.connections j = p.connections j := by
    have apart : j ≠ i := by
      rintro rfl
      exact occupied zero
    rw [connections, Function.update_of_ne apart]
  refine ⟨locks_listener h slaves (.same ?_ lock), ⟨?_, fun k l mine => ?_, ?_, fun k running => ?_,
    fun k taken => ?_, ?_⟩, ?_⟩
  · rw [listen, pc]
    rfl
  · rw [table]
    exact h.owners.table.register conn_injective waits ((h.owners.table.zero i).mp zero) noStale
  · rw [accepted, slaves]
    simp only [listen, Listener.life] at mine
    split at mine
    · rename_i eq
      subst eq
      exact ⟨below, unborn⟩
    · cases mine
  · rw [accepted, slaves]
    exact h.owners.fresh
  · rw [slaves] at running ⊢
    rw [frame _ (h.owners.nonzero (k := k) (by simp [Slave.life, running]))]
    exact h.owners.sock k running
  · rw [slaves] at taken ⊢
    rw [frame _ (h.owners.nonzero (k := k) (by simp [Slave.life, taken]))]
    exact h.owners.taken k taken
  · rw [listen]
    trivial
  · have moved := occupied_set i _ connections
    have counted := h.counted
    simp only [ahead, behind, busy, pc, Listener.ahead, Bool.toNat_true, Bool.toNat_false] at counted
    simp only [zero, pos, decide_true, Nat.lt_irrefl, decide_false, Bool.toNat_true,
      Bool.toNat_false] at moved
    simp only [n, ahead, behind, lock, busy, listen, Listener.ahead, Bool.toNat_false]
    omega

theorem Inv.create (h : Inv kernel p) {a : Accepted} {i : AppSlot} (pc : p.listen = .create a i) :
    Inv kernel ((p.setSlave a.conn ⟨i, 0, 0, .start⟩).listenGoto .unlock) := by
  have busy := h.listener_has (by rw [pc]; rfl)
  obtain ⟨below, unborn⟩ := h.owners.newborn a.conn (.held i) (by simp [pc, Listener.life])
  generalize eq : (p.setSlave a.conn ⟨i, 0, 0, .start⟩).listenGoto .unlock = p'
  have slaves : p'.slaves = Function.update p.slaves a.conn ⟨i, 0, 0, .start⟩ := by rw [← eq]; rfl
  have listen : p'.listen = .unlock := by rw [← eq]; rfl
  have same : p'.connections = p.connections ∧ p'.accepted = p.accepted ∧ p'.lock = p.lock ∧
      p'.nConnections = p.nConnections := by
    rw [← eq]
    exact ⟨rfl, rfl, rfl, rfl⟩
  obtain ⟨connections, accepted, lock, n⟩ := same
  have table : tableOf p' = tableOf p := by
    refine Table.ext_of (fun j => ?_) (fun j => ?_) fun k => ?_
    · simp only [tableOf, connections]
    · simp only [tableOf, connections]
    · by_cases eq : k = a.conn
      · subst eq
        simp [tableOf, life, listen, slaves, pc, Listener.life, Slave.life]
      · simp [tableOf, life, listen, slaves, pc, Listener.life, eq, Ne.symm eq]
  have elsewhere (k : Nat) {s : AppSlavePc} (is : (p'.slaves k).pc = s) (ne : s ≠ .start) :
      p'.slaves k = p.slaves k := by
    have apart : k ≠ a.conn := by
      rintro rfl
      rw [slaves, Function.update_self] at is
      exact ne is.symm
    rw [slaves, Function.update_of_ne apart]
  refine ⟨?_, ⟨?_, fun k l none => ?_, fun k above => ?_, fun k running => ?_, fun k taken => ?_,
    ?_⟩, ?_⟩
  · rw [lock]
    refine h.interface.same fun t => ?_
    cases t with
    | listener => simp [holdsInterface, listen, pc, Listener.holdsInterface]
    | slave k =>
      by_cases eq : k = a.conn
      · subst eq
        simp [holdsInterface, slaves, unborn, Slave.holdsInterface]
      · simp [holdsInterface, slaves, eq]
  · rw [table]
    exact h.owners.table
  · rw [listen] at none
    cases none
  · rw [accepted] at above
    have apart : k ≠ a.conn := by omega
    rw [slaves, Function.update_of_ne apart]
    exact h.owners.fresh k above
  · have same := elsewhere k running (by simp)
    rw [same] at running ⊢
    rw [connections]
    exact h.owners.sock k running
  · have same := elsewhere k taken (by simp)
    rw [same] at taken ⊢
    rw [connections]
    exact h.owners.taken k taken
  · rw [listen]
    trivial
  · have counted := h.counted
    simp only [ahead, behind, busy, pc, Listener.ahead, Bool.toNat_false] at counted
    simp only [n, occupied_same connections, ahead, behind, lock, busy, listen, Listener.ahead,
      Bool.toNat_false]
    exact counted

theorem Inv.listen {kernel' : Kernel} (h : Inv kernel p)
    (edge : appListenStep kernel p = some (kernel', p')) : Inv kernel' p' := by
  have counted := h.counted
  unfold appListenStep at edge
  split at edge
  case h_1 => cases edge
  case h_2 a pc =>
    split at edge
    · rename_i free
      cases edge
      refine h.listenMove ?_ trivial (.take free rfl rfl) ?_ rfl rfl rfl
      · rw [pc]
        cases a <;> rfl
      · simpa [ahead, behind, free, App.listenGoto, Listener.ahead] using counted
    · cases edge
  case h_3 pc =>
    cases edge
    exact h.listenGoto (by rw [pc]; rfl) rfl (by rw [pc]; rfl) trivial (by rw [pc]; rfl)
  case h_4 a pc =>
    split at edge <;> cases edge
    · exact h.listenGoto (by rw [pc]; rfl) rfl (by rw [pc]; rfl) trivial (by rw [pc]; rfl)
    · rename_i room
      refine h.listenGoto (by rw [pc]; rfl) rfl (by rw [pc]; rfl) ?_ (by rw [pc]; rfl)
      -- the counter is exact here, so a slot is free
      have busy := h.listener_has (by rw [pc]; rfl)
      simp only [ahead, behind, busy, pc, Listener.ahead, Bool.toNat_false] at counted
      obtain ⟨i, zero⟩ := exists_free (p := p) (by omega)
      exact ⟨i, Nat.zero_le _, zero⟩
  case h_5 a pc =>
    cases edge
    exact h.reject pc
  case h_6 a i pc =>
    have found := h.owners.finds
    rw [pc] at found
    obtain ⟨j, above, zero⟩ := found
    split at edge
    · split at edge <;> cases edge
      · rename_i free
        exact h.listenGoto (by rw [pc]; rfl) rfl (by rw [pc]; rfl) free (by rw [pc]; rfl)
      · rename_i taken
        refine h.listenGoto (by rw [pc]; rfl) rfl (by rw [pc]; rfl) ⟨j, ?_, zero⟩ (by rw [pc]; rfl)
        have apart : j.val ≠ i := by
          rintro rfl
          exact taken zero
        omega
    · rename_i past
      exact absurd (Nat.lt_of_le_of_lt above j.isLt) past
  case h_7 => cases edge
  case h_8 a i pc =>
    cases edge
    have busy := h.listener_has (by rw [pc]; rfl)
    have found := h.owners.finds
    rw [pc] at found
    refine h.listenMove (by rw [pc]; rfl) found (.same (by rw [pc]; rfl) rfl) ?_ rfl rfl rfl
    simp only [ahead, behind, busy, pc, Listener.ahead, Bool.toNat_false] at counted
    simp only [ahead, behind, App.listenGoto, busy, Listener.ahead, Bool.toNat_false,
      Bool.toNat_true]
    omega
  case h_9 a i pc =>
    cases edge
    exact h.store pc
  case h_10 a i pc =>
    cases edge
    exact h.create pc
  case h_11 pc =>
    cases edge
    have busy := h.listener_has (by rw [pc]; rfl)
    refine h.listenMove (by rw [pc]; rfl) trivial (.release (by rw [pc]; rfl) rfl rfl) ?_ rfl rfl rfl
    simpa [ahead, behind, busy, pc, App.listenGoto, Listener.ahead] using counted

theorem Inv.accept {kernel' : Kernel} {fd : Option Fd} (h : Inv kernel p)
    (pc : p.listen = .accept) (opened : acceptFd kernel (.app p.accepted) fd = some kernel') :
    Inv kernel' { p with
      accepted := p.accepted + 1
      listen := .lock (fd.map fun fd => ⟨fd, p.accepted⟩) } := by
  have unborn : (p.slaves p.accepted).pc = .unborn := h.owners.fresh _ (Nat.le_refl _)
  have absent : (tableOf p).life p.accepted = .absent := by
    simp [tableOf, life, pc, Listener.life, Slave.life, unborn]
  generalize eq : ({ p with
      accepted := p.accepted + 1
      listen := .lock (fd.map fun fd => ⟨fd, p.accepted⟩) } : App) = p'
  have listen : p'.listen = .lock (fd.map fun fd => ⟨fd, p.accepted⟩) := by rw [← eq]
  have same : p'.connections = p.connections ∧ p'.slaves = p.slaves ∧ p'.lock = p.lock ∧
      p'.nConnections = p.nConnections := by
    rw [← eq]
    exact ⟨rfl, rfl, rfl, rfl⟩
  have accepted : p'.accepted = p.accepted + 1 := by rw [← eq]
  obtain ⟨connections, slaves, lock, n⟩ := same
  have table : Consistent kernel' Conn.app (tableOf p') := by
    cases fd with
    | none =>
      obtain rfl : kernel = kernel' := by simpa [acceptFd] using opened
      have same : tableOf p' = tableOf p := by
        refine Table.ext_of (fun j => ?_) (fun j => ?_) fun k => ?_
        · simp only [tableOf, connections]
        · simp only [tableOf, connections]
        · simp [tableOf, life, listen, slaves, pc, Listener.life]
      rw [same]
      exact h.owners.table
    | some f =>
      simp only [acceptFd, Option.ite_none_right_eq_some, Option.some.injEq] at opened
      obtain ⟨⟨pos, closed⟩, rfl⟩ := opened
      have waits : tableOf p' = (tableOf p).setLife p.accepted (.waiting f) := by
        refine Table.ext_of (fun j => ?_) (fun j => ?_) fun k => ?_
        · simp only [tableOf, Table.setLife, connections]
        · simp only [tableOf, Table.setLife, connections]
        · by_cases eq : k = p.accepted
          · subst eq
            simp [tableOf, Table.setLife, life, listen, Listener.life]
          · simp [tableOf, Table.setLife, life, listen, slaves, pc, Listener.life, eq, Ne.symm eq]
      rw [waits]
      exact h.owners.table.accept absent pos closed
  refine ⟨locks_listener h slaves (.same ?_ lock), ⟨table, fun k l mine => ?_, fun k above => ?_,
    ?_, ?_, ?_⟩, ?_⟩
  · rw [listen, pc]
    rfl
  · rw [slaves, accepted]
    have eq : k = p.accepted := by
      rw [listen] at mine
      cases fd with
      | none => cases mine
      | some f =>
        simp only [Option.map_some, Listener.life] at mine
        split at mine
        · rename_i eq
          exact eq.symm
        · cases mine
    subst eq
    exact ⟨Nat.lt_succ_self _, unborn⟩
  · rw [accepted] at above
    rw [slaves]
    exact h.owners.fresh k (by omega)
  · rw [slaves, connections]
    exact h.owners.sock
  · rw [slaves, connections]
    exact h.owners.taken
  · rw [listen]
    trivial
  · have counted := h.counted
    have same : ahead p' = ahead p ∧ behind p' = behind p := by
      simp only [ahead, behind, lock, listen, pc, Listener.ahead, slaves, and_self]
    rw [n, occupied_same connections, same.1, same.2]
    exact counted

end Listen

section Slaves

variable {kernel kernel' : Kernel} {p p' : App} {k : Nat}

theorem locks_slave (h : Inv kernel p) {x : AppSlave}
    (slaves : p'.slaves = Function.update p.slaves k x) (listen : p'.listen = p.listen)
    (mine : Change (.slave k) (Slave.holdsInterface (p.slaves k).pc) (Slave.holdsInterface x.pc)
      p.lock p'.lock) : Held (holdsInterface p') p'.lock := by
  refine h.interface.change (t := .slave k) (fun u ne => ?_) ?_
  · cases u with
    | listener => simp only [holdsInterface, listen]
    | slave m =>
      have other : m ≠ k := fun eq => ne (congrArg AppThread.slave eq)
      simp only [holdsInterface, slaves, Function.update_of_ne other]
  · simpa only [holdsInterface, slaves, Function.update_self] using mine

theorem Inv.slaveMove (h : Inv kernel p) {x : AppSlave} (born : (p.slaves k).pc ≠ .unborn)
    (table : Consistent kernel' Conn.app (tableOf p'))
    (interface : Change (.slave k) (Slave.holdsInterface (p.slaves k).pc)
      (Slave.holdsInterface x.pc) p.lock p'.lock)
    (sock : x.pc = .running → x.sock = (p'.connections x.index).sockFd)
    (taken : x.pc = .close → x.sock_ = (p'.connections x.index).sockFd)
    (frame : ∀ m, m ≠ k → Slave.life (p.slaves m) = .held (p.slaves m).index →
      p'.connections (p.slaves m).index = p.connections (p.slaves m).index)
    (finds : Listener.finds (fun i => (p'.connections i).sockFd) p.listen)
    (counted : p'.nConnections + (behind p').toNat = occupied p' + (ahead p').toNat)
    (slaves : p'.slaves = Function.update p.slaves k x) (listen : p'.listen = p.listen)
    (accepted : p'.accepted = p.accepted) : Inv kernel' p' := by
  have mine := h.owners.born born
  refine ⟨locks_slave h slaves listen interface, ⟨table, fun m l new => ?_, fun m above => ?_,
    fun m running => ?_, fun m close => ?_, listen ▸ finds⟩, counted⟩
  · rw [listen] at new
    have ne : m ≠ k := by
      rintro rfl
      rw [mine] at new
      cases new
    rw [accepted, slaves, Function.update_of_ne ne]
    exact h.owners.newborn m l new
  · rw [accepted] at above
    have ne : m ≠ k := by
      rintro rfl
      exact born (h.owners.fresh m above)
    rw [slaves, Function.update_of_ne ne]
    exact h.owners.fresh m above
  · rw [slaves] at running ⊢
    by_cases eq : m = k
    · subst eq
      rw [Function.update_self] at running ⊢
      exact sock running
    · rw [Function.update_of_ne eq] at running ⊢
      rw [frame m eq (by simp [Slave.life, running])]
      exact h.owners.sock m running
  · rw [slaves] at close ⊢
    by_cases eq : m = k
    · subst eq
      rw [Function.update_self] at close ⊢
      exact taken close
    · rw [Function.update_of_ne eq] at close ⊢
      rw [frame m eq (by simp [Slave.life, close])]
      exact h.owners.taken m close

theorem Inv.slaveKeep (h : Inv kernel p) {x : AppSlave} (born : (p.slaves k).pc ≠ .unborn)
    (life : Slave.life x = Slave.life (p.slaves k))
    (interface : Change (.slave k) (Slave.holdsInterface (p.slaves k).pc)
      (Slave.holdsInterface x.pc) p.lock p'.lock)
    (sock : x.pc = .running → x.sock = (p.connections x.index).sockFd)
    (taken : x.pc = .close → x.sock_ = (p.connections x.index).sockFd)
    (counted : p'.nConnections + (behind p').toNat = occupied p + (ahead p').toNat)
    (connections : p'.connections = p.connections)
    (slaves : p'.slaves = Function.update p.slaves k x) (listen : p'.listen = p.listen)
    (accepted : p'.accepted = p.accepted) : Inv kernel p' := by
  have table : tableOf p' = tableOf p := by
    simp only [tableOf, connections, Table.mk.injEq, true_and]
    funext m
    by_cases eq : m = k
    · subst eq
      simp [AppTable.life, slaves, listen, life]
    · simp [AppTable.life, slaves, listen, eq]
  refine h.slaveMove born (table ▸ h.owners.table) interface ?_ ?_ (fun _ _ _ => by rw [connections])
    ?_ ?_ slaves listen accepted
  · rw [connections]
    exact sock
  · rw [connections]
    exact taken
  · rw [connections]
    exact h.owners.finds
  · rw [occupied_same connections]
    exact counted

theorem count_outside (h : Inv kernel p) (x : AppSlave)
    (before : Slave.holdsInterface (p.slaves k).pc = false) :
    (p.setSlave k x).nConnections + (behind (p.setSlave k x)).toNat =
      occupied p + (ahead (p.setSlave k x)).toNat := by
  have counted := h.counted
  cases hl : p.lock with
  | none => simpa [ahead, behind, App.setSlave, hl] using counted
  | some t =>
    cases t with
    | listener => simpa [ahead, behind, App.setSlave, hl] using counted
    | slave m =>
      have busy : Slave.holdsInterface (p.slaves m).pc = true := (h.interface (.slave m)).mpr hl
      have apart : m ≠ k := by
        rintro rfl
        rw [before] at busy
        cases busy
      simpa [ahead, behind, App.setSlave, hl, apart] using counted

theorem Inv.counted_slave (h : Inv kernel p) (busy : p.lock = some (.slave k)) :
    p.nConnections + (Slave.behind (p.slaves k).pc).toNat = occupied p := by
  have counted := h.counted
  simpa [ahead, behind, busy] using counted

theorem Inv.close (h : Inv kernel p) (pc : (p.slaves k).pc = .close) :
    Inv (closeFd kernel (p.slaves k).sock_) (p.slaveGoto k .clear) := by
  have busy := h.slave_has (k := k) (by rw [pc]; rfl)
  have counted := h.counted_slave busy
  have mine : Listener.life p.listen k = none := h.owners.born (by simp [pc])
  have held := h.owners.held (k := k) (by simp [Slave.life, pc])
  have table : tableOf (p.slaveGoto k .clear) =
      (tableOf p).setLife k (.stale (p.slaves k).index) := by
    refine Table.ext_of (fun _ => rfl) (fun _ => rfl) fun m => ?_
    by_cases eq : m = k
    · subst eq
      simp [tableOf, Table.setLife, life, App.slaveGoto, App.setSlave, mine, Slave.life]
    · simp [tableOf, Table.setLife, life, App.slaveGoto, App.setSlave, eq]
  refine h.slaveMove (k := k) (x := { p.slaves k with pc := .clear }) (by simp [pc]) ?_
    (.same (by simp [pc, Slave.holdsInterface]) rfl) (by simp) (by simp) (fun _ _ _ => rfl)
    h.owners.finds ?_ rfl rfl rfl
  · rw [table, h.owners.taken k pc]
    exact h.owners.table.closeHeld conn_injective held
  · rw [pc] at counted
    simpa [ahead, behind, App.slaveGoto, App.setSlave, busy, Slave.behind, occupied] using counted

theorem Inv.clear (h : Inv kernel p) (pc : (p.slaves k).pc = .clear) :
    Inv kernel ((p.setSlot (p.slaves k).index ⟨0, none⟩).slaveGoto k .unlock) := by
  have busy := h.slave_has (k := k) (by rw [pc]; rfl)
  have counted := h.counted_slave busy
  have mine : Listener.life p.listen k = none := h.owners.born (by simp [pc])
  have stale : (tableOf p).life k = .stale (p.slaves k).index := by
    simp [tableOf, life, mine, Slave.life, pc]
  have owner : (tableOf p).owner (p.slaves k).index = some k :=
    (h.owners.table.owned _ k).mpr (.inr stale)
  generalize eq : (p.setSlot (p.slaves k).index ⟨0, none⟩).slaveGoto k .unlock = p'
  have connections : p'.connections = Function.update p.connections (p.slaves k).index ⟨0, none⟩ := by
    rw [← eq]
    rfl
  have slaves : p'.slaves = Function.update p.slaves k { p.slaves k with pc := .unlock } := by
    rw [← eq]
    rfl
  have same : p'.listen = p.listen ∧ p'.accepted = p.accepted ∧ p'.lock = p.lock ∧
      p'.nConnections = p.nConnections := by
    rw [← eq]
    exact ⟨rfl, rfl, rfl, rfl⟩
  obtain ⟨listen, accepted, lock, n⟩ := same
  have table : tableOf p' = (tableOf p).forget k (p.slaves k).index := by
    refine Table.ext_of (fun j => ?_) (fun j => ?_) fun m => ?_
    · by_cases eq : j = (p.slaves k).index
      · simp [tableOf, Table.forget, Table.setSlot, Table.setLife, connections, eq]
      · simp [tableOf, Table.forget, Table.setSlot, Table.setLife, connections, eq]
    · by_cases eq : j = (p.slaves k).index
      · simp [tableOf, Table.forget, Table.setSlot, Table.setLife, connections, eq]
      · simp [tableOf, Table.forget, Table.setSlot, Table.setLife, connections, eq]
    · by_cases eq : m = k
      · subst eq
        simp [tableOf, Table.forget, Table.setLife, life, listen, mine, slaves, Slave.life]
      · simp [tableOf, Table.forget, Table.setSlot, Table.setLife, life, listen, slaves, eq]
  refine h.slaveMove (k := k) (x := { p.slaves k with pc := .unlock }) (by simp [pc]) ?_
    (.same (by simp [pc, Slave.holdsInterface]) lock) (by simp) (by simp) (fun m ne live => ?_) ?_ ?_
    slaves listen accepted
  · rw [table]
    exact h.owners.table.forget stale
  · have apart : (p.slaves m).index ≠ (p.slaves k).index := by
      intro same
      have other := h.owners.table.owner_of_held (h.owners.held live)
      rw [same, owner] at other
      exact ne (Option.some.inj other).symm
    rw [connections, Function.update_of_ne apart]
  · -- the listener is not searching: the slave holds the interface
    have idle : Listener.holdsInterface p.listen = false := by
      by_contra held
      have listener := h.listener_has (by simpa using held)
      rw [busy] at listener
      cases listener
    cases hl : p.listen <;> simp [hl, Listener.holdsInterface] at idle <;> trivial
  · have moved := occupied_set (p.slaves k).index _ connections
    have pos : 0 < (p.connections (p.slaves k).index).sockFd :=
      Nat.pos_of_ne_zero (h.owners.table.fd_ne_zero owner)
    simp only [pos, decide_true, Nat.lt_irrefl, decide_false, Bool.toNat_true,
      Bool.toNat_false] at moved
    simp only [pc, Slave.behind, Bool.toNat_true] at counted
    simp only [n, ahead, behind, lock, busy, slaves, Function.update_self, Slave.behind,
      Bool.toNat_false]
    omega

theorem Inv.slave {act : SlaveAct} {packets : List Broadcast}
    (h : Inv kernel p) (edge : appSlaveStep kernel p k act = some (kernel', p', packets)) :
    Inv kernel' p' := by
  unfold appSlaveStep at edge
  simp only at edge
  split at edge
  case h_1 pc =>
    cases edge
    exact h.slaveKeep (k := k)
      (x := { p.slaves k with sock := (p.connections (p.slaves k).index).sockFd, pc := .running })
      (by simp [pc]) (by simp [Slave.life, pc]) (.same (by simp [pc, Slave.holdsInterface]) rfl)
      (fun _ => rfl) (by simp) (count_outside h _ (by rw [pc]; rfl)) rfl rfl rfl rfl
  case h_2 pc =>
    cases edge
    exact h
  case h_3 pc =>
    cases edge
    exact h.slaveKeep (k := k) (x := { p.slaves k with pc := .lock }) (by simp [pc])
      (by simp [Slave.life, pc]) (.same (by simp [pc, Slave.holdsInterface]) rfl) (by simp) (by simp)
      (count_outside h _ (by rw [pc]; rfl)) rfl rfl rfl rfl
  case h_4 pc =>
    split at edge
    · rename_i free
      cases edge
      refine h.slaveKeep (k := k) (x := { p.slaves k with pc := .count }) (by simp [pc])
        (by simp [Slave.life, pc]) (.take free rfl rfl) (by simp) (by simp) ?_ rfl rfl rfl rfl
      have counted := h.counted
      simpa [ahead, behind, free, App.slaveGoto, App.setSlave, Slave.behind] using counted
    · cases edge
  case h_5 pc =>
    cases edge
    have busy := h.slave_has (k := k) (by rw [pc]; rfl)
    have counted := h.counted_slave busy
    refine h.slaveKeep (k := k) (x := { p.slaves k with pc := .take }) (by simp [pc])
      (by simp [Slave.life, pc]) (.same (by simp [pc, Slave.holdsInterface]) rfl) (by simp) (by simp)
      ?_ rfl rfl rfl rfl
    simp only [pc, Slave.behind, Bool.toNat_false] at counted
    simp only [ahead, behind, App.slaveGoto, App.setSlave, busy, Function.update_self, Slave.behind,
      Bool.toNat_true, Bool.toNat_false]
    omega
  case h_6 pc =>
    cases edge
    have busy := h.slave_has (k := k) (by rw [pc]; rfl)
    have counted := h.counted_slave busy
    refine h.slaveKeep (k := k)
      (x := { p.slaves k with sock_ := (p.connections (p.slaves k).index).sockFd, pc := .close })
      (by simp [pc]) (by simp [Slave.life, pc]) (.same (by simp [pc, Slave.holdsInterface]) rfl)
      (by simp) (fun _ => rfl) ?_ rfl rfl rfl rfl
    rw [pc] at counted
    simpa [ahead, behind, App.setSlave, busy, Slave.behind] using counted
  case h_7 pc =>
    cases edge
    exact h.close pc
  case h_8 pc =>
    cases edge
    exact h.clear pc
  case h_9 pc =>
    cases edge
    have busy := h.slave_has (k := k) (by rw [pc]; rfl)
    have counted := h.counted_slave busy
    refine h.slaveKeep (k := k) (x := { p.slaves k with pc := .finished }) (by simp [pc])
      (by simp [Slave.life, pc]) (.release (by rw [pc]; rfl) rfl rfl) (by simp) (by simp)
      ?_ rfl rfl rfl rfl
    rw [pc] at counted
    simpa [ahead, behind, App.slaveGoto, App.setSlave, Slave.behind] using counted
  case h_10 => cases edge

end Slaves

theorem Inv.other {kernel kernel' : Kernel} {p : App} (h : Inv kernel p)
    (keeps : ∀ f k, kernel f = some (.app k) → kernel' f = some (.app k)) : Inv kernel' p :=
  { h with
    owners := { h.owners with table := h.owners.table.other fun f k _ => keeps f k } }

theorem Inv.init (kernel : Kernel) : Inv kernel appInit := by
  have empty : tableOf appInit = .empty := by
    refine Table.ext_of (fun _ => rfl) (fun _ => rfl) fun k => ?_
    simp [tableOf, life, appInit, Listener.life, Slave.life, Table.empty]
  refine ⟨fun t => ?_, ⟨?_, fun k l born => ?_, fun k _ => rfl, fun k pc => ?_, fun k pc => ?_,
    trivial⟩, ?_⟩
  · cases t <;> simp [holdsInterface, appInit, Listener.holdsInterface, Slave.holdsInterface]
  · rw [empty]
    refine (Consistent.empty Conn.app).other fun f k opened => ?_
    cases opened
  · cases born
  · cases pc
  · cases pc
  · have free : occupied appInit = 0 := by
      unfold occupied
      exact count_eq_zero_iff.mpr fun i => rfl
    have idle : ahead appInit = false ∧ behind appInit = false := ⟨rfl, rfl⟩
    rw [free, idle.1, idle.2]
    rfl

end DistributedClipboard.Interfaces.AppTable
