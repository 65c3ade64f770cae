/- module: DistributedClipboard/Interfaces/ClipTable
   source: src/src/interfaces/clipif.c
   layer: refinement
   digest: What the listener, the slaves and the broadcaster keep true of the clipboards' table. -/

import DistributedClipboard.Interfaces.Tables
import DistributedClipboard.Lib.Counting
import DistributedClipboard.Lib.Mutex
import DistributedClipboard.Lib.SlotTable

set_option autoImplicit false
set_option relaxedAutoImplicit false

namespace DistributedClipboard.Interfaces.ClipTable

open DistributedClipboard.Common
open DistributedClipboard.Interfaces.Tables
open DistributedClipboard.Lib.Counting
open DistributedClipboard.Lib.Mutex
open DistributedClipboard.Lib.SlotTable (Life Table Consistent)

section Views

namespace Listener

def holdsInterface : ClipListen → Bool
  | .accept | .lock _ => false
  | _ => true

def holdsSlot : ClipListen → Option Slot
  | .test _ i | .release _ i | .count _ i | .store _ i | .unlockSlot _ i => some i
  | _ => none

def life (pc : ClipListen) (k : Nat) : Option (Life Slot) :=
  match pc with
  | .lock (some a) | .check (some a) | .reject a | .hello a | .trylock a _ | .test a _
  | .release a _ | .zombie a | .count a _ | .store a _ =>
    if a.conn = k then some (.waiting a.fd) else none
  | .unlockSlot a i | .create a i => if a.conn = k then some (.held i) else none
  | _ => none

theorem life_ne_stale {pc : ClipListen} {k : Nat} {l : Life Slot} {i : Slot}
    (mine : life pc k = some l) : l ≠ .stale i := by
  rintro rfl
  unfold life at mine
  split at mine
  all_goals
    first
      | (split at mine <;> cases mine)
      | cases mine

def chosen : ClipListen → Option Slot
  | .count _ i | .store _ i => some i
  | _ => none

def ahead : ClipListen → Bool
  | .store _ _ => true
  | _ => false

end Listener

namespace Slave

def holdsInterface : SlavePc → Bool
  | .lockSlot | .take | .clear | .unlockSlot | .close | .parent | .count | .unlock => true
  | _ => false

def holdsSlot : SlavePc → Bool
  | .take | .clear | .unlockSlot => true
  | _ => false

def life (x : Tables.Slave) : Life Slot :=
  match x.pc with
  | .start | .running | .lock | .lockSlot | .take | .clear => .held x.index
  | .unlockSlot | .close => .cleared x.sock_
  | _ => .absent

def ahead : SlavePc → Bool
  | .unlockSlot | .close | .parent | .count => true
  | _ => false

theorem life_ne_stale (x : Tables.Slave) (i : Slot) : life x ≠ .stale i := by
  unfold life
  split <;> simp

end Slave

namespace Broadcaster

def holdsSlot : BroadcastPc → Option Slot
  | .test _ i | .send _ i | .unlockSlot _ i => some i
  | _ => none

/-- The slot whose connection is being sent a packet. -/
def sending : BroadcastPc → Option Slot
  | .send _ i => some i
  | _ => none

end Broadcaster

def holdsInterface (c : Clip) : ClipThread → Bool
  | .listener => c.jammed || Listener.holdsInterface c.listen
  | .broadcaster => false
  | .slave k => Slave.holdsInterface (c.slaves k).pc

def holdsSlot (c : Clip) (i : Slot) : ClipThread → Bool
  | .listener => Listener.holdsSlot c.listen = some i
  | .broadcaster => Broadcaster.holdsSlot c.broadcast = some i
  | .slave k => Slave.holdsSlot (c.slaves k).pc && (c.slaves k).index = i

def ahead (c : Clip) : Bool :=
  match c.lock with
  | some .listener => Listener.ahead c.listen
  | some (.slave k) => Slave.ahead (c.slaves k).pc
  | _ => false

def life (c : Clip) (k : Nat) : Life Slot :=
  (Listener.life c.listen k).getD (Slave.life (c.slaves k))

def tableOf (c : Clip) : Table Slot where
  fd i := (c.connections i).sockFd
  owner i := (c.connections i).owner
  life := life c

/-- The number of slots with `sock_fd > 0`. -/
def occupied (c : Clip) : Nat := count (fun x => decide (0 < x.sockFd)) c.connections

end Views

structure Locks (c : Clip) : Prop where
  interface : Held (holdsInterface c) c.lock
  slots : ∀ i, Held (holdsSlot c i) (c.connections i).lock
  jam : c.jammed = true → Listener.holdsInterface c.listen = false

structure Owners (kernel : Kernel) (c : Clip) : Prop where
  table : Consistent kernel Conn.clip (tableOf c)
  newborn : ∀ k l, Listener.life c.listen k = some l → k < c.accepted ∧ (c.slaves k).pc = .unborn
  fresh : ∀ k, c.accepted ≤ k → (c.slaves k).pc = .unborn
  sock : ∀ k, (c.slaves k).pc = .running →
    (c.slaves k).sock = (c.connections (c.slaves k).index).sockFd
  taken : ∀ k, (c.slaves k).pc = .clear →
    (c.slaves k).sock_ = (c.connections (c.slaves k).index).sockFd
  chosen : ∀ i, Listener.chosen c.listen = some i → (c.connections i).sockFd = 0
  sending : ∀ i, Broadcaster.sending c.broadcast = some i → 0 < (c.connections i).sockFd

structure Inv (kernel : Kernel) (c : Clip) : Prop where
  locks : Locks c
  owners : Owners kernel c
  counted : c.nConnections = occupied c + (ahead c).toNat

section Frames

variable {kernel kernel' : Kernel} {c c' : Clip}

theorem Owners.alike (h : Owners kernel c)
    (fd : ∀ i, (c'.connections i).sockFd = (c.connections i).sockFd)
    (owner : ∀ i, (c'.connections i).owner = (c.connections i).owner)
    (slaves : c'.slaves = c.slaves) (accepted : c'.accepted = c.accepted)
    (life : Listener.life c'.listen = Listener.life c.listen)
    (chosen : ∀ i, Listener.chosen c'.listen = some i → (c.connections i).sockFd = 0)
    (sending : ∀ i, Broadcaster.sending c'.broadcast = some i → 0 < (c.connections i).sockFd) :
    Owners kernel c' := by
  have table : tableOf c' = tableOf c := by
    simp only [tableOf, fd, owner, Table.mk.injEq, true_and]
    funext k
    simp only [ClipTable.life, slaves, life]
  refine ⟨table ▸ h.table, ?_, ?_, ?_, ?_, ?_, ?_⟩ <;>
    simp only [fd, slaves, accepted, life]
  · exact h.newborn
  · exact h.fresh
  · exact h.sock
  · exact h.taken
  · exact chosen
  · exact sending

theorem Owners.slave (h : Owners kernel c) {k : Nat} {x : Tables.Slave}
    (fd : ∀ i, (c'.connections i).sockFd = (c.connections i).sockFd)
    (owner : ∀ i, (c'.connections i).owner = (c.connections i).owner)
    (slaves : c'.slaves = Function.update c.slaves k x) (accepted : c'.accepted = c.accepted)
    (listen : c'.listen = c.listen) (broadcast : c'.broadcast = c.broadcast)
    (born : (c.slaves k).pc ≠ .unborn) (life : Slave.life x = Slave.life (c.slaves k))
    (sock : x.pc = .running → x.sock = (c.connections x.index).sockFd)
    (taken : x.pc = .clear → x.sock_ = (c.connections x.index).sockFd) : Owners kernel c' := by
  have table : tableOf c' = tableOf c := by
    simp only [tableOf, fd, owner, Table.mk.injEq, true_and]
    funext m
    by_cases eq : m = k
    · subst eq
      simp [ClipTable.life, slaves, listen, life]
    · simp [ClipTable.life, slaves, listen, eq]
  refine ⟨table ▸ h.table, fun m l mine => ?_, fun m above => ?_, fun m pc => ?_, fun m pc => ?_,
    ?_, ?_⟩
  · rw [listen] at mine
    have old := h.newborn m l mine
    have eq : m ≠ k := by
      rintro rfl
      exact born old.2
    rw [accepted, slaves, Function.update_of_ne eq]
    exact old
  · rw [accepted] at above
    have eq : m ≠ k := by
      rintro rfl
      exact born (h.fresh m above)
    rw [slaves, Function.update_of_ne eq]
    exact h.fresh m above
  · rw [slaves] at pc ⊢
    by_cases eq : m = k
    · subst eq
      rw [Function.update_self] at pc ⊢
      rw [fd]
      exact sock pc
    · rw [Function.update_of_ne eq] at pc ⊢
      rw [fd]
      exact h.sock m pc
  · rw [slaves] at pc ⊢
    by_cases eq : m = k
    · subst eq
      rw [Function.update_self] at pc ⊢
      rw [fd]
      exact taken pc
    · rw [Function.update_of_ne eq] at pc ⊢
      rw [fd]
      exact h.taken m pc
  · simp only [listen, fd]
    exact h.chosen
  · simp only [broadcast, fd]
    exact h.sending

theorem Locks.listener (h : Locks c) (slaves : c'.slaves = c.slaves)
    (broadcast : c'.broadcast = c.broadcast)
    (interface : Change .listener (holdsInterface c .listener) (holdsInterface c' .listener)
      c.lock c'.lock)
    (slots : ∀ i, Change .listener (holdsSlot c i .listener) (holdsSlot c' i .listener)
      (c.connections i).lock (c'.connections i).lock)
    (jam : c'.jammed = true → Listener.holdsInterface c'.listen = false) : Locks c' := by
  refine ⟨h.interface.change (fun u ne => ?_) interface,
    fun i => (h.slots i).change (fun u ne => ?_) (slots i), jam⟩
  all_goals
    cases u with
    | listener => exact absurd rfl ne
    | broadcaster => simp only [holdsInterface, holdsSlot, broadcast]
    | slave k => simp only [holdsInterface, holdsSlot, slaves]

theorem Locks.slave (h : Locks c) {k : Nat} {x : Tables.Slave}
    (slaves : c'.slaves = Function.update c.slaves k x) (listen : c'.listen = c.listen)
    (broadcast : c'.broadcast = c.broadcast) (jammed : c'.jammed = c.jammed)
    (interface : Change (.slave k) (Slave.holdsInterface (c.slaves k).pc)
      (Slave.holdsInterface x.pc) c.lock c'.lock)
    (slots : ∀ i, Change (.slave k)
      (Slave.holdsSlot (c.slaves k).pc && (c.slaves k).index = i)
      (Slave.holdsSlot x.pc && x.index = i) (c.connections i).lock (c'.connections i).lock) :
    Locks c' := by
  have mine : c'.slaves k = x := by rw [slaves, Function.update_self]
  refine ⟨h.interface.change (t := .slave k) (fun u ne => ?_) ?_,
    fun i => (h.slots i).change (t := .slave k) (fun u ne => ?_) ?_, ?_⟩
  · cases u with
    | listener => simp only [holdsInterface, listen, jammed]
    | broadcaster => rfl
    | slave m =>
      have other : m ≠ k := fun eq => ne (congrArg ClipThread.slave eq)
      simp only [holdsInterface, slaves, Function.update_of_ne other]
  · simpa only [holdsInterface, mine] using interface
  · cases u with
    | listener => simp only [holdsSlot, listen]
    | broadcaster => simp only [holdsSlot, broadcast]
    | slave m =>
      have other : m ≠ k := fun eq => ne (congrArg ClipThread.slave eq)
      simp only [holdsSlot, slaves, Function.update_of_ne other]
  · simpa only [holdsSlot, mine] using slots i
  · rw [listen, jammed]
    exact h.jam

theorem Locks.broadcaster (h : Locks c) (slaves : c'.slaves = c.slaves)
    (listen : c'.listen = c.listen) (jammed : c'.jammed = c.jammed) (lock : c'.lock = c.lock)
    (slots : ∀ i, Change .broadcaster (holdsSlot c i .broadcaster) (holdsSlot c' i .broadcaster)
      (c.connections i).lock (c'.connections i).lock) : Locks c' := by
  refine ⟨lock ▸ h.interface.same fun u => ?_,
    fun i => (h.slots i).change (fun u ne => ?_) (slots i), ?_⟩
  · cases u with
    | listener => simp only [holdsInterface, listen, jammed]
    | broadcaster => rfl
    | slave k => simp only [holdsInterface, slaves]
  · cases u with
    | listener => simp only [holdsSlot, listen]
    | broadcaster => exact absurd rfl ne
    | slave k => simp only [holdsSlot, slaves]
  · rw [listen, jammed]
    exact h.jam

theorem occupied_same (fd : ∀ i, (c'.connections i).sockFd = (c.connections i).sockFd) :
    occupied c' = occupied c := by
  simp only [occupied, count, fd]

end Frames

section Listen

variable {kernel : Kernel} {c c' : Clip}

theorem Inv.listener_has (h : Inv kernel c) (busy : Listener.holdsInterface c.listen = true) :
    c.lock = some .listener :=
  (h.locks.interface .listener).mp (by simp [holdsInterface, busy])

theorem Inv.not_jammed (h : Inv kernel c) (busy : Listener.holdsInterface c.listen = true) :
    c.jammed = false := by
  by_contra jammed
  have := h.locks.jam (by simpa using jammed)
  rw [busy] at this
  cases this

theorem Inv.slave_has (h : Inv kernel c) {k : Nat}
    (busy : Slave.holdsInterface (c.slaves k).pc = true) : c.lock = some (.slave k) :=
  (h.locks.interface (.slave k)).mp busy

theorem Inv.listenMove (h : Inv kernel c) (before : Listener.holdsInterface c.listen = true)
    (after : Listener.holdsInterface c'.listen = true)
    (slots : ∀ i, Change .listener (holdsSlot c i .listener) (holdsSlot c' i .listener)
      (c.connections i).lock (c'.connections i).lock)
    (life : Listener.life c'.listen = Listener.life c.listen)
    (chosen : ∀ i, Listener.chosen c'.listen = some i → (c.connections i).sockFd = 0)
    (ahead : Listener.ahead c'.listen = Listener.ahead c.listen)
    (fd : ∀ i, (c'.connections i).sockFd = (c.connections i).sockFd)
    (owner : ∀ i, (c'.connections i).owner = (c.connections i).owner)
    (rest : c'.slaves = c.slaves ∧ c'.accepted = c.accepted ∧ c'.broadcast = c.broadcast ∧
      c'.lock = c.lock ∧ c'.jammed = c.jammed ∧ c'.nConnections = c.nConnections) :
    Inv kernel c' := by
  obtain ⟨slaves, accepted, broadcast, lock, jammed, n⟩ := rest
  have free := h.not_jammed before
  refine ⟨h.locks.listener slaves broadcast (.same ?_ lock) slots ?_, h.owners.alike fd owner slaves
    accepted life chosen ?_, ?_⟩
  · simp [holdsInterface, before, after]
  · rw [jammed, free]
    simp
  · rw [broadcast]
    exact h.owners.sending
  · have same : ClipTable.ahead c' = ClipTable.ahead c := by
      simp only [ClipTable.ahead, lock, h.listener_has before, ahead]
    rw [n, occupied_same fd, same]
    exact h.counted

theorem Inv.listenGoto (h : Inv kernel c) {pc : ClipListen}
    (before : Listener.holdsInterface c.listen = true) (after : Listener.holdsInterface pc = true)
    (slot : Listener.holdsSlot pc = Listener.holdsSlot c.listen)
    (life : Listener.life pc = Listener.life c.listen)
    (chosen : ∀ i, Listener.chosen pc = some i → (c.connections i).sockFd = 0)
    (ahead : Listener.ahead pc = Listener.ahead c.listen) : Inv kernel (c.listenGoto pc) :=
  h.listenMove before after (fun i => .same (by simp [holdsSlot, Clip.listenGoto, slot]) rfl) life
    chosen ahead (fun _ => rfl) (fun _ => rfl) ⟨rfl, rfl, rfl, rfl, rfl, rfl⟩

theorem conn_injective : Function.Injective Conn.clip := fun _ _ eq => Conn.clip.inj eq

theorem Owners.drop (h : Owners kernel c) {a : Accepted}
    (has : ∀ k, Listener.life c.listen k = if a.conn = k then some (.waiting a.fd) else none)
    (connections : c'.connections = c.connections) (slaves : c'.slaves = c.slaves)
    (accepted : c'.accepted = c.accepted) (broadcast : c'.broadcast = c.broadcast)
    (life : ∀ k, Listener.life c'.listen k = none)
    (chosen : ∀ i, Listener.chosen c'.listen ≠ some i) : Owners (closeFd kernel a.fd) c' := by
  obtain ⟨_, unborn⟩ := h.newborn a.conn (.waiting a.fd) (by simp [has])
  have waits : (tableOf c).life a.conn = .waiting a.fd := by simp [tableOf, ClipTable.life, has]
  have table : tableOf c' = (tableOf c).setLife a.conn .absent := by
    simp only [tableOf, connections, Table.setLife, Table.mk.injEq, true_and]
    funext k
    by_cases eq : k = a.conn
    · subst eq
      simp [ClipTable.life, life, slaves, Slave.life, unborn]
    · simp [ClipTable.life, life, has, slaves, eq, Ne.symm eq]
  refine ⟨?_, ?_, ?_, ?_, ?_, ?_, ?_⟩
  · rw [table]
    exact h.table.drop conn_injective waits
  · intro k l mine
    rw [life k] at mine
    cases mine
  · rw [accepted, slaves]
    exact h.fresh
  · rw [slaves, connections]
    exact h.sock
  · rw [slaves, connections]
    exact h.taken
  · intro i mine
    exact absurd mine (chosen i)
  · rw [broadcast, connections]
    exact h.sending

theorem Inv.reject (h : Inv kernel c) {a : Accepted} (pc : c.listen = .reject a) :
    Inv (closeFd kernel a.fd) (c.listenGoto .unlock) := by
  have has : Listener.holdsInterface c.listen = true := by rw [pc]; rfl
  have free := h.not_jammed has
  refine ⟨h.locks.listener rfl rfl (.same ?_ rfl) (fun i => .same ?_ rfl) ?_,
    h.owners.drop (fun k => by rw [pc]; rfl) rfl rfl rfl rfl (fun _ => rfl) (fun _ => nofun), ?_⟩
  · simp [holdsInterface, Clip.listenGoto, pc, Listener.holdsInterface]
  · simp [holdsSlot, Clip.listenGoto, pc, Listener.holdsSlot]
  · simp [Clip.listenGoto, free]
  · have counted := h.counted
    simp only [ahead, h.listener_has has, pc] at counted
    simpa [ahead, Clip.listenGoto, h.listener_has has, Listener.ahead, occupied] using counted

theorem Inv.zombie (h : Inv kernel c) {a : Accepted} (pc : c.listen = .zombie a) :
    Inv (closeFd kernel a.fd) { c.listenGoto .accept with jammed := true } := by
  have has : Listener.holdsInterface c.listen = true := by rw [pc]; rfl
  refine ⟨h.locks.listener rfl rfl (.same ?_ rfl) (fun i => .same ?_ rfl) (fun _ => rfl),
    h.owners.drop (fun k => by rw [pc]; rfl) rfl rfl rfl rfl (fun _ => rfl) (fun _ => nofun), ?_⟩
  · simp [holdsInterface, has]
  · simp [holdsSlot, Clip.listenGoto, pc, Listener.holdsSlot]
  · have counted := h.counted
    simp only [ahead, h.listener_has has, pc] at counted
    simpa [ahead, Clip.listenGoto, h.listener_has has, Listener.ahead, occupied] using counted

theorem Inv.count (h : Inv kernel c) {a : Accepted} {i : Slot} (pc : c.listen = .count a i) :
    Inv kernel { c.listenGoto (.store a i) with nConnections := c.nConnections + 1 } := by
  have has : Listener.holdsInterface c.listen = true := by rw [pc]; rfl
  have free := h.not_jammed has
  refine ⟨h.locks.listener rfl rfl (.same ?_ rfl) (fun i => .same ?_ rfl) ?_,
    h.owners.alike (fun _ => rfl) (fun _ => rfl) rfl rfl ?_ ?_ h.owners.sending, ?_⟩
  · simp [holdsInterface, Clip.listenGoto, pc, Listener.holdsInterface]
  · simp [holdsSlot, Clip.listenGoto, pc, Listener.holdsSlot]
  · simp [Clip.listenGoto, free]
  · rw [pc]
    rfl
  · intro j mine
    exact h.owners.chosen j (by rw [pc]; exact mine)
  · have counted := h.counted
    simp only [ahead, h.listener_has has, pc, Listener.ahead, Bool.toNat_false] at counted
    simp [ahead, Clip.listenGoto, h.listener_has has, Listener.ahead, occupied] at counted ⊢
    omega

theorem occupied_set (i : Slot) (x : ClipConnection)
    (connections : c'.connections = Function.update c.connections i x) :
    occupied c' + (decide (0 < (c.connections i).sockFd)).toNat =
      occupied c + (decide (0 < x.sockFd)).toNat := by
  have moved := count_update (fun x => decide (0 < x.sockFd)) c.connections i x
  rw [← connections] at moved
  exact moved

theorem exists_free (room : occupied c < maxClipboards) : ∃ i, (c.connections i).sockFd = 0 := by
  by_contra none
  rw [not_exists] at none
  have full : (Finset.univ.filter fun i =>
      decide (0 < (c.connections i).sockFd) = true) = Finset.univ := by
    refine Finset.filter_true_of_mem fun i _ => ?_
    simpa using Nat.pos_of_ne_zero (none i)
  rw [occupied, count_eq_card, full, Finset.card_univ, Fintype.card_fin] at room
  exact Nat.lt_irrefl _ room

theorem Owners.born (h : Owners kernel c) {k : Nat} (born : (c.slaves k).pc ≠ .unborn) :
    Listener.life c.listen k = none := by
  cases hl : Listener.life c.listen k with
  | none => rfl
  | some l => exact absurd (h.newborn k l hl).2 born

theorem Owners.held (h : Owners kernel c) {k : Nat}
    (runs : Slave.life (c.slaves k) = .held (c.slaves k).index) :
    (tableOf c).life k = .held (c.slaves k).index := by
  have mine : Listener.life c.listen k = none := by
    refine h.born fun unborn => ?_
    simp [Slave.life, unborn] at runs
  simp [tableOf, ClipTable.life, mine, runs]

theorem Owners.nonzero (h : Owners kernel c) {k : Nat}
    (runs : Slave.life (c.slaves k) = .held (c.slaves k).index) :
    (c.connections (c.slaves k).index).sockFd ≠ 0 :=
  h.table.fd_ne_zero (h.table.owner_of_held (h.held runs))

theorem Owners.owner_held (h : Owners kernel c) {i : Slot} {k : Nat}
    (owner : (c.connections i).owner = some k) : (tableOf c).life k = .held i := by
  refine ((h.table.owned i k).mp owner).resolve_right fun stale => ?_
  simp only [tableOf, ClipTable.life] at stale
  cases hl : Listener.life c.listen k with
  | none =>
    rw [hl] at stale
    exact Slave.life_ne_stale (c.slaves k) i stale
  | some l =>
    rw [hl] at stale
    exact Listener.life_ne_stale hl stale

theorem Owners.apart (h : Owners kernel c) {k m : Nat} (ne : m ≠ k)
    (runs : Slave.life (c.slaves k) = .held (c.slaves k).index)
    (other : Slave.life (c.slaves m) = .held (c.slaves m).index) :
    (c.slaves m).index ≠ (c.slaves k).index := by
  intro same
  have owned := h.table.owner_of_held (h.held runs)
  have owned' := h.table.owner_of_held (h.held other)
  rw [same, owned] at owned'
  exact ne (Option.some.inj owned').symm

theorem Owners.store (h : Owners kernel c) {a : Accepted} {i : Slot} {x : ClipConnection}
    (pc : c.listen = .store a i) (fd : x.sockFd = a.fd) (owner : x.owner = some a.conn)
    (connections : c'.connections = Function.update c.connections i x)
    (listen : c'.listen = .unlockSlot a i) (slaves : c'.slaves = c.slaves)
    (accepted : c'.accepted = c.accepted) (broadcast : c'.broadcast = c.broadcast) :
    Owners kernel c' := by
  have zero : (c.connections i).sockFd = 0 := h.chosen i (by rw [pc]; rfl)
  have waits : (tableOf c).life a.conn = .waiting a.fd := by
    simp [tableOf, ClipTable.life, pc, Listener.life]
  have noOwner : (tableOf c).owner i = none := (h.table.zero i).mp zero
  have noStale (k : Nat) (j : Slot) : (tableOf c).life k ≠ .stale j := by
    intro stale
    simp only [tableOf, ClipTable.life, pc, Listener.life] at stale
    split at stale
    · cases stale
    · exact Slave.life_ne_stale (c.slaves k) j stale
  have table : tableOf c' = (tableOf c).register a.conn i a.fd := by
    refine Table.ext_of (fun j => ?_) (fun j => ?_) fun k => ?_
    · by_cases eq : j = i
      · subst eq
        simp [tableOf, Table.register, Table.setSlot, Table.setLife, connections, fd]
      · simp [tableOf, Table.register, Table.setSlot, Table.setLife, connections, eq]
    · by_cases eq : j = i
      · subst eq
        simp [tableOf, Table.register, Table.setSlot, Table.setLife, connections, owner]
      · simp [tableOf, Table.register, Table.setSlot, Table.setLife, connections, eq]
    · by_cases eq : k = a.conn
      · subst eq
        simp [tableOf, Table.register, Table.setLife, ClipTable.life, listen, Listener.life]
      · simp [tableOf, Table.register, Table.setSlot, Table.setLife, ClipTable.life,
          Listener.life, listen, slaves, pc, eq, Ne.symm eq]
  have frame (j : Slot) (occupied : (c.connections j).sockFd ≠ 0) :
      c'.connections j = c.connections j := by
    have apart : j ≠ i := by
      rintro rfl
      exact occupied zero
    rw [connections, Function.update_of_ne apart]
  refine ⟨?_, ?_, ?_, ?_, ?_, ?_, ?_⟩
  · rw [table]
    exact h.table.register conn_injective waits noOwner noStale
  · intro k l mine
    rw [accepted, slaves]
    refine h.newborn k (.waiting a.fd) ?_
    simp only [listen, Listener.life] at mine
    split at mine
    · rename_i eq
      simp [pc, Listener.life, eq]
    · cases mine
  · rw [accepted, slaves]
    exact h.fresh
  · intro k running
    rw [slaves] at running ⊢
    rw [frame _ (h.nonzero (k := k) (by simp [Slave.life, running]))]
    exact h.sock k running
  · intro k taken
    rw [slaves] at taken ⊢
    rw [frame _ (h.nonzero (k := k) (by simp [Slave.life, taken]))]
    exact h.taken k taken
  · intro j mine
    rw [listen] at mine
    cases mine
  · intro j sending
    rw [broadcast] at sending
    have old := h.sending j sending
    rw [frame j (Nat.ne_of_gt old)]
    exact old

theorem Inv.store (h : Inv kernel c) {a : Accepted} {i : Slot} {x : ClipConnection}
    (pc : c.listen = .store a i) (fd : x.sockFd = a.fd) (owner : x.owner = some a.conn)
    (slot : x.lock = (c.connections i).lock)
    (connections : c'.connections = Function.update c.connections i x)
    (listen : c'.listen = .unlockSlot a i)
    (rest : c'.slaves = c.slaves ∧ c'.accepted = c.accepted ∧ c'.broadcast = c.broadcast ∧
      c'.lock = c.lock ∧ c'.jammed = c.jammed ∧ c'.nConnections = c.nConnections) :
    Inv kernel c' := by
  obtain ⟨slaves, accepted, broadcast, lock, jammed, n⟩ := rest
  have has : Listener.holdsInterface c.listen = true := by rw [pc]; rfl
  have mine := h.listener_has has
  have free := h.not_jammed has
  refine ⟨h.locks.listener slaves broadcast (.same ?_ lock) (fun j => .same ?_ ?_) ?_,
    h.owners.store pc fd owner connections listen slaves accepted broadcast, ?_⟩
  · simp [holdsInterface, listen, pc, Listener.holdsInterface]
  · simp [holdsSlot, listen, pc, Listener.holdsSlot]
  · by_cases eq : j = i
    · subst eq
      rw [connections, Function.update_self, slot]
    · rw [connections, Function.update_of_ne eq]
  · rw [jammed, free]
    simp
  · have zero : (c.connections i).sockFd = 0 := h.owners.chosen i (by rw [pc]; rfl)
    have pos : 0 < x.sockFd := by
      rw [fd]
      exact (h.owners.table.waiting a.conn a.fd
        (by simp [tableOf, ClipTable.life, pc, Listener.life])).1
    have moved := occupied_set i x connections
    have before : ahead c = true := by simp [ahead, mine, pc, Listener.ahead]
    have after : ahead c' = false := by simp [ahead, lock, mine, listen, Listener.ahead]
    have counted := h.counted
    simp only [zero, pos, decide_true, Nat.lt_irrefl, decide_false, Bool.toNat_true,
      Bool.toNat_false] at moved
    rw [before, Bool.toNat_true] at counted
    rw [n, after, Bool.toNat_false]
    omega

theorem Inv.create (h : Inv kernel c) {a : Accepted} {i : Slot} (pc : c.listen = .create a i) :
    Inv kernel ((c.setSlave a.conn ⟨i, 0, 0, .start⟩).listenGoto .unlock) := by
  have has : Listener.holdsInterface c.listen = true := by rw [pc]; rfl
  have mine := h.listener_has has
  obtain ⟨below, unborn⟩ := h.owners.newborn a.conn (.held i) (by simp [pc, Listener.life])
  generalize eq : (c.setSlave a.conn ⟨i, 0, 0, .start⟩).listenGoto .unlock = c'
  have slaves : c'.slaves = Function.update c.slaves a.conn ⟨i, 0, 0, .start⟩ := by rw [← eq]; rfl
  have listen : c'.listen = .unlock := by rw [← eq]; rfl
  have same : c'.connections = c.connections ∧ c'.accepted = c.accepted ∧
      c'.broadcast = c.broadcast ∧ c'.lock = c.lock ∧ c'.jammed = c.jammed ∧
      c'.nConnections = c.nConnections := by
    rw [← eq]
    exact ⟨rfl, rfl, rfl, rfl, rfl, rfl⟩
  obtain ⟨connections, accepted, broadcast, lock, jammed, n⟩ := same
  have table : tableOf c' = tableOf c := by
    refine Table.ext_of (fun j => ?_) (fun j => ?_) fun k => ?_
    · simp only [tableOf, connections]
    · simp only [tableOf, connections]
    · by_cases eq : k = a.conn
      · subst eq
        simp [tableOf, life, listen, slaves, pc, Listener.life, Slave.life]
      · simp [tableOf, life, listen, slaves, pc, Listener.life, eq, Ne.symm eq]
  refine ⟨⟨?_, ?_, ?_⟩, ⟨?_, ?_, ?_, ?_, ?_, ?_, ?_⟩, ?_⟩
  · rw [lock]
    refine h.locks.interface.same fun t => ?_
    cases t with
    | listener => simp [holdsInterface, listen, pc, Listener.holdsInterface]
    | broadcaster => rfl
    | slave k =>
      by_cases eq : k = a.conn
      · subst eq
        simp [holdsInterface, slaves, unborn, Slave.holdsInterface]
      · simp [holdsInterface, slaves, eq]
  · intro j
    rw [connections]
    refine (h.locks.slots j).same fun t => ?_
    cases t with
    | listener => simp [holdsSlot, listen, pc, Listener.holdsSlot]
    | broadcaster => simp only [holdsSlot, broadcast]
    | slave k =>
      by_cases eq : k = a.conn
      · subst eq
        simp [holdsSlot, slaves, unborn, Slave.holdsSlot]
      · simp [holdsSlot, slaves, eq]
  · rw [jammed, h.not_jammed has]
    simp
  · rw [table]
    exact h.owners.table
  · intro k l none
    rw [listen] at none
    cases none
  · intro k above
    rw [accepted] at above
    have apart : k ≠ a.conn := by omega
    rw [slaves, Function.update_of_ne apart]
    exact h.owners.fresh k above
  · intro k running
    rw [slaves] at running ⊢
    by_cases eq : k = a.conn
    · subst eq
      rw [Function.update_self] at running
      cases running
    · rw [Function.update_of_ne eq] at running ⊢
      rw [connections]
      exact h.owners.sock k running
  · intro k taken
    rw [slaves] at taken ⊢
    by_cases eq : k = a.conn
    · subst eq
      rw [Function.update_self] at taken
      cases taken
    · rw [Function.update_of_ne eq] at taken ⊢
      rw [connections]
      exact h.owners.taken k taken
  · intro j none
    rw [listen] at none
    cases none
  · rw [broadcast, connections]
    exact h.owners.sending
  · have counted := h.counted
    have before : ahead c = false := by simp [ahead, mine, pc, Listener.ahead]
    have after : ahead c' = false := by simp [ahead, lock, mine, listen, Listener.ahead]
    have same : occupied c' = occupied c := occupied_same fun j => by rw [connections]
    rw [before] at counted
    rw [n, same, after]
    exact counted

theorem Inv.listenLock (h : Inv kernel c) {a : Option Accepted} (pc : c.listen = .lock a)
    (free : c.lock = none) :
    Inv kernel { c.listenGoto (.check a) with lock := some .listener } := by
  have open_ : c.jammed = false := by
    have := (free ▸ h.locks.interface : Held (holdsInterface c) none).free .listener
    simp only [holdsInterface, Bool.or_eq_false_iff] at this
    exact this.1
  refine ⟨h.locks.listener rfl rfl (.take free ?_ rfl) (fun i => .same ?_ rfl) ?_,
    h.owners.alike (fun _ => rfl) (fun _ => rfl) rfl rfl ?_ (fun _ => nofun) h.owners.sending, ?_⟩
  · simp [holdsInterface, Clip.listenGoto, Listener.holdsInterface]
  · simp [holdsSlot, Clip.listenGoto, pc, Listener.holdsSlot]
  · simp [Clip.listenGoto, open_]
  · rw [pc]
    cases a <;> rfl
  · have counted := h.counted
    simpa [ahead, free, Clip.listenGoto, Listener.ahead, occupied] using counted

theorem Inv.listenUnlock (h : Inv kernel c) (pc : c.listen = .unlock) :
    Inv kernel { c.listenGoto .accept with lock := none } := by
  have has : Listener.holdsInterface c.listen = true := by rw [pc]; rfl
  have mine := h.listener_has has
  refine ⟨h.locks.listener rfl rfl (.release ?_ ?_ rfl) (fun i => .same ?_ rfl) (fun _ => rfl),
    h.owners.alike (fun _ => rfl) (fun _ => rfl) rfl rfl ?_ (fun _ => nofun) h.owners.sending, ?_⟩
  · simp [holdsInterface, has]
  · simp [holdsInterface, Clip.listenGoto, h.not_jammed has, Listener.holdsInterface]
  · simp [holdsSlot, Clip.listenGoto, pc, Listener.holdsSlot]
  · rw [pc]
    rfl
  · have counted := h.counted
    simpa [ahead, mine, pc, Clip.listenGoto, Listener.ahead, occupied] using counted

theorem setLock_fd (i j : Slot) (t : Option ClipThread) :
    (((c.setSlot i { c.connections i with lock := t }).connections j).sockFd =
      (c.connections j).sockFd) ∧
    (((c.setSlot i { c.connections i with lock := t }).connections j).owner =
      (c.connections j).owner) := by
  by_cases eq : j = i
  · subst eq
    simp [Clip.setSlot]
  · simp [Clip.setSlot, eq]

theorem setLock_lock (i j : Slot) (t : Option ClipThread) :
    ((c.setSlot i { c.connections i with lock := t }).connections j).lock =
      if j = i then t else (c.connections j).lock := by
  by_cases eq : j = i
  · subst eq
    simp [Clip.setSlot]
  · simp [Clip.setSlot, eq]

theorem lockSlot_change {i : Slot} {t : ClipThread} {before after : Slot → Bool}
    (free : (c.connections i).lock = none) (now : after i = true)
    (others : ∀ j, j ≠ i → after j = before j) (j : Slot) :
    Change t (before j) (after j) (c.connections j).lock ((c.lockSlot i t).connections j).lock := by
  by_cases eq : j = i
  · subst eq
    exact .take free now (by rw [Clip.lockSlot, setLock_lock, if_pos rfl])
  · exact .same (others j eq) (by rw [Clip.lockSlot, setLock_lock, if_neg eq])

theorem unlockSlot_change {i : Slot} {t : ClipThread} {before after : Slot → Bool}
    (held : before i = true) (now : after i = false)
    (others : ∀ j, j ≠ i → after j = before j) (j : Slot) :
    Change t (before j) (after j) (c.connections j).lock ((c.unlockSlot i).connections j).lock := by
  by_cases eq : j = i
  · subst eq
    exact .release held now (by rw [Clip.unlockSlot, setLock_lock, if_pos rfl])
  · exact .same (others j eq) (by rw [Clip.unlockSlot, setLock_lock, if_neg eq])

theorem Inv.listen {kernel' : Kernel} (h : Inv kernel c) {greeted : Bool}
    (edge : clipListenStep kernel c greeted = some (kernel', c')) : Inv kernel' c' := by
  unfold clipListenStep at edge
  split at edge
  case h_1 => cases edge
  case h_2 a pc =>
    split at edge
    · rename_i free
      cases edge
      exact h.listenLock pc free
    · cases edge
  case h_3 pc =>
    cases edge
    exact h.listenGoto (by rw [pc]; rfl) rfl (by rw [pc]; rfl) (by rw [pc]; rfl) (fun _ => nofun)
      (by rw [pc]; rfl)
  case h_4 a pc =>
    split at edge <;> cases edge <;>
      exact h.listenGoto (by rw [pc]; rfl) rfl (by rw [pc]; rfl) (by rw [pc]; rfl) (fun _ => nofun)
        (by rw [pc]; rfl)
  case h_5 a pc =>
    split at edge <;> cases edge <;>
      exact h.listenGoto (by rw [pc]; rfl) rfl (by rw [pc]; rfl) (by rw [pc]; rfl) (fun _ => nofun)
        (by rw [pc]; rfl)
  case h_6 a pc =>
    cases edge
    exact h.reject pc
  case h_7 a i pc =>
    split at edge
    · rename_i bound
      split at edge <;> cases edge
      · rename_i free
        refine h.listenMove (by rw [pc]; rfl) rfl (lockSlot_change free ?_ ?_) (by rw [pc]; rfl)
          (fun _ => nofun) (by rw [pc]; rfl) (fun j => (setLock_fd _ j _).1)
          (fun j => (setLock_fd _ j _).2) ⟨rfl, rfl, rfl, rfl, rfl, rfl⟩
        · simp [holdsSlot, Clip.listenGoto, Listener.holdsSlot]
        · intro j apart
          simp [holdsSlot, Clip.listenGoto, pc, Listener.holdsSlot, Ne.symm apart]
      · exact h.listenGoto (by rw [pc]; rfl) rfl (by rw [pc]; rfl) (by rw [pc]; rfl)
          (fun _ => nofun) (by rw [pc]; rfl)
    · cases edge
      exact h.listenGoto (by rw [pc]; rfl) rfl (by rw [pc]; rfl) (by rw [pc]; rfl) (fun _ => nofun)
        (by rw [pc]; rfl)
  case h_8 a i pc =>
    split at edge <;> cases edge
    · rename_i zero
      refine h.listenGoto (by rw [pc]; rfl) rfl (by rw [pc]; rfl) (by rw [pc]; rfl) (fun j mine => ?_)
        (by rw [pc]; rfl)
      obtain rfl : i = j := Option.some.inj mine
      exact zero
    · exact h.listenGoto (by rw [pc]; rfl) rfl (by rw [pc]; rfl) (by rw [pc]; rfl)
        (fun _ => nofun) (by rw [pc]; rfl)
  case h_9 a i pc =>
    cases edge
    refine h.listenMove (by rw [pc]; rfl) rfl (unlockSlot_change (i := i) ?_ ?_ ?_) (by rw [pc]; rfl)
      (fun _ => nofun) (by rw [pc]; rfl) (fun j => (setLock_fd _ j _).1)
      (fun j => (setLock_fd _ j _).2) ⟨rfl, rfl, rfl, rfl, rfl, rfl⟩
    · simp [holdsSlot, pc, Listener.holdsSlot]
    · simp [holdsSlot, Clip.listenGoto, Listener.holdsSlot]
    · intro j apart
      simp [holdsSlot, Clip.listenGoto, pc, Listener.holdsSlot, Ne.symm apart]
  case h_10 a pc =>
    cases edge
    exact h.zombie pc
  case h_11 a i pc =>
    cases edge
    exact h.count pc
  case h_12 a i pc =>
    cases edge
    exact h.store (x := { c.connections i with sockFd := a.fd, owner := some a.conn }) pc rfl rfl
      rfl rfl rfl ⟨rfl, rfl, rfl, rfl, rfl, rfl⟩
  case h_13 a i pc =>
    cases edge
    refine h.listenMove (by rw [pc]; rfl) rfl (unlockSlot_change (i := i) ?_ ?_ ?_) (by rw [pc]; rfl)
      (fun _ => nofun) (by rw [pc]; rfl) (fun j => (setLock_fd _ j _).1)
      (fun j => (setLock_fd _ j _).2) ⟨rfl, rfl, rfl, rfl, rfl, rfl⟩
    · simp [holdsSlot, pc, Listener.holdsSlot]
    · simp [holdsSlot, Clip.listenGoto, Listener.holdsSlot]
    · intro j apart
      simp [holdsSlot, Clip.listenGoto, pc, Listener.holdsSlot, Ne.symm apart]
  case h_14 a i pc =>
    cases edge
    exact h.create pc
  case h_15 pc =>
    cases edge
    exact h.listenUnlock pc

theorem Inv.accept {kernel' : Kernel} {fd : Option Fd} (h : Inv kernel c)
    (pc : c.listen = .accept) (opened : acceptFd kernel (.clip c.accepted) fd = some kernel') :
    Inv kernel' { c with
      accepted := c.accepted + 1
      listen := .lock (fd.map fun fd => ⟨fd, c.accepted⟩) } := by
  have unborn : (c.slaves c.accepted).pc = .unborn := h.owners.fresh _ (Nat.le_refl _)
  have absent : (tableOf c).life c.accepted = .absent := by
    simp [tableOf, life, pc, Listener.life, Slave.life, unborn]
  generalize eq : ({ c with
      accepted := c.accepted + 1
      listen := .lock (fd.map fun fd => ⟨fd, c.accepted⟩) } : Clip) = c'
  have listen : c'.listen = .lock (fd.map fun fd => ⟨fd, c.accepted⟩) := by rw [← eq]
  have same : c'.connections = c.connections ∧ c'.slaves = c.slaves ∧
      c'.broadcast = c.broadcast ∧ c'.lock = c.lock ∧ c'.jammed = c.jammed ∧
      c'.nConnections = c.nConnections := by
    rw [← eq]
    exact ⟨rfl, rfl, rfl, rfl, rfl, rfl⟩
  have accepted : c'.accepted = c.accepted + 1 := by rw [← eq]
  obtain ⟨connections, slaves, broadcast, lock, jammed, n⟩ := same
  have table : Consistent kernel' Conn.clip (tableOf c') := by
    cases fd with
    | none =>
      obtain rfl : kernel = kernel' := by simpa [acceptFd] using opened
      have same : tableOf c' = tableOf c := by
        refine Table.ext_of (fun j => ?_) (fun j => ?_) fun k => ?_
        · simp only [tableOf, connections]
        · simp only [tableOf, connections]
        · simp [tableOf, life, listen, slaves, pc, Listener.life]
      rw [same]
      exact h.owners.table
    | some f =>
      simp only [acceptFd, Option.ite_none_right_eq_some, Option.some.injEq] at opened
      obtain ⟨⟨pos, closed⟩, rfl⟩ := opened
      have waits : tableOf c' = (tableOf c).setLife c.accepted (.waiting f) := by
        refine Table.ext_of (fun j => ?_) (fun j => ?_) fun k => ?_
        · simp only [tableOf, Table.setLife, connections]
        · simp only [tableOf, Table.setLife, connections]
        · by_cases eq : k = c.accepted
          · subst eq
            simp [tableOf, Table.setLife, life, listen, Listener.life]
          · simp [tableOf, Table.setLife, life, listen, slaves, pc, Listener.life, eq, Ne.symm eq]
      rw [waits]
      exact h.owners.table.accept absent pos closed
  refine ⟨h.locks.listener slaves broadcast (.same ?_ lock) (fun i => .same ?_ ?_) (fun _ => ?_),
    ⟨table, fun k l mine => ?_, fun k above => ?_, ?_, ?_, ?_, ?_⟩, ?_⟩
  · simp [holdsInterface, listen, pc, Listener.holdsInterface, jammed]
  · simp [holdsSlot, listen, pc, Listener.holdsSlot]
  · rw [connections]
  · rw [listen]
    rfl
  · rw [slaves, accepted]
    have eq : k = c.accepted := by
      rw [listen] at mine
      cases fd with
      | none => cases mine
      | some f =>
        simp only [Option.map_some, Listener.life] at mine
        split at mine
        · rename_i eq
          exact eq.symm
        · cases mine
    subst eq
    exact ⟨Nat.lt_succ_self _, unborn⟩
  · rw [accepted] at above
    rw [slaves]
    exact h.owners.fresh k (by omega)
  · rw [slaves, connections]
    exact h.owners.sock
  · rw [slaves, connections]
    exact h.owners.taken
  · intro i none
    rw [listen] at none
    cases none
  · rw [broadcast, connections]
    exact h.owners.sending
  · have counted := h.counted
    have same : occupied c' = occupied c := occupied_same fun j => by rw [connections]
    have ahead : ClipTable.ahead c' = ClipTable.ahead c := by
      simp only [ClipTable.ahead, lock, listen, pc, Listener.ahead, slaves]
    rw [n, same, ahead]
    exact counted

end Listen

section Slaves

variable {kernel : Kernel} {c c' : Clip} {k : Nat}

theorem Inv.slaveMove (h : Inv kernel c) {x : Tables.Slave}
    (born : (c.slaves k).pc ≠ .unborn) (life : Slave.life x = Slave.life (c.slaves k))
    (sock : x.pc = .running → x.sock = (c.connections x.index).sockFd)
    (taken : x.pc = .clear → x.sock_ = (c.connections x.index).sockFd)
    (interface : Change (.slave k) (Slave.holdsInterface (c.slaves k).pc)
      (Slave.holdsInterface x.pc) c.lock c'.lock)
    (slots : ∀ i, Change (.slave k)
      (Slave.holdsSlot (c.slaves k).pc && (c.slaves k).index = i)
      (Slave.holdsSlot x.pc && x.index = i) (c.connections i).lock (c'.connections i).lock)
    (fd : ∀ i, (c'.connections i).sockFd = (c.connections i).sockFd)
    (owner : ∀ i, (c'.connections i).owner = (c.connections i).owner)
    (slaves : c'.slaves = Function.update c.slaves k x)
    (counted : c'.nConnections = occupied c + (ahead c').toNat)
    (rest : c'.listen = c.listen ∧ c'.accepted = c.accepted ∧ c'.broadcast = c.broadcast ∧
      c'.jammed = c.jammed) : Inv kernel c' := by
  obtain ⟨listen, accepted, broadcast, jammed⟩ := rest
  refine ⟨h.locks.slave slaves listen broadcast jammed interface slots,
    h.owners.slave fd owner slaves accepted listen broadcast born life sock taken, ?_⟩
  have same : occupied c' = occupied c := occupied_same fd
  rw [same]
  exact counted

theorem ahead_outside (h : Inv kernel c) (x : Tables.Slave)
    (before : Slave.holdsInterface (c.slaves k).pc = false) :
    ahead (c.setSlave k x) = ahead c := by
  cases hl : c.lock with
  | none => simp [ahead, Clip.setSlave, hl]
  | some t =>
    cases t with
    | listener => simp [ahead, Clip.setSlave, hl]
    | broadcaster => simp [ahead, Clip.setSlave, hl]
    | slave m =>
      have busy : Slave.holdsInterface (c.slaves m).pc = true :=
        (h.locks.interface (.slave m)).mpr hl
      have apart : m ≠ k := by
        rintro rfl
        rw [before] at busy
        cases busy
      simp [ahead, Clip.setSlave, hl, apart]

theorem ahead_slave (lock : c.lock = some (.slave k)) : ahead c = Slave.ahead (c.slaves k).pc := by
  unfold ahead
  rw [lock]

theorem Inv.clear (h : Inv kernel c) (pc : (c.slaves k).pc = .clear)
    {i : Slot} (index : (c.slaves k).index = i) {x : ClipConnection} (fd : x.sockFd = 0)
    (owner : x.owner = none) (slot : x.lock = (c.connections i).lock)
    (connections : c'.connections = Function.update c.connections i x)
    (slaves : c'.slaves = Function.update c.slaves k { c.slaves k with pc := .unlockSlot })
    (rest : c'.listen = c.listen ∧ c'.accepted = c.accepted ∧ c'.broadcast = c.broadcast ∧
      c'.lock = c.lock ∧ c'.jammed = c.jammed ∧ c'.nConnections = c.nConnections) :
    Inv kernel c' := by
  obtain ⟨listen, accepted, broadcast, lock, jammed, n⟩ := rest
  subst index
  have sameLock (j : Slot) : (c'.connections j).lock = (c.connections j).lock := by
    by_cases eq : j = (c.slaves k).index
    · rw [connections, eq, Function.update_self, slot]
    · rw [connections, Function.update_of_ne eq]
  have locks : Locks c' := by
    refine h.locks.slave slaves listen broadcast jammed (.same ?_ lock) fun j => .same ?_ (sameLock j)
    · simp [pc, Slave.holdsInterface]
    · simp [pc, Slave.holdsSlot]
  have runs : Slave.life (c.slaves k) = .held (c.slaves k).index := by simp [Slave.life, pc]
  have mine : Listener.life c.listen k = none := h.owners.born (by simp [pc])
  have table : tableOf c' = (tableOf c).clear k (c.slaves k).index := by
    refine Table.ext_of (fun j => ?_) (fun j => ?_) fun m => ?_
    · by_cases eq : j = (c.slaves k).index
      · simp [tableOf, Table.clear, Table.setSlot, Table.setLife, connections, eq, fd]
      · simp [tableOf, Table.clear, Table.setSlot, Table.setLife, connections, eq]
    · by_cases eq : j = (c.slaves k).index
      · simp [tableOf, Table.clear, Table.setSlot, Table.setLife, connections, eq, owner]
      · simp [tableOf, Table.clear, Table.setSlot, Table.setLife, connections, eq]
    · by_cases eq : m = k
      · subst eq
        simp [tableOf, Table.clear, Table.setLife, life, listen, mine, slaves, Slave.life,
          h.owners.taken m pc]
      · simp [tableOf, Table.clear, Table.setSlot, Table.setLife, life, listen, slaves, eq]
  refine ⟨locks, ⟨?_, fun m l new => ?_, fun m above => ?_, fun m running => ?_, fun m taken => ?_,
    fun j chosen => ?_, fun j sending => ?_⟩, ?_⟩
  · rw [table]
    exact h.owners.table.clear (h.owners.held runs)
  · have ne : m ≠ k := by
      rintro rfl
      simp [listen, mine] at new
    rw [listen] at new
    rw [accepted, slaves, Function.update_of_ne ne]
    exact h.owners.newborn m l new
  · rw [accepted] at above
    have ne : m ≠ k := by
      rintro rfl
      rw [h.owners.fresh m above] at pc
      cases pc
    rw [slaves, Function.update_of_ne ne]
    exact h.owners.fresh m above
  · have ne : m ≠ k := by
      rintro rfl
      simp [slaves] at running
    rw [slaves, Function.update_of_ne ne] at running ⊢
    rw [connections, Function.update_of_ne (h.owners.apart ne runs (by simp [Slave.life, running]))]
    exact h.owners.sock m running
  · have ne : m ≠ k := by
      rintro rfl
      simp [slaves] at taken
    rw [slaves, Function.update_of_ne ne] at taken ⊢
    rw [connections, Function.update_of_ne (h.owners.apart ne runs (by simp [Slave.life, taken]))]
    exact h.owners.taken m taken
  · rw [listen] at chosen
    by_cases eq : j = (c.slaves k).index
    · rw [connections, eq, Function.update_self, fd]
    · rw [connections, Function.update_of_ne eq]
      exact h.owners.chosen j chosen
  · rw [broadcast] at sending
    have ne : j ≠ (c.slaves k).index := by
      rintro rfl
      -- the slave holds the lock of the slot the broadcaster would be writing to
      have writes : holdsSlot c (c.slaves k).index .broadcaster = true := by
        cases hb : c.broadcast <;> simp [hb, Broadcaster.sending] at sending
        simp [holdsSlot, hb, Broadcaster.holdsSlot, sending]
      have clears : holdsSlot c (c.slaves k).index (.slave k) = true := by
        simp [holdsSlot, pc, Slave.holdsSlot]
      cases (h.locks.slots _).unique writes clears
    rw [connections, Function.update_of_ne ne]
    exact h.owners.sending j sending
  · have counted := h.counted
    have busy := h.slave_has (k := k) (by rw [pc]; rfl)
    have pos : 0 < (c.connections (c.slaves k).index).sockFd :=
      Nat.pos_of_ne_zero (h.owners.nonzero runs)
    have moved := occupied_set (c.slaves k).index x connections
    have before : ahead c = false := by rw [ahead_slave busy, pc]; rfl
    have after : ahead c' = true := by
      rw [ahead_slave (lock.trans busy), slaves, Function.update_self]
      rfl
    simp only [fd, pos, decide_true, Nat.lt_irrefl, decide_false, Bool.toNat_true,
      Bool.toNat_false] at moved
    rw [before, Bool.toNat_false] at counted
    rw [n, after, Bool.toNat_true]
    omega

theorem Inv.close (h : Inv kernel c) (pc : (c.slaves k).pc = .close) :
    Inv (closeFd kernel (c.slaves k).sock_) (c.slaveGoto k .parent) := by
  have busy := h.slave_has (k := k) (by rw [pc]; rfl)
  have mine : Listener.life c.listen k = none := h.owners.born (by simp [pc])
  have cleared : (tableOf c).life k = .cleared (c.slaves k).sock_ := by
    simp [tableOf, life, mine, Slave.life, pc]
  have table : tableOf (c.slaveGoto k .parent) = (tableOf c).setLife k .absent := by
    refine Table.ext_of (fun j => rfl) (fun j => rfl) fun m => ?_
    by_cases eq : m = k
    · subst eq
      simp [tableOf, Table.setLife, life, Clip.slaveGoto, Clip.setSlave, mine, Slave.life]
    · simp [tableOf, Table.setLife, life, Clip.slaveGoto, Clip.setSlave, eq]
  have other (m : Nat) (ne : m ≠ k) : (c.slaveGoto k .parent).slaves m = c.slaves m := by
    simp [Clip.slaveGoto, Clip.setSlave, ne]
  refine ⟨h.locks.slave rfl rfl rfl rfl (.same ?_ rfl) (fun j => .same ?_ rfl),
    ⟨?_, fun m l new => ?_, fun m above => ?_, fun m running => ?_, fun m taken => ?_,
      h.owners.chosen, h.owners.sending⟩, ?_⟩
  · simp [pc, Slave.holdsInterface]
  · simp [pc, Slave.holdsSlot]
  · rw [table]
    exact h.owners.table.close conn_injective cleared
  · have ne : m ≠ k := by
      rintro rfl
      change Listener.life c.listen m = some l at new
      rw [mine] at new
      cases new
    rw [other m ne]
    exact h.owners.newborn m l new
  · have ne : m ≠ k := by
      rintro rfl
      rw [h.owners.fresh m above] at pc
      cases pc
    rw [other m ne]
    exact h.owners.fresh m above
  · have ne : m ≠ k := by
      rintro rfl
      simp [Clip.slaveGoto, Clip.setSlave] at running
    rw [other m ne] at running ⊢
    exact h.owners.sock m running
  · have ne : m ≠ k := by
      rintro rfl
      simp [Clip.slaveGoto, Clip.setSlave] at taken
    rw [other m ne] at taken ⊢
    exact h.owners.taken m taken
  · have counted := h.counted
    have before : ahead c = true := by simp [ahead, busy, pc, Slave.ahead]
    have after : ahead (c.slaveGoto k .parent) = true := by
      simp [ahead, Clip.slaveGoto, Clip.setSlave, busy, Slave.ahead]
    rw [before] at counted
    rw [after]
    exact counted

theorem Inv.slaveGoto (h : Inv kernel c) (pc : SlavePc) (born : (c.slaves k).pc ≠ .unborn)
    (life : Slave.life { c.slaves k with pc := pc } = Slave.life (c.slaves k))
    (quiet : pc ≠ .running ∧ pc ≠ .clear)
    (interface : Change (.slave k) (Slave.holdsInterface (c.slaves k).pc)
      (Slave.holdsInterface pc) c.lock c'.lock)
    (slots : ∀ i, Change (.slave k)
      (Slave.holdsSlot (c.slaves k).pc && (c.slaves k).index = i)
      (Slave.holdsSlot pc && (c.slaves k).index = i) (c.connections i).lock (c'.connections i).lock)
    (fd : ∀ i, (c'.connections i).sockFd = (c.connections i).sockFd)
    (owner : ∀ i, (c'.connections i).owner = (c.connections i).owner)
    (slaves : c'.slaves = Function.update c.slaves k { c.slaves k with pc := pc })
    (counted : c'.nConnections = occupied c + (ahead c').toNat)
    (rest : c'.listen = c.listen ∧ c'.accepted = c.accepted ∧ c'.broadcast = c.broadcast ∧
      c'.jammed = c.jammed) : Inv kernel c' :=
  h.slaveMove born life (fun running => absurd running quiet.1) (fun clear => absurd clear quiet.2)
    interface slots fd owner slaves counted rest

theorem Inv.slave {kernel' : Kernel} {act : SlaveAct} {packets : List Broadcast}
    (h : Inv kernel c) (edge : clipSlaveStep kernel c k act = some (kernel', c', packets)) :
    Inv kernel' c' := by
  have counted := h.counted
  unfold clipSlaveStep at edge
  simp only at edge
  split at edge
  case h_1 pc =>
    cases edge
    refine h.slaveMove (k := k)
      (x := { c.slaves k with sock := (c.connections (c.slaves k).index).sockFd, pc := .running })
      (by simp [pc]) (by simp [Slave.life, pc]) (fun _ => rfl) (by simp)
      (.same (by simp [pc, Slave.holdsInterface]) rfl)
      (fun i => .same (by simp [pc, Slave.holdsSlot]) rfl) (fun _ => rfl) (fun _ => rfl) rfl ?_
      ⟨rfl, rfl, rfl, rfl⟩
    rw [ahead_outside h _ (by rw [pc]; rfl)]
    exact counted
  case h_2 pc =>
    cases edge
    exact h
  case h_3 pc =>
    cases edge
    refine h.slaveGoto (k := k) .lock (by simp [pc]) (by simp [Slave.life, pc]) (by simp)
      (.same (by simp [pc, Slave.holdsInterface]) rfl)
      (fun i => .same (by simp [pc, Slave.holdsSlot]) rfl) (fun _ => rfl) (fun _ => rfl) rfl ?_
      ⟨rfl, rfl, rfl, rfl⟩
    rw [Clip.slaveGoto, ahead_outside h _ (by rw [pc]; rfl)]
    exact counted
  case h_4 pc =>
    split at edge
    · rename_i free
      cases edge
      refine h.slaveGoto (k := k) .lockSlot (by simp [pc]) (by simp [Slave.life, pc])
        (by simp) (.take free rfl rfl) (fun i => .same (by simp [pc, Slave.holdsSlot]) rfl)
        (fun _ => rfl) (fun _ => rfl) rfl ?_ ⟨rfl, rfl, rfl, rfl⟩
      have before : ahead c = false := by simp [ahead, free]
      rw [before] at counted
      simpa [ahead, Clip.slaveGoto, Clip.setSlave, Slave.ahead] using counted
    · cases edge
  case h_5 pc =>
    split at edge
    · rename_i free
      cases edge
      have busy := h.slave_has (k := k) (by rw [pc]; rfl)
      refine h.slaveGoto (k := k) .take (by simp [pc]) (by simp [Slave.life, pc]) (by simp)
        (.same (by simp [pc, Slave.holdsInterface]) rfl) (lockSlot_change free ?_ ?_)
        (fun j => (setLock_fd _ j _).1) (fun j => (setLock_fd _ j _).2) rfl ?_ ⟨rfl, rfl, rfl, rfl⟩
      · simp [Slave.holdsSlot]
      · intro j apart
        simp [pc, Slave.holdsSlot, Ne.symm apart]
      · rw [ahead_slave busy, pc] at counted
        simpa [ahead, busy, Clip.slaveGoto, Clip.setSlave, Clip.lockSlot, Clip.setSlot,
          Slave.ahead] using counted
    · cases edge
  case h_6 pc =>
    cases edge
    have busy := h.slave_has (k := k) (by rw [pc]; rfl)
    refine h.slaveMove (k := k)
      (x := { c.slaves k with sock_ := (c.connections (c.slaves k).index).sockFd, pc := .clear })
      (by simp [pc]) (by simp [Slave.life, pc]) (by simp) (fun _ => rfl)
      (.same (by simp [pc, Slave.holdsInterface]) rfl)
      (fun i => .same (by simp [pc, Slave.holdsSlot]) rfl) (fun _ => rfl) (fun _ => rfl) rfl ?_
      ⟨rfl, rfl, rfl, rfl⟩
    rw [ahead_slave busy, pc] at counted
    simpa [ahead, busy, Clip.setSlave, Slave.ahead] using counted
  case h_7 pc =>
    cases edge
    exact h.clear (x := { c.connections (c.slaves k).index with sockFd := 0, owner := none }) pc
      rfl rfl rfl rfl rfl rfl ⟨rfl, rfl, rfl, rfl, rfl, rfl⟩
  case h_8 pc =>
    cases edge
    have busy := h.slave_has (k := k) (by rw [pc]; rfl)
    refine h.slaveGoto (k := k) .close (by simp [pc]) (by simp [Slave.life, pc]) (by simp)
      (.same (by simp [pc, Slave.holdsInterface]) rfl)
      (unlockSlot_change (i := (c.slaves k).index) ?_ ?_ ?_)
      (fun j => (setLock_fd _ j _).1) (fun j => (setLock_fd _ j _).2) rfl ?_ ⟨rfl, rfl, rfl, rfl⟩
    · simp [pc, Slave.holdsSlot]
    · simp [Slave.holdsSlot]
    · intro j apart
      simp [pc, Slave.holdsSlot, Ne.symm apart]
    · rw [ahead_slave busy, pc] at counted
      simpa [ahead, busy, Clip.slaveGoto, Clip.setSlave, Clip.unlockSlot, Clip.setSlot,
        Slave.ahead] using counted
  case h_9 pc =>
    cases edge
    exact h.close pc
  case h_10 pc =>
    have busy := h.slave_has (k := k) (by rw [pc]; rfl)
    rw [ahead_slave busy, pc] at counted
    split at edge <;> cases edge <;>
      exact h.slaveGoto (k := k) .count (by simp [pc]) (by simp [Slave.life, pc]) (by simp)
        (.same (by simp [pc, Slave.holdsInterface]) rfl)
        (fun i => .same (by simp [pc, Slave.holdsSlot]) rfl) (fun _ => rfl) (fun _ => rfl) rfl
        (by simpa [ahead, Clip.slaveGoto, Clip.setSlave, busy, Slave.ahead] using counted)
        ⟨rfl, rfl, rfl, rfl⟩
  case h_11 pc =>
    cases edge
    have busy := h.slave_has (k := k) (by rw [pc]; rfl)
    refine h.slaveGoto (k := k) .unlock (by simp [pc]) (by simp [Slave.life, pc]) (by simp)
      (.same (by simp [pc, Slave.holdsInterface]) rfl)
      (fun i => .same (by simp [pc, Slave.holdsSlot]) rfl) (fun _ => rfl) (fun _ => rfl) rfl ?_
      ⟨rfl, rfl, rfl, rfl⟩
    rw [ahead_slave busy, pc] at counted
    simp only [Slave.ahead, Bool.toNat_true] at counted
    simp only [ahead, Clip.slaveGoto, Clip.setSlave, busy, Function.update_self, Slave.ahead,
      Bool.toNat_false]
    omega
  case h_12 pc =>
    cases edge
    have busy := h.slave_has (k := k) (by rw [pc]; rfl)
    refine h.slaveGoto (k := k) .finished (by simp [pc]) (by simp [Slave.life, pc]) (by simp)
      (.release (by rw [pc]; rfl) rfl rfl)
      (fun i => .same (by simp [pc, Slave.holdsSlot]) rfl) (fun _ => rfl) (fun _ => rfl) rfl ?_
      ⟨rfl, rfl, rfl, rfl⟩
    rw [ahead_slave busy, pc] at counted
    simpa [ahead, Clip.slaveGoto, Clip.setSlave, Slave.ahead] using counted
  case h_13 => cases edge

end Slaves

section Broadcast

variable {kernel : Kernel} {c c' : Clip}

theorem Inv.broadcastMove (h : Inv kernel c)
    (slots : ∀ i, Change .broadcaster (holdsSlot c i .broadcaster) (holdsSlot c' i .broadcaster)
      (c.connections i).lock (c'.connections i).lock)
    (sending : ∀ i, Broadcaster.sending c'.broadcast = some i → 0 < (c.connections i).sockFd)
    (fd : ∀ i, (c'.connections i).sockFd = (c.connections i).sockFd)
    (owner : ∀ i, (c'.connections i).owner = (c.connections i).owner)
    (rest : c'.slaves = c.slaves ∧ c'.accepted = c.accepted ∧ c'.listen = c.listen ∧
      c'.lock = c.lock ∧ c'.jammed = c.jammed ∧ c'.nConnections = c.nConnections) :
    Inv kernel c' := by
  obtain ⟨slaves, accepted, listen, lock, jammed, n⟩ := rest
  refine ⟨h.locks.broadcaster slaves listen jammed lock slots,
    h.owners.alike fd owner slaves accepted (by rw [listen]) ?_ sending, ?_⟩
  · rw [listen]
    exact h.owners.chosen
  · have same : ahead c' = ahead c := by simp only [ahead, lock, listen, slaves]
    rw [n, occupied_same fd, same]
    exact h.counted

theorem Inv.broadcast {queue queue' : List Broadcast} (h : Inv kernel c)
    (edge : broadcastStep c queue = some (c', queue')) : Inv kernel c' := by
  unfold broadcastStep at edge
  split at edge
  case h_1 pc =>
    split at edge <;> cases edge
    exact h.broadcastMove
      (fun i => .same (by simp [holdsSlot, Clip.broadcastGoto, pc, Broadcaster.holdsSlot]) rfl)
      (fun _ => nofun) (fun _ => rfl) (fun _ => rfl) ⟨rfl, rfl, rfl, rfl, rfl, rfl⟩
  case h_2 r i pc =>
    split at edge
    · split at edge <;> cases edge
      rename_i free
      refine h.broadcastMove (lockSlot_change free ?_ ?_) (fun _ => nofun)
        (fun j => (setLock_fd _ j _).1) (fun j => (setLock_fd _ j _).2)
        ⟨rfl, rfl, rfl, rfl, rfl, rfl⟩
      · simp [holdsSlot, Clip.broadcastGoto, Broadcaster.holdsSlot]
      · intro j apart
        simp [holdsSlot, Clip.broadcastGoto, pc, Broadcaster.holdsSlot, Ne.symm apart]
    · cases edge
      exact h.broadcastMove
        (fun i => .same (by simp [holdsSlot, Clip.broadcastGoto, pc, Broadcaster.holdsSlot]) rfl)
        (fun _ => nofun) (fun _ => rfl) (fun _ => rfl) ⟨rfl, rfl, rfl, rfl, rfl, rfl⟩
  case h_3 r i pc =>
    split at edge <;> cases edge
    · rename_i registered
      refine h.broadcastMove
        (fun j => .same (by simp [holdsSlot, Clip.broadcastGoto, pc, Broadcaster.holdsSlot]) rfl)
        (fun j sending => ?_) (fun _ => rfl) (fun _ => rfl) ⟨rfl, rfl, rfl, rfl, rfl, rfl⟩
      obtain rfl : i = j := Option.some.inj sending
      exact registered.1
    · exact h.broadcastMove
        (fun j => .same (by simp [holdsSlot, Clip.broadcastGoto, pc, Broadcaster.holdsSlot]) rfl)
        (fun _ => nofun) (fun _ => rfl) (fun _ => rfl) ⟨rfl, rfl, rfl, rfl, rfl, rfl⟩
  case h_4 r i pc =>
    cases edge
    exact h.broadcastMove
      (fun j => .same (by simp [holdsSlot, Clip.broadcastGoto, pc, Broadcaster.holdsSlot]) rfl)
      (fun _ => nofun) (fun _ => rfl) (fun _ => rfl) ⟨rfl, rfl, rfl, rfl, rfl, rfl⟩
  case h_5 r i pc =>
    cases edge
    refine h.broadcastMove (unlockSlot_change (i := i) ?_ ?_ ?_) (fun _ => nofun)
      (fun j => (setLock_fd _ j _).1) (fun j => (setLock_fd _ j _).2)
      ⟨rfl, rfl, rfl, rfl, rfl, rfl⟩
    · simp [holdsSlot, pc, Broadcaster.holdsSlot]
    · simp [holdsSlot, Clip.broadcastGoto, Broadcaster.holdsSlot]
    · intro j apart
      simp [holdsSlot, Clip.broadcastGoto, pc, Broadcaster.holdsSlot, Ne.symm apart]

end Broadcast

theorem Inv.other {kernel kernel' : Kernel} {c : Clip} (h : Inv kernel c)
    (keeps : ∀ f k, kernel f = some (.clip k) → kernel' f = some (.clip k)) : Inv kernel' c :=
  { h with
    owners := { h.owners with table := h.owners.table.other fun f k _ => keeps f k } }

section Init

variable {parent : Fd}

theorem clipInit_consistent :
    Consistent (fun fd => if parent ≠ 0 ∧ fd = parent then some (.clip 0) else none) Conn.clip
      (tableOf (clipInit parent)) := by
  by_cases alone : parent = 0
  · have empty : tableOf (clipInit parent) = .empty := by
      refine Table.ext_of (fun i => ?_) (fun i => ?_) fun k => ?_
      · simp [tableOf, clipInit, Table.empty, alone]
      · simp [tableOf, clipInit, Table.empty, alone]
      · simp [tableOf, life, clipInit, Listener.life, Slave.life, Table.empty, alone]
    rw [empty]
    simpa [alone] using Consistent.empty Conn.clip
  · have pos : 0 < parent := Nat.pos_of_ne_zero alone
    have single : tableOf (clipInit parent) =
        (Table.empty.setLife 0 (.waiting parent)).register 0 ⟨0, by decide⟩ parent := by
      refine Table.ext_of (fun i => ?_) (fun i => ?_) fun k => ?_
      · by_cases first : i = ⟨0, by decide⟩
        · simp [tableOf, clipInit, Table.register, Table.setSlot, Table.setLife, alone, first]
        · simp [tableOf, clipInit, Table.register, Table.setSlot, Table.setLife, Table.empty, first]
      · by_cases first : i = ⟨0, by decide⟩
        · simp [tableOf, clipInit, Table.register, Table.setSlot, Table.setLife, alone, first]
        · simp [tableOf, clipInit, Table.register, Table.setSlot, Table.setLife, Table.empty, first]
      · by_cases first : k = 0
        · simp [tableOf, life, clipInit, Listener.life, Slave.life, Table.register, Table.setLife,
            alone, first]
        · simp [tableOf, life, clipInit, Listener.life, Slave.life, Table.register, Table.setSlot,
            Table.setLife, Table.empty, first]
    have waits := (Consistent.empty (S := Slot) Conn.clip).accept (k := 0) rfl pos rfl
    have registered := waits.register (k := 0) (i := ⟨0, by decide⟩) (f := parent) conn_injective
      (by simp [Table.setLife]) rfl fun l j => by
        by_cases first : l = 0 <;> simp [Table.setLife, Table.empty, first]
    rw [single]
    refine registered.other fun f k _ opened => ?_
    by_cases eq : f = parent
    · subst eq
      simpa [alone] using opened
    · simp [eq] at opened

theorem occupied_init : occupied (clipInit parent) = if parent = 0 then 0 else 1 := by
  have only : (clipInit parent).connections = Function.update (clipInit 0).connections
      ⟨0, by decide⟩ ((clipInit parent).connections ⟨0, by decide⟩) := by
    funext i
    by_cases first : i = ⟨0, by decide⟩
    · subst first
      simp
    · simp [clipInit, first]
  have moved := occupied_set ⟨0, by decide⟩ _ only
  have empty : occupied (clipInit 0) = 0 := count_eq_zero_iff.mpr fun i => by simp [clipInit]
  by_cases alone : parent = 0
  · rw [alone, empty, if_pos rfl]
  · have before : ((clipInit 0).connections ⟨0, by decide⟩).sockFd = 0 := by simp [clipInit]
    have after : ((clipInit parent).connections ⟨0, by decide⟩).sockFd = parent := by
      simp [clipInit, alone]
    rw [empty, before, after] at moved
    simpa [alone, Nat.pos_of_ne_zero alone] using moved

theorem Inv.init :
    Inv (fun fd => if parent ≠ 0 ∧ fd = parent then some (.clip 0) else none)
      (clipInit parent) := by
  have young (k : Nat) : ((clipInit parent).slaves k).pc = .unborn ∨
      ((clipInit parent).slaves k).pc = .start := by
    simp only [clipInit]
    split
    · exact .inr rfl
    · exact .inl rfl
  have outside (k : Nat) : Slave.holdsInterface ((clipInit parent).slaves k).pc = false ∧
      Slave.holdsSlot ((clipInit parent).slaves k).pc = false := by
    rcases young k with pc | pc <;> rw [pc] <;> exact ⟨rfl, rfl⟩
  have free (i : Slot) : ((clipInit parent).connections i).lock = none := by
    simp only [clipInit]
    split <;> rfl
  refine ⟨⟨fun t => ?_, fun i t => ?_, fun _ => rfl⟩,
    ⟨clipInit_consistent, fun k l => nofun, fun k above => ?_, fun k pc => ?_, fun k pc => ?_,
      fun i => nofun, fun i => nofun⟩, ?_⟩
  · cases t with
    | listener => simp [holdsInterface, clipInit, Listener.holdsInterface]
    | broadcaster => simp [holdsInterface, clipInit]
    | slave k =>
      rw [holdsInterface, (outside k).1]
      simp [clipInit]
  · rw [free]
    cases t with
    | listener => simp [holdsSlot, clipInit, Listener.holdsSlot]
    | broadcaster => simp [holdsSlot, clipInit, Broadcaster.holdsSlot]
    | slave k =>
      rw [holdsSlot, (outside k).2]
      simp
  · have apart : k ≠ 0 := Nat.ne_of_gt above
    simp [clipInit, apart]
  · rcases young k with old | old <;> rw [old] at pc <;> cases pc
  · rcases young k with old | old <;> rw [old] at pc <;> cases pc
  · have idle : ahead (clipInit parent) = false := rfl
    rw [occupied_init, idle]
    by_cases none : parent = 0 <;> simp [clipInit, none]

end Init

end DistributedClipboard.Interfaces.ClipTable
