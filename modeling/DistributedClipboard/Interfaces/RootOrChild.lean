/- module: DistributedClipboard/Interfaces/RootOrChild
   source: src/src/interfaces/clipif.c
   layer: theorem
   digest: A clipboard is a root with one clock thread or a child of the parent it was given. -/

import DistributedClipboard.Interfaces.ClipChanges
import DistributedClipboard.Interfaces.Connections
import DistributedClipboard.Interfaces.Role

set_option autoImplicit false
set_option relaxedAutoImplicit false

namespace DistributedClipboard.Interfaces.RootOrChild

open DistributedClipboard.Common
open DistributedClipboard.Interfaces.ClipChanges
open DistributedClipboard.Interfaces.Role
open DistributedClipboard.Interfaces.Tables
  (Accepted Slot Fd Kernel Clip ClipListen SlavePc SlaveAct Broadcast)
open DistributedClipboard.Lib.Transition

section Places

def present : SlavePc → Bool
  | .start | .running | .lock | .lockSlot | .take | .clear => true
  | _ => false

def leaving : SlavePc → Bool
  | .unlockSlot | .close | .parent => true
  | _ => false

def comparing : SlavePc → Bool
  | .clear | .unlockSlot | .close | .parent => true
  | _ => false

end Places

/-- The connection with the parent is registered, or its slave is about to find it closed and no
other connection has got its descriptor meanwhile. -/
structure Child (parent : Fd) (c : Clip) : Prop where
  given : parent ≠ 0
  sock : c.parentSock = parent
  place : present (c.slaves 0).pc = true ∧ (c.connections (c.slaves 0).index).sockFd = parent ∨
    leaving (c.slaves 0).pc = true ∧ (c.slaves 0).sock_ = parent ∧
      ∀ j, (c.connections j).sockFd ≠ parent

structure Rooted (parent : Fd) (c : Clip) : Prop where
  place : c.parentSock = -1 ∨ Child parent c
  apart : ∀ k, k ≠ 0 → comparing (c.slaves k).pc = true → ((c.slaves k).sock_ : Int) ≠ c.parentSock

section Steps

variable {parent : Fd} {kernel kernel' : Kernel} {c c' : Clip} {k : Nat}

theorem root_ne (fd : Fd) : (fd : Int) ≠ -1 := by omega

theorem present_owner (inv : ClipTable.Inv kernel c) (pc : present (c.slaves k).pc = true) :
    (c.connections (c.slaves k).index).owner = some k := by
  refine inv.owners.table.owner_of_held (inv.owners.held ?_)
  cases here : (c.slaves k).pc with
  | start | running | lock | lockSlot | take | clear =>
    simp only [ClipTable.Slave.life, here]
  | unborn | unlockSlot | close | parent | count | unlock | finished =>
    rw [here] at pc
    cases pc

theorem present_apart (inv : ClipTable.Inv kernel c) {m : Nat} (other : m ≠ k)
    (mine : present (c.slaves k).pc = true) (theirs : present (c.slaves m).pc = true) :
    (c.connections (c.slaves m).index).sockFd ≠ (c.connections (c.slaves k).index).sockFd := by
  intro same
  have owner := present_owner inv mine
  have owner' := present_owner inv theirs
  have nonzero := inv.owners.table.fd_ne_zero owner'
  have slots := inv.owners.table.distinct _ _ nonzero same
  rw [slots, owner] at owner'
  exact other (Option.some.inj owner').symm

theorem Rooted.alike (h : Rooted parent c) (sock : c'.parentSock = c.parentSock)
    (slaves : c'.slaves = c.slaves)
    (fd : ∀ j, (c'.connections j).sockFd = (c.connections j).sockFd) : Rooted parent c' := by
  constructor
  · rcases h.place with root | child
    · exact .inl (sock.trans root)
    · refine .inr ⟨child.given, sock.trans child.sock, ?_⟩
      simp only [slaves, fd]
      exact child.place
  · intro m other pc
    rw [slaves] at pc ⊢
    rw [sock]
    exact h.apart m other pc

theorem comparing_holds (inv : ClipTable.Inv kernel c)
    (pc : comparing (c.slaves k).pc = true ∨ leaving (c.slaves k).pc = true) :
    c.lock = some (.slave k) := by
  refine inv.slave_has ?_
  cases here : (c.slaves k).pc <;>
    simp [here, comparing, leaving, ClipTable.Slave.holdsInterface] at pc ⊢

theorem Child.registered (h : Child parent c) (inv : ClipTable.Inv kernel c) (other : k ≠ 0)
    (lock : c.lock = some (.slave k)) :
    present (c.slaves 0).pc = true ∧ (c.connections (c.slaves 0).index).sockFd = parent := by
  refine h.place.resolve_right ?_
  rintro ⟨leaves, _⟩
  have mine := comparing_holds inv (.inr leaves)
  rw [lock] at mine
  cases mine
  exact other rfl

theorem Rooted.move (k : Nat) (x : Tables.Slave) (h : Rooted parent c)
    (sock : c'.parentSock = c.parentSock) (slaves : c'.slaves = Function.update c.slaves k x)
    (fd : ∀ j, (c'.connections j).sockFd = (c.connections j).sockFd)
    (index : x.index = (c.slaves k).index)
    (stays : present (c.slaves k).pc = true → present x.pc = true)
    (leaves : k = 0 → Child parent c → leaving (c.slaves k).pc = true →
      leaving x.pc = true ∧ x.sock_ = (c.slaves k).sock_)
    (apart : k ≠ 0 → comparing x.pc = true → (x.sock_ : Int) ≠ c.parentSock) :
    Rooted parent c' := by
  constructor
  · rcases h.place with root | child
    · exact .inl (sock.trans root)
    · refine .inr ⟨child.given, sock.trans child.sock, ?_⟩
      by_cases first : k = 0
      · subst first
        simp only [slaves, Function.update_self, fd, index]
        rcases child.place with ⟨here, same⟩ | ⟨gone, same, none_⟩
        · exact .inl ⟨stays here, same⟩
        · obtain ⟨gone', same'⟩ := leaves rfl child gone
          exact .inr ⟨gone', same'.trans same, none_⟩
      · simp only [slaves, Function.update_of_ne (Ne.symm first), fd]
        exact child.place
  · intro m other pc
    rw [sock]
    by_cases same : m = k
    · subst same
      rw [slaves, Function.update_self] at pc ⊢
      exact apart other pc
    · rw [slaves, Function.update_of_ne same] at pc ⊢
      exact h.apart m other pc

theorem Rooted.goto (k : Nat) (pc : SlavePc) (h : Rooted parent c)
    (sock : c'.parentSock = c.parentSock)
    (slaves : c'.slaves = Function.update c.slaves k { c.slaves k with pc := pc })
    (fd : ∀ j, (c'.connections j).sockFd = (c.connections j).sockFd)
    (stays : present (c.slaves k).pc = true → present pc = true)
    (leaves : leaving (c.slaves k).pc = true → leaving pc = true)
    (compares : comparing pc = true → comparing (c.slaves k).pc = true) : Rooted parent c' := by
  apply h.move k _ sock slaves fd rfl stays
  · intro _ _ gone
    exact ⟨leaves gone, rfl⟩
  · intro other now
    exact h.apart k other (compares now)

theorem Rooted.clear (h : Rooted parent c) (inv : ClipTable.Inv kernel c)
    (pc : (c.slaves k).pc = .clear) (sock : c'.parentSock = c.parentSock)
    (slaves : c'.slaves = Function.update c.slaves k { c.slaves k with pc := .unlockSlot })
    (mine : (c'.connections (c.slaves k).index).sockFd = 0)
    (others : ∀ j, j ≠ (c.slaves k).index →
      (c'.connections j).sockFd = (c.connections j).sockFd) : Rooted parent c' := by
  have compares : comparing (c.slaves k).pc = true := by rw [pc]; rfl
  have lock := comparing_holds inv (.inl compares)
  have here : present (c.slaves k).pc = true := by rw [pc]; rfl
  constructor
  · rcases h.place with root | child
    · exact .inl (sock.trans root)
    · refine .inr ⟨child.given, sock.trans child.sock, ?_⟩
      by_cases first : k = 0
      · subst first
        obtain ⟨_, same⟩ := child.place.resolve_right fun left => by
          rw [pc] at left
          cases left.1
        have copied := inv.owners.taken 0 pc
        refine .inr ⟨by rw [slaves, Function.update_self]; rfl, ?_, ?_⟩
        · rw [slaves, Function.update_self]
          exact copied.trans same
        · intro j
          by_cases slot : j = (c.slaves 0).index
          · subst slot
            rw [mine]
            exact child.given.symm
          · rw [others j slot]
            intro equal
            have nonzero : (c.connections j).sockFd ≠ 0 := equal ▸ child.given
            exact slot (inv.owners.table.distinct j _ nonzero (equal.trans same.symm))
      · obtain ⟨still, same⟩ := child.registered inv first lock
        refine .inl ⟨?_, ?_⟩
        · rw [slaves, Function.update_of_ne (Ne.symm first)]
          exact still
        · rw [slaves, Function.update_of_ne (Ne.symm first)]
          rw [others _ fun slot => ?_]
          · exact same
          · have apart := present_apart inv (Ne.symm first) here still
            rw [slot] at apart
            exact apart rfl
  · intro m other compares'
    rw [sock]
    by_cases same : m = k
    · subst same
      rw [slaves, Function.update_self]
      exact h.apart m other compares
    · rw [slaves, Function.update_of_ne same] at compares' ⊢
      exact h.apart m other compares'

theorem Rooted.closes (h : Rooted parent c) (pc : (c.slaves k).pc = .parent)
    (same : c.parentSock = (c.slaves k).sock_) : k = 0 ∧ Child parent c := by
  have first : k = 0 := by
    by_contra other
    exact h.apart k other (by rw [pc]; rfl) same.symm
  refine ⟨first, h.place.resolve_left ?_⟩
  intro root
  rw [same] at root
  exact root_ne _ root

theorem Rooted.slave {act : SlaveAct} {packets : List Broadcast} (h : Rooted parent c)
    (inv : ClipTable.Inv kernel c)
    (edge : Tables.clipSlaveStep kernel c k act = some (kernel', c', packets)) :
    Rooted parent c' ∧
      ((c.slaves k).pc = .parent ∧ c.parentSock = (c.slaves k).sock_ ∧ c'.parentSock = -1 ∨
        ¬ ((c.slaves k).pc = .parent ∧ c.parentSock = (c.slaves k).sock_) ∧
          c'.parentSock = c.parentSock) := by
  cases pc : (c.slaves k).pc
  all_goals
    cases act
    all_goals
      simp only [Tables.clipSlaveStep, pc] at edge
      repeat' split at edge
  all_goals try cases edge
  case start.next =>
    refine ⟨?_, .inr ⟨by simp, rfl⟩⟩
    refine h.move k { c.slaves k with
      sock := (c.connections (c.slaves k).index).sockFd, pc := .running } rfl rfl (fun _ => rfl) rfl
        ?_ ?_ ?_
    · intro _
      rfl
    · intro _ _ left
      rw [pc] at left
      cases left
    · intro _ now
      cases now
  case running.packet => exact ⟨h, .inr ⟨by simp, rfl⟩⟩
  case running.leave =>
    refine ⟨h.goto k .lock rfl rfl (fun _ => rfl) ?_ ?_ ?_, .inr ⟨by simp, rfl⟩⟩
    all_goals simp [pc, present, leaving, comparing]
  case lock.next.isTrue =>
    refine ⟨h.goto k .lockSlot rfl rfl (fun _ => rfl) ?_ ?_ ?_, .inr ⟨by simp, rfl⟩⟩
    all_goals simp [pc, present, leaving, comparing]
  case lockSlot.next.isTrue =>
    refine ⟨h.goto k .take rfl rfl (fun j => (ClipTable.setLock_fd _ j _).1) ?_ ?_ ?_,
      .inr ⟨by simp, rfl⟩⟩
    all_goals simp [pc, present, leaving, comparing]
  case take.next =>
    refine ⟨?_, .inr ⟨by simp, rfl⟩⟩
    have here : present (c.slaves k).pc = true := by rw [pc]; rfl
    have lock : c.lock = some (.slave k) := inv.slave_has (by rw [pc]; rfl)
    refine h.move k { c.slaves k with
      sock_ := (c.connections (c.slaves k).index).sockFd, pc := .clear } rfl rfl (fun _ => rfl) rfl
        ?_ ?_ ?_
    · intro _
      rfl
    · intro _ _ left
      rw [pc] at left
      cases left
    · intro other _ same
      rcases h.place with root | child
      · rw [root] at same
        exact root_ne _ same
      · obtain ⟨still, parentFd⟩ := child.registered inv other lock
        rw [child.sock, ← parentFd] at same
        exact present_apart inv other still here (Int.ofNat.inj same)
  case clear.next =>
    refine ⟨?_, .inr ⟨by simp, rfl⟩⟩
    refine h.clear inv pc rfl rfl ?_ ?_
    · simp [Clip.slaveGoto, Clip.setSlave, Clip.setSlot]
    · intro j slot
      simp [Clip.slaveGoto, Clip.setSlave, Clip.setSlot, slot]
  case unlockSlot.next =>
    refine ⟨h.goto k .close rfl rfl (fun j => (ClipTable.setLock_fd _ j _).1) ?_ ?_ ?_,
      .inr ⟨by simp, rfl⟩⟩
    all_goals simp [pc, present, leaving, comparing]
  case close.next =>
    refine ⟨h.goto k .parent rfl rfl (fun _ => rfl) ?_ ?_ ?_, .inr ⟨by simp, rfl⟩⟩
    all_goals simp [pc, present, leaving, comparing]
  case parent.next.isTrue same =>
    refine ⟨⟨.inl rfl, ?_⟩, .inl ⟨rfl, same, rfl⟩⟩
    intro m _ _
    exact root_ne _
  case parent.next.isFalse differs =>
    refine ⟨?_, .inr ⟨fun now => differs now.2, rfl⟩⟩
    refine h.move k { c.slaves k with pc := .count } rfl rfl (fun _ => rfl) rfl ?_ ?_ ?_
    · simp [pc, present]
    · intro first child _
      subst first
      obtain ⟨_, same, _⟩ := child.place.resolve_left fun still => by
        rw [pc] at still
        cases still.1
      rw [child.sock, same] at differs
      exact absurd rfl differs
    · intro _ now
      cases now
  case count.next =>
    refine ⟨h.goto k .unlock rfl rfl (fun _ => rfl) ?_ ?_ ?_, .inr ⟨by simp, rfl⟩⟩
    all_goals simp [pc, present, leaving, comparing]
  case unlock.next =>
    refine ⟨h.goto k .finished rfl rfl (fun _ => rfl) ?_ ?_ ?_, .inr ⟨by simp, rfl⟩⟩
    all_goals simp [pc, present, leaving, comparing]

theorem Rooted.store {a : Accepted} {i : Slot} (h : Rooted parent c) (inv : ClipTable.Inv kernel c)
    (pc : c.listen = .store a i) (sock : c'.parentSock = c.parentSock)
    (slaves : c'.slaves = c.slaves) (others : ∀ j, j ≠ i → c'.connections j = c.connections j) :
    Rooted parent c' := by
  have lock : c.lock = some .listener := inv.listener_has (by rw [pc]; rfl)
  constructor
  · rcases h.place with root | child
    · exact .inl (sock.trans root)
    · refine .inr ⟨child.given, sock.trans child.sock, .inl ?_⟩
      obtain ⟨still, same⟩ := child.place.resolve_right fun left => by
        have other := comparing_holds inv (.inr left.1)
        rw [lock] at other
        cases other
      have apart : (c.slaves 0).index ≠ i := by
        intro slot
        have zero := inv.owners.chosen i (by rw [pc]; rfl)
        rw [slot, zero] at same
        exact child.given same.symm
      rw [slaves, others _ apart]
      exact ⟨still, same⟩
  · intro m other compares
    rw [slaves] at compares ⊢
    rw [sock]
    exact h.apart m other compares

theorem Rooted.create {a : Accepted} {i : Slot} (h : Rooted parent c)
    (inv : ClipTable.Inv kernel c) (pc : c.listen = .create a i)
    (sock : c'.parentSock = c.parentSock) (connections : c'.connections = c.connections)
    (slaves : c'.slaves = Function.update c.slaves a.conn ⟨i, 0, 0, .start⟩) :
    Rooted parent c' := by
  have unborn : (c.slaves a.conn).pc = .unborn := by
    refine (inv.owners.newborn a.conn (.held i) ?_).2
    rw [pc]
    exact if_pos rfl
  constructor
  · rcases h.place with root | child
    · exact .inl (sock.trans root)
    · have apart : 0 ≠ a.conn := by
        intro same
        rw [← same] at unborn
        rcases child.place with ⟨still, _⟩ | ⟨left, _⟩
        · rw [unborn] at still
          cases still
        · rw [unborn] at left
          cases left
      refine .inr ⟨child.given, sock.trans child.sock, ?_⟩
      rw [slaves, Function.update_of_ne apart, connections]
      exact child.place
  · intro m other compares
    rw [sock]
    by_cases same : m = a.conn
    · subst same
      rw [slaves, Function.update_self] at compares
      cases compares
    · rw [slaves, Function.update_of_ne same] at compares ⊢
      exact h.apart m other compares

theorem Rooted.listen {said : Bool} (h : Rooted parent c) (inv : ClipTable.Inv kernel c)
    (edge : Tables.clipListenStep kernel c said = some (kernel', c')) :
    Rooted parent c' ∧ c'.parentSock = c.parentSock := by
  obtain ⟨sock, changes⟩ := clipListenStep_slaves edge
  refine ⟨?_, sock⟩
  rcases changes with ⟨slaves, fd⟩ | ⟨a, i, pc, slaves, others⟩ | ⟨a, i, pc, connections, slaves⟩
  · exact h.alike sock slaves fd
  · exact h.store inv pc sock slaves others
  · exact h.create inv pc sock connections slaves

end Steps

/-- The clock threads against the role and the progress of `clipif_finalize`. -/
def Clocks (parent : Fd) (s : State) : Prop :=
  match s.finalize with
  | .idle | .lock | .role =>
    s.cancelled = (fun _ => false) ∧
      (s.tables.clip.parentSock = -1 ∧ s.clockThread = some 0 ∧ s.created = 1 ∧
          s.running = Function.update (fun _ => false) 0 true ∨
        Child parent s.tables.clip ∧ s.created = 0 ∧ s.running = (fun _ => false))
  | .cancel =>
    s.cancelled = (fun _ => false) ∧ s.tables.clip.parentSock = -1 ∧ s.clockThread = some 0 ∧
      s.running = Function.update (fun _ => false) 0 true
  | .join thread =>
    s.tables.clip.parentSock = -1 ∧ thread = 0 ∧ ∀ other, other ≠ 0 → s.running other = false
  | .orphan => s.running = (fun _ => false)
  | .unlock | .finished => s.tables.clip.parentSock = -1 ∧ s.running = (fun _ => false)

structure Inv (parent : Fd) (s : State) : Prop where
  tables : Connections.Inv s.tables
  rooted : Rooted parent s.tables.clip
  exclusive : s.finalize.holds = true → s.tables.clip.lock = none
  clocks : Clocks parent s
  sampled : ∀ k, s.withParent k = some true → parent ≠ 0 ∧ k = 0

section Run

variable {parent : Fd} {s s' : State}

theorem Rooted.statement {a : Tables.Label} {t : Tables.State}
    (inv : Connections.Inv s.tables) (h : Rooted parent s.tables.clip)
    (edge : Tables.step s.tables a = some t) :
    Rooted parent t.clip ∧
      (creates s.tables a = true ∧ Child parent s.tables.clip ∧ t.clip.parentSock = -1 ∨
        creates s.tables a = false ∧ t.clip.parentSock = s.tables.clip.parentSock) := by
  cases a with
  | clipAccept fd =>
    simp only [Tables.step] at edge
    split at edge
    · obtain ⟨kernel, _, rfl⟩ := Option.map_eq_some_iff.mp edge
      exact ⟨h.alike rfl rfl fun _ => rfl, .inr ⟨rfl, rfl⟩⟩
    · cases edge
  | clipListen said =>
    obtain ⟨⟨kernel, c⟩, moved, rfl⟩ := Option.map_eq_some_iff.mp edge
    obtain ⟨rooted, same⟩ := h.listen inv.clip moved
    exact ⟨rooted, .inr ⟨rfl, same⟩⟩
  | clipSlave k act =>
    obtain ⟨⟨kernel, c, pushed⟩, moved, rfl⟩ := Option.map_eq_some_iff.mp edge
    obtain ⟨rooted, closes | ⟨keeps, same⟩⟩ := h.slave inv.clip moved
    · obtain ⟨pc, same, root⟩ := closes
      refine ⟨rooted, .inl ⟨?_, (h.closes pc same).2, root⟩⟩
      cases act with
      | next => simp [creates, pc, same]
      | packet => simp [Tables.clipSlaveStep, pc] at moved
      | leave => simp [Tables.clipSlaveStep, pc] at moved
    · refine ⟨rooted, .inr ⟨?_, same⟩⟩
      cases act with
      | next => simpa [creates] using keeps
      | packet => rfl
      | leave => rfl
  | broadcast =>
    obtain ⟨⟨c, queue⟩, moved, rfl⟩ := Option.map_eq_some_iff.mp edge
    obtain ⟨same, slaves⟩ := broadcastStep_slaves moved
    obtain ⟨_, _, _, fd, _⟩ := broadcastStep_frame moved
    exact ⟨h.alike same slaves fd, .inr ⟨rfl, same⟩⟩
  | clock =>
    simp only [Tables.step] at edge
    split at edge <;> cases edge
    exact ⟨h, .inr ⟨rfl, rfl⟩⟩
  | appAccept fd =>
    simp only [Tables.step] at edge
    split at edge
    · obtain ⟨kernel, _, rfl⟩ := Option.map_eq_some_iff.mp edge
      exact ⟨h, .inr ⟨rfl, rfl⟩⟩
    · cases edge
  | appListen =>
    obtain ⟨⟨kernel, p⟩, moved, rfl⟩ := Option.map_eq_some_iff.mp edge
    exact ⟨h, .inr ⟨rfl, rfl⟩⟩
  | appSlave k act =>
    obtain ⟨⟨kernel, p, pushed⟩, moved, rfl⟩ := Option.map_eq_some_iff.mp edge
    exact ⟨h, .inr ⟨rfl, rfl⟩⟩

theorem Clocks.alike {t : Tables.State} (h : Clocks parent s) (rooted : Rooted parent t.clip)
    (same : t.clip.parentSock = s.tables.clip.parentSock) :
    Clocks parent { s with tables := t } := by
  have still (child : Child parent s.tables.clip) : Child parent t.clip := by
    refine rooted.place.resolve_left fun root => ?_
    rw [same, child.sock] at root
    exact root_ne _ root
  unfold Clocks at h ⊢
  cases pc : s.finalize with
  | idle | lock | role =>
    simp only [pc, same] at h ⊢
    exact ⟨h.1, h.2.imp_right fun ⟨child, rest⟩ => ⟨still child, rest⟩⟩
  | cancel | join thread | orphan | unlock | finished =>
    simp only [pc, same] at h ⊢
    exact h

theorem Clocks.create {t : Tables.State} (h : Clocks parent s)
    (free : s.finalize.holds = false) (child : Child parent s.tables.clip)
    (root : t.clip.parentSock = -1) : Clocks parent { createClock s with tables := t } := by
  have isChild : s.tables.clip.parentSock ≠ -1 := by
    rw [child.sock]
    exact root_ne _
  unfold Clocks at h ⊢
  cases pc : s.finalize with
  | idle | lock =>
    simp only [pc] at h
    obtain ⟨quiet, ⟨other, _⟩ | ⟨_, none_, idle⟩⟩ := h
    · exact absurd other isChild
    · simp only [createClock, pc, none_, idle]
      exact ⟨quiet, .inl ⟨root, trivial, trivial, trivial⟩⟩
  | finished =>
    simp only [pc] at h
    exact absurd h.1 isChild
  | role | cancel | join thread | orphan | unlock =>
    rw [pc] at free
    cases free

theorem Clocks.expire {thread : Nat} (h : Clocks parent s) (running : s.running thread = true)
    (cancelled : s.cancelled thread = true) :
    Clocks parent { s with running := Function.update s.running thread false } := by
  unfold Clocks at h ⊢
  cases pc : s.finalize with
  | idle | lock | role | cancel =>
    simp only [pc] at h
    rw [h.1] at cancelled
    cases cancelled
  | join last =>
    simp only [pc] at h ⊢
    obtain ⟨root, first, others⟩ := h
    refine ⟨root, first, fun other apart => ?_⟩
    by_cases same : other = thread
    · rw [same, Function.update_self]
    · rw [Function.update_of_ne same]
      exact others other apart
  | orphan =>
    simp only [pc] at h
    rw [h] at running
    cases running
  | unlock | finished =>
    simp only [pc] at h
    rw [h.2] at running
    cases running

theorem Rooted.sample {kernel : Kernel} {c : Clip} {k : Nat} (h : Rooted parent c)
    (inv : ClipTable.Inv kernel c) (pc : (c.slaves k).pc = .running)
    (same : ((c.slaves k).sock : Int) = c.parentSock) : parent ≠ 0 ∧ k = 0 := by
  have mine := inv.owners.sock k pc
  have here : present (c.slaves k).pc = true := by
    rw [pc]
    rfl
  rcases h.place with root | child
  · rw [root] at same
    exact absurd same (root_ne _)
  · refine ⟨child.given, ?_⟩
    rw [child.sock, mine] at same
    have fd : (c.connections (c.slaves k).index).sockFd = parent := Int.ofNat.inj same
    by_contra other
    rcases child.place with ⟨still, parentFd⟩ | ⟨_, _, gone⟩
    · exact present_apart inv other still here (fd.trans parentFd.symm)
    · exact gone _ fd

theorem creates_locked {a : Tables.Label} {t : Tables.State} (inv : Connections.Inv t)
    (now : creates t a = true) : t.clip.lock ≠ none := by
  cases a with
  | clipSlave k act =>
    cases act with
    | next =>
      simp only [creates, Bool.and_eq_true, decide_eq_true_eq] at now
      rw [comparing_holds inv.clip (.inl (by rw [now.1]; rfl))]
      exact Option.some_ne_none _
    | packet | leave => cases now
  | clipAccept | clipListen | broadcast | clock | appAccept | appListen | appSlave => cases now

theorem Inv.statement {a : Tables.Label} (h : Inv parent s)
    (edge : step s (.statement a) = some s') : Inv parent s' := by
  simp only [step] at edge
  split at edge
  · cases edge
  · obtain ⟨t, moved, edge⟩ := Option.bind_eq_some_iff.mp edge
    obtain ⟨rooted, role⟩ := h.rooted.statement h.tables moved
    have tables := h.tables.step a moved
    split at edge
    · cases edge
    · rename_i lock
      have exclusive (held : s.finalize.holds = true) : t.clip.lock = none := by
        by_contra taken
        exact lock ⟨held, taken⟩
      rcases role with ⟨creates, child, root⟩ | ⟨creates, same⟩
      · rw [if_pos creates] at edge
        obtain rfl := Option.some.inj edge
        refine ⟨tables, rooted, exclusive, h.clocks.create ?_ child root, h.sampled⟩
        by_contra held
        exact creates_locked h.tables creates (h.exclusive (Bool.eq_true_of_not_eq_false held))
      · rw [if_neg (by rw [creates]; decide)] at edge
        obtain rfl := Option.some.inj edge
        exact ⟨tables, rooted, exclusive, h.clocks.alike rooted same, h.sampled⟩

theorem Inv.finalize (h : Inv parent s) (edge : finalizeStep s = some s') : Inv parent s' := by
  have clocks := h.clocks
  unfold Clocks at clocks
  cases pc : s.finalize
  all_goals
    simp only [finalizeStep, pc] at edge clocks
    repeat' split at edge
  all_goals try cases edge
  case idle =>
    exact ⟨h.tables, h.rooted, fun held => Bool.noConfusion held, clocks, h.sampled⟩
  case lock.isTrue free => exact ⟨h.tables, h.rooted, fun _ => free, clocks, h.sampled⟩
  case role.isTrue root =>
    refine ⟨h.tables, h.rooted, fun _ => h.exclusive (by rw [pc]; rfl), ?_, h.sampled⟩
    obtain ⟨quiet, ⟨_, thread, _, running⟩ | ⟨child, _⟩⟩ := clocks
    · exact ⟨quiet, root, thread, running⟩
    · rw [child.sock] at root
      exact absurd root (root_ne _)
  case role.isFalse isChild =>
    refine ⟨h.tables, h.rooted, fun _ => h.exclusive (by rw [pc]; rfl), ?_, h.sampled⟩
    obtain ⟨_, ⟨root, _⟩ | ⟨_, _, running⟩⟩ := clocks
    · exact absurd root isChild
    · exact running
  case h_1 thread now =>
    refine ⟨h.tables, h.rooted, fun _ => h.exclusive (by rw [pc]; rfl), ?_, h.sampled⟩
    obtain ⟨_, root, same, running⟩ := clocks
    rw [same] at now
    refine ⟨root, (Option.some.inj now).symm, fun other apart => ?_⟩
    simp only [running, Function.update_of_ne apart]
  case h_2 now =>
    obtain ⟨_, _, same, _⟩ := clocks
    rw [now] at same
    cases same
  case join.isFalse thread ended =>
    refine ⟨h.tables, h.rooted, fun _ => h.exclusive (by rw [pc]; rfl), ?_, h.sampled⟩
    obtain ⟨root, rfl, others⟩ := clocks
    refine ⟨root, funext fun other => ?_⟩
    by_cases first : other = 0
    · subst first
      exact Bool.eq_false_of_not_eq_true ended
    · exact others other first
  case orphan =>
    refine ⟨h.tables.orphan, ⟨.inl rfl, fun _ _ _ => root_ne _⟩,
      fun _ => h.exclusive (by rw [pc]; rfl), ⟨rfl, clocks⟩, h.sampled⟩
  case unlock =>
    exact ⟨h.tables, h.rooted, fun held => Bool.noConfusion held, clocks, h.sampled⟩

theorem Inv.step {a : Label} (h : Inv parent s) (edge : Role.step s a = some s') :
    Inv parent s' := by
  cases a with
  | statement a => exact h.statement edge
  | sample k =>
    simp only [Role.step] at edge
    split at edge
    · rename_i ready
      obtain rfl := Option.some.inj edge
      refine ⟨h.tables, h.rooted, h.exclusive, h.clocks, ?_⟩
      intro m sampled
      by_cases same : m = k
      · subst same
        simp only [Function.update_self, Option.some.injEq, decide_eq_true_eq] at sampled
        exact h.rooted.sample h.tables.clip ready.1 sampled
      · simp only [Function.update_of_ne same] at sampled
        exact h.sampled m sampled
    · cases edge
  | tick thread =>
    simp only [Role.step] at edge
    split at edge
    · obtain rfl := Option.some.inj edge
      exact ⟨⟨h.tables.clip, h.tables.app⟩, h.rooted, h.exclusive, h.clocks, h.sampled⟩
    · cases edge
  | expire thread =>
    simp only [Role.step] at edge
    split at edge
    · rename_i ends
      obtain rfl := Option.some.inj edge
      exact ⟨h.tables, h.rooted, h.exclusive, h.clocks.expire ends.1 ends.2, h.sampled⟩
    · cases edge
  | finalize => exact h.finalize edge

theorem Inv.init : Inv parent (role parent).init where
  tables := Connections.Inv.init parent
  rooted := by
    constructor
    · by_cases alone : parent = 0
      · left
        simp [role, Tables.tables, Tables.clipInit, alone]
      · right
        refine ⟨alone, ?_, .inl ?_⟩
        · simp [role, Tables.tables, Tables.clipInit, alone]
        · simp [role, Tables.tables, Tables.clipInit, alone, present]
    · intro k other now
      simp [role, Tables.tables, Tables.clipInit, other, comparing] at now
  exclusive held := by cases held
  clocks := by
    refine ⟨rfl, ?_⟩
    by_cases alone : parent = 0
    · left
      subst alone
      refine ⟨rfl, rfl, rfl, funext fun thread => ?_⟩
      by_cases first : thread = 0
      · subst first
        rfl
      · simp [role, first]
    · right
      refine ⟨⟨alone, ?_, .inl ?_⟩, ?_, ?_⟩
      all_goals simp [role, Tables.tables, Tables.clipInit, alone, present]
  sampled k now := by cases now

theorem inv_of_reach (h : (role parent).Reach System.anyStep s) : Inv parent s :=
  h.invariant Inv.init fun _ _ _ inv _ edge => inv.step edge

end Run

section Result

/-- `clipif_finalize` has changed the role, or is at it. -/
def changed : Finalize → Bool
  | .join _ | .unlock | .finished => true
  | _ => false

/-- `clipif_finalize` is at the end of its role section, or past it. -/
def past : Finalize → Bool
  | .unlock | .finished => true
  | _ => false

def lockFree (s : State) : Prop := s.tables.clip.lock = none ∧ s.finalize.holds = false

def IsRoot (s : State) : Prop :=
  s.tables.clip.parentSock = -1 ∧ s.created = 1 ∧ ∃! thread, s.running thread = true

def IsChild (s : State) : Prop :=
  (∃! i, 0 < (s.tables.clip.connections i).sockFd ∧
    ((s.tables.clip.connections i).sockFd : Int) = s.tables.clip.parentSock) ∧
    s.created = 0 ∧ ∀ thread, s.running thread = false

/-- The role of a clipboard is sound. -/
structure Sound (parent : Fd) (s : State) : Prop where
  exact : lockFree s → changed s.finalize = false →
    (IsRoot s ∨ IsChild s) ∧ ¬ (IsRoot s ∧ IsChild s)
  honours : ∀ k, s.withParent k = some true → parent ≠ 0 ∧ k = 0
  ended : past s.finalize = true → ∀ u, (role parent).Path System.anyStep s u →
    u.created = s.created ∧ ∀ thread, u.running thread = false

variable {parent : Fd} {s s' : State}

theorem child_slot (h : Inv parent s) (free : s.tables.clip.lock = none)
    (child : Child parent s.tables.clip) :
    ∃! i, 0 < (s.tables.clip.connections i).sockFd ∧
      ((s.tables.clip.connections i).sockFd : Int) = s.tables.clip.parentSock := by
  obtain ⟨_, same⟩ := child.place.resolve_right fun left => by
    have lock := comparing_holds h.tables.clip (.inr left.1)
    rw [free] at lock
    cases lock
  refine ⟨(s.tables.clip.slaves 0).index, ⟨?_, ?_⟩, ?_⟩
  · rw [same]
    exact Nat.pos_of_ne_zero child.given
  · rw [same, child.sock]
  · rintro j ⟨pos, fd⟩
    rw [child.sock] at fd
    have fd' : (s.tables.clip.connections j).sockFd = parent := Int.ofNat.inj fd
    exact h.tables.clip.owners.table.distinct j _ (Nat.ne_of_gt pos) (fd'.trans same.symm)

theorem Inv.exact (h : Inv parent s) (free : lockFree s) (early : changed s.finalize = false) :
    (IsRoot s ∨ IsChild s) ∧ ¬ (IsRoot s ∧ IsChild s) := by
  constructor
  · have clocks := h.clocks
    unfold Clocks at clocks
    cases pc : s.finalize with
    | idle | lock =>
      simp only [pc] at clocks
      obtain ⟨_, ⟨root, _, created, running⟩ | ⟨child, created, running⟩⟩ := clocks
      · refine .inl ⟨root, created, 0, ?_, ?_⟩
        · simp only [running, Function.update_self]
        · intro thread now
          by_contra other
          simp only [running, Function.update_of_ne other] at now
          cases now
      · refine .inr ⟨child_slot h free.1 child, created, ?_⟩
        intro thread
        rw [running]
    | role | cancel | orphan =>
      have held := free.2
      rw [pc] at held
      cases held
    | join thread | unlock | finished =>
      rw [pc] at early
      cases early
  · rintro ⟨⟨_, one, _⟩, ⟨_, none_, _⟩⟩
    rw [one] at none_
    cases none_

theorem Inv.ended {a : Label} (h : Inv parent s) (done : past s.finalize = true)
    (edge : Role.step s a = some s') : past s'.finalize = true ∧ s'.created = s.created := by
  have root : s.tables.clip.parentSock = -1 := by
    have clocks := h.clocks
    unfold Clocks at clocks
    cases pc : s.finalize with
    | unlock | finished =>
      simp only [pc] at clocks
      exact clocks.1
    | idle | lock | role | cancel | join thread | orphan =>
      rw [pc] at done
      cases done
  cases a with
  | statement a =>
    simp only [Role.step] at edge
    split at edge
    · cases edge
    · obtain ⟨t, moved, edge⟩ := Option.bind_eq_some_iff.mp edge
      split at edge
      · cases edge
      · rcases (h.rooted.statement h.tables moved).2 with ⟨_, child, _⟩ | ⟨creates, _⟩
        · rw [child.sock] at root
          exact absurd root (root_ne _)
        · rw [if_neg (by rw [creates]; decide)] at edge
          obtain rfl := Option.some.inj edge
          exact ⟨done, rfl⟩
  | sample k | tick thread | expire thread =>
    simp only [Role.step] at edge
    split at edge
    · obtain rfl := Option.some.inj edge
      exact ⟨done, rfl⟩
    · cases edge
  | finalize =>
    cases pc : s.finalize with
    | unlock =>
      simp only [Role.step, finalizeStep, pc] at edge
      obtain rfl := Option.some.inj edge
      exact ⟨rfl, rfl⟩
    | finished =>
      simp only [Role.step, finalizeStep, pc] at edge
      cases edge
    | idle | lock | role | cancel | join thread | orphan =>
      rw [pc] at done
      cases done

/-- In every run a clipboard is a root with one clock thread or the child of the parent it was
given, until it finalizes; only the slave of the parent's connection honours its clock; and when
`clipif_finalize` is done with the role no clock thread is left and none is started again. -/
theorem role_sound (h : (role parent).Reach System.anyStep s) : Sound parent s where
  exact free early := (inv_of_reach h).exact free early
  honours := (inv_of_reach h).sampled
  ended done u path := by
    have keeps : Inv parent u ∧ past u.finalize = true ∧ u.created = s.created := by
      refine System.Path.invariant (I := fun u => Inv parent u ∧ past u.finalize = true ∧
        u.created = s.created) ?_ path ⟨inv_of_reach h, done, rfl⟩
      rintro t a t' ⟨inv, finished, same⟩ _ edge
      obtain ⟨finished', same'⟩ := inv.ended finished edge
      exact ⟨inv.step edge, finished', same'.trans same⟩
    obtain ⟨inv, finished, same⟩ := keeps
    refine ⟨same, fun thread => ?_⟩
    have clocks := inv.clocks
    unfold Clocks at clocks
    cases pc : u.finalize with
    | unlock | finished =>
      simp only [pc] at clocks
      rw [clocks.2]
    | idle | lock | role | cancel | join thread | orphan =>
      rw [pc] at finished
      cases finished

private def orphaned : List Label :=
  [Label.statement (.clipSlave 0 .next), .sample 0, .statement (.clipSlave 0 .leave)] ++
    List.replicate 6 (Label.statement (.clipSlave 0 .next)) ++
    [Label.statement (.clipAccept (some 3))] ++
    List.replicate 3 (Label.statement (.clipSlave 0 .next)) ++
    List.replicate 10 (Label.statement (.clipListen true)) ++
    [Label.statement (.clipSlave 1 .next), .sample 1, .tick 0] ++
    List.replicate 4 Label.finalize ++ [Label.expire 0, .finalize, .finalize]

theorem role_sound_orphaned : ∃ s, (role 3).Reach System.anyStep s ∧
    (s.withParent 0 = some true ∧ s.withParent 1 = some false ∧ s.created = 1 ∧
      (s.tables.clip.slaves 1).sock = 3 ∧ s.finalize = .finished) ∧ Sound 3 s := by
  have reached : ∃ s, (role 3).Reach System.anyStep s ∧
      decide (s.withParent 0 = some true ∧ s.withParent 1 = some false ∧ s.created = 1 ∧
        (s.tables.clip.slaves 1).sock = 3 ∧ s.finalize = .finished) = true :=
    System.reach_of_run _ true orphaned (by simp [System.anyStep]) (by decide +kernel)
  obtain ⟨s, reached, seen⟩ := reached
  exact ⟨s, reached, of_decide_eq_true seen, role_sound reached⟩

end Result

end DistributedClipboard.Interfaces.RootOrChild
