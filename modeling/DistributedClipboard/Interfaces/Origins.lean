/- module: DistributedClipboard/Interfaces/Origins
   source: src/src/interfaces/clipif.c, src/src/interfaces/appif.c
   layer: theorem
   digest: Whom a broadcast skips, when the origin is remembered as a descriptor number. -/

import DistributedClipboard.Interfaces.ClipChanges
import DistributedClipboard.Interfaces.Connections

set_option autoImplicit false
set_option relaxedAutoImplicit false

namespace DistributedClipboard.Interfaces.Origins

open DistributedClipboard.Common
open DistributedClipboard.Interfaces.ClipChanges
open DistributedClipboard.Interfaces.Connections
open DistributedClipboard.Interfaces.Tables
open DistributedClipboard.Lib.Transition

/-- The round in progress, and how many slots it has passed. -/
def roundOf : BroadcastPc → Option (Round × Nat)
  | .pop => none
  | .lockSlot r i => some (r, i)
  | .test r i | .send r i | .unlockSlot r i => some (r, i.val)

def Aliased (c : Clip) (m : Broadcast) (j : Slot) : Prop :=
  0 < (c.connections j).sockFd ∧ ((c.connections j).sockFd : Int) = m.fromFd ∧
    m.origin ≠ (c.connections j).owner.map Conn.clip

instance (c : Clip) (m : Broadcast) (j : Slot) : Decidable (Aliased c m j) :=
  inferInstanceAs (Decidable (_ ∧ _ ∧ _))

def dequeuesAliased (s : State) : Bool :=
  match s.clip.broadcast, s.queue with
  | .pop, m :: _ => decide (∃ j, Aliased s.clip m j)
  | _, _ => false

def registersReused (s : State) : Bool :=
  match s.clip.listen, roundOf s.clip.broadcast with
  | .store a i, some (r, pos) => decide (pos ≤ i.val ∧ (a.fd : Int) = r.msg.fromFd)
  | _, _ => false

/-- No packet is dequeued while another connection than its origin is registered under the number it
remembers, and none is registered under that number where the round has still to pass. -/
def freshNumbers (s : State) (a : Label) : Prop :=
  (match a with
    | .broadcast => dequeuesAliased s
    | .clipListen _ => registersReused s
    | _ => false) = false

instance (s : State) (a : Label) : Decidable (freshNumbers s a) :=
  inferInstanceAs (Decidable (_ = false))

/-- The connection has been taken out of the listener's hands for good. -/
def Settled (c : Clip) (k : Nat) : Prop :=
  k < c.accepted ∧ ∀ f, ClipTable.Listener.life c.listen k ≠ some (.waiting f)

def Named (c : Clip) (m : Broadcast) : Prop :=
  ∀ k, m.origin = some (.clip k) → Settled c k ∧
    ∀ j, (c.connections j).owner = some k → ((c.connections j).sockFd : Int) = m.fromFd

structure RoundInv (c : Clip) (r : Round) (pos : Nat) : Prop where
  named : Named c r.msg
  apart : ∀ j : Slot, pos ≤ j.val → ¬ Aliased c r.msg j
  present : ∀ j k, r.present j = some k → Settled c k ∧
    (j.val < pos → (c.connections j).owner = some k → k ∈ r.passed)
  reached : ∀ k ∈ r.passed, r.msg.origin ≠ some (.clip k) → k ∈ r.sent
  others : ∀ k ∈ r.sent, r.msg.origin ≠ some (.clip k)

def atSlot (c : Clip) : BroadcastPc → Prop
  | .send r i => ∀ k, (c.connections i).owner = some k → r.msg.origin ≠ some (.clip k)
  | .unlockSlot r i => ∀ k, (c.connections i).owner = some k →
      r.msg.origin ≠ some (.clip k) → k ∈ r.sent
  | _ => True

structure OriginInv (s : State) : Prop where
  queued : ∀ m ∈ s.queue, Named s.clip m
  round : ∀ r pos, roundOf s.clip.broadcast = some (r, pos) → RoundInv s.clip r pos
  slot : atSlot s.clip s.clip.broadcast

section Changes

variable {kernel kernel' : Kernel} {c c' : Clip} {k : Nat} {m : Broadcast} {r : Round} {pos : Nat}

theorem Settled.not_stored (h : Settled c k) {a : Accepted} {i : Slot}
    (pc : c.listen = .store a i) : a.conn ≠ k := by
  rintro rfl
  exact h.2 a.fd (by simp [pc, ClipTable.Listener.life])

theorem Settled.listen {greeted : Bool} (h : Settled c k)
    (edge : clipListenStep kernel c greeted = some (kernel', c')) : Settled c' k := by
  refine ⟨?_, fun f waits => h.2 f ?_⟩
  · rw [(clipListenStep_frame edge).2]
    exact h.1
  · unfold clipListenStep at edge
    split at edge
    case h_2 a pc =>
      split at edge <;> cases edge
      rw [pc]
      cases a <;> exact waits
    all_goals
      rename_i pc
      repeat' split at edge
      all_goals
        cases edge
        try
          rw [pc]
          first
            | exact waits
            | simp [Clip.listenGoto, ClipTable.Listener.life] at waits

theorem settled_of_owner (inv : ClipTable.Inv kernel c) {j : Slot}
    (owner : (c.connections j).owner = some k) : Settled c k := by
  have held := inv.owners.owner_held owner
  simp only [ClipTable.tableOf, ClipTable.life] at held
  cases hl : ClipTable.Listener.life c.listen k with
  | some l =>
    rw [hl] at held
    obtain rfl : l = .held j := held
    exact ⟨(inv.owners.newborn k _ hl).1, by simp [hl]⟩
  | none =>
    rw [hl] at held
    refine ⟨?_, by simp [hl]⟩
    by_contra above
    have unborn := inv.owners.fresh k (Nat.le_of_not_lt above)
    simp [ClipTable.Slave.life, unborn] at held

theorem owner_of_change (change : TableChange c c') (settled : Settled c k) {j : Slot}
    (owner : (c'.connections j).owner = some k) :
    (c.connections j).owner = some k ∧ (c'.connections j).sockFd = (c.connections j).sockFd := by
  cases change with
  | same fd owner' => exact ⟨owner' j ▸ owner, fd j⟩
  | store a i pc next mine others =>
    by_cases here : j = i
    · subst here
      rw [mine.2] at owner
      exact absurd (Option.some.inj owner) (settled.not_stored pc)
    · rw [others j here] at owner ⊢
      exact ⟨owner, rfl⟩
  | clear l pc mine others =>
    by_cases here : j = (c.slaves l).index
    · rw [here, mine.2] at owner
      cases owner
    · rw [others j here] at owner ⊢
      exact ⟨owner, rfl⟩

theorem Named.change (change : TableChange c c') (keeps : ∀ k, Settled c k → Settled c' k)
    (h : Named c m) : Named c' m := by
  intro k origin
  obtain ⟨settled, number⟩ := h k origin
  refine ⟨keeps k settled, fun j owner => ?_⟩
  obtain ⟨old, same⟩ := owner_of_change change settled owner
  rw [same]
  exact number j old

theorem aliased_of_change (change : TableChange c c') {j : Slot}
    (fresh : ∀ a, c.listen = .store a j → c'.listen = .unlockSlot a j → (a.fd : Int) ≠ m.fromFd)
    (h : Aliased c' m j) : Aliased c m j := by
  obtain ⟨pos, number, other⟩ := h
  cases change with
  | same fd owner =>
    rw [fd] at pos number
    rw [owner] at other
    exact ⟨pos, number, other⟩
  | store a i pc next mine others =>
    by_cases here : j = i
    · subst here
      rw [mine.1] at number
      exact absurd number (fresh a pc next)
    · rw [others j here] at pos number other
      exact ⟨pos, number, other⟩
  | clear l pc mine others =>
    by_cases here : j = (c.slaves l).index
    · rw [here, mine.1] at pos
      exact absurd pos (Nat.lt_irrefl 0)
    · rw [others j here] at pos number other
      exact ⟨pos, number, other⟩

theorem RoundInv.change (change : TableChange c c') (keeps : ∀ k, Settled c k → Settled c' k)
    (apart : ∀ j : Slot, pos ≤ j.val → ¬ Aliased c' r.msg j) (h : RoundInv c r pos) :
    RoundInv c' r pos where
  named := h.named.change change keeps
  apart := apart
  present j k was := by
    obtain ⟨settled, passed⟩ := h.present j k was
    refine ⟨keeps k settled, fun behind owner => passed behind ?_⟩
    exact (owner_of_change change settled owner).1
  reached := h.reached
  others := h.others

theorem atSlot_change (inv : ClipTable.Inv kernel c) (change : TableChange c c')
    (broadcast : c'.broadcast = c.broadcast) (h : atSlot c c.broadcast) :
    atSlot c' c'.broadcast := by
  rw [broadcast]
  cases pc : c.broadcast with
  | send r i =>
    have mine : ClipTable.holdsSlot c i .broadcaster = true := by
      simp [ClipTable.holdsSlot, pc, ClipTable.Broadcaster.holdsSlot]
    rw [pc] at h
    simp only [atSlot, locked_same inv change mine]
    exact h
  | unlockSlot r i =>
    have mine : ClipTable.holdsSlot c i .broadcaster = true := by
      simp [ClipTable.holdsSlot, pc, ClipTable.Broadcaster.holdsSlot]
    rw [pc] at h
    simp only [atSlot, locked_same inv change mine]
    exact h
  | pop => trivial
  | lockSlot r i => trivial
  | test r i => trivial

end Changes

section Broadcast

variable {kernel : Kernel} {c c' : Clip} {queue queue' : List Broadcast} {m : Broadcast}
  {r : Round} {pos : Nat}

theorem aliased_same {j : Slot}
    (fd : ∀ j, (c'.connections j).sockFd = (c.connections j).sockFd)
    (owner : ∀ j, (c'.connections j).owner = (c.connections j).owner) (h : Aliased c' m j) :
    Aliased c m j := by
  unfold Aliased at h ⊢
  rw [fd, owner] at h
  exact h

theorem Settled.same {k : Nat} (listen : c'.listen = c.listen) (accepted : c'.accepted = c.accepted)
    (h : Settled c k) : Settled c' k := ⟨accepted ▸ h.1, listen ▸ h.2⟩

theorem RoundInv.own (h : RoundInv c r pos) (edge : broadcastStep c queue = some (c', queue')) :
    RoundInv c' r pos := by
  obtain ⟨listen, _, accepted, fd, owner⟩ := broadcastStep_frame edge
  exact h.change (.same fd owner) (fun _ => Settled.same listen accepted)
    fun _ ahead aliased => h.apart _ ahead (aliased_same fd owner aliased)

theorem RoundInv.start (inv : ClipTable.Inv kernel c) (named : Named c m)
    (fresh : ¬ ∃ j, Aliased c m j) : RoundInv c ⟨m, fun i => (c.connections i).owner, [], []⟩ 0 where
  named := named
  apart j _ aliased := fresh ⟨j, aliased⟩
  present _ _ owner := ⟨settled_of_owner inv owner, fun behind => absurd behind (Nat.not_lt_zero _)⟩
  reached _ passed := nomatch passed
  others _ sent := nomatch sent

theorem RoundInv.send (h : RoundInv c r pos) {i : Slot}
    (slot : ∀ k, (c.connections i).owner = some k → r.msg.origin ≠ some (.clip k)) :
    RoundInv c { r with sent := (c.connections i).owner.toList ++ r.sent } pos where
  named := h.named
  apart := h.apart
  present := h.present
  reached k passed other := List.mem_append_right _ (h.reached k passed other)
  others k sent := by
    rcases List.mem_append.mp sent with now | before
    · exact slot k (Option.mem_toList.mp now)
    · exact h.others k before

theorem RoundInv.pass {i : Slot} (h : RoundInv c r i.val)
    (slot : ∀ k, (c.connections i).owner = some k → r.msg.origin ≠ some (.clip k) → k ∈ r.sent) :
    RoundInv c { r with passed := (c.connections i).owner.toList ++ r.passed } (i.val + 1) where
  named := h.named
  apart j ahead := h.apart j (by omega)
  present j k was := by
    obtain ⟨settled, passed⟩ := h.present j k was
    refine ⟨settled, fun behind owner => ?_⟩
    by_cases here : j = i
    · subst here
      exact List.mem_append_left _ (Option.mem_toList.mpr owner)
    · have before : j.val < i.val := by
        have : j.val ≠ i.val := fun eq => here (Fin.ext eq)
        omega
      exact List.mem_append_right _ (passed before owner)
  reached k passed other := by
    rcases List.mem_append.mp passed with now | before
    · exact slot k (Option.mem_toList.mp now) other
    · exact h.reached k before other
  others := h.others

theorem atSlot_test (inv : ClipTable.Inv kernel c) {i : Slot} (h : RoundInv c r i.val)
    (skip : ¬ (0 < (c.connections i).sockFd ∧ ((c.connections i).sockFd : Int) ≠ r.msg.fromFd))
    {k : Nat} (owner : (c.connections i).owner = some k) : r.msg.origin = some (.clip k) := by
  have pos : 0 < (c.connections i).sockFd := by
    refine Nat.pos_of_ne_zero fun zero => ?_
    have vacant : (c.connections i).owner = none := (inv.owners.table.zero i).mp zero
    rw [owner] at vacant
    cases vacant
  have number : ((c.connections i).sockFd : Int) = r.msg.fromFd := by
    by_contra differs
    exact skip ⟨pos, differs⟩
  by_contra other
  refine h.apart i (Nat.le_refl _) ⟨pos, number, ?_⟩
  rw [owner]
  exact other

theorem broadcast_round {s : State} (inv : ClipTable.Inv kernel s.clip) (h : OriginInv s)
    (fresh : freshNumbers s .broadcast)
    (edge : broadcastStep s.clip s.queue = some (c', queue')) :
    (∀ r pos, roundOf c'.broadcast = some (r, pos) → RoundInv c' r pos) ∧
      atSlot c' c'.broadcast := by
  have step := edge
  unfold broadcastStep at edge
  split at edge
  case h_1 pc =>
    split at edge
    · cases edge
    · rename_i m rest queued
      cases edge
      refine ⟨fun r pos is => ?_, trivial⟩
      simp only [Clip.broadcastGoto, roundOf, Option.some.injEq, Prod.mk.injEq] at is
      obtain ⟨rfl, rfl⟩ := is
      have unused : ¬ ∃ j, Aliased s.clip m j := by
        have unused : dequeuesAliased s = false := fresh
        rw [dequeuesAliased, pc, queued] at unused
        simpa using unused
      have named : Named s.clip m := h.queued m (by simp [queued])
      exact (RoundInv.start inv named unused).own step
  case h_2 r i pc =>
    have old := h.round r i (by rw [pc]; rfl)
    split at edge
    · split at edge <;> cases edge
      refine ⟨fun r' pos is => ?_, trivial⟩
      simp only [Clip.broadcastGoto, roundOf, Option.some.injEq, Prod.mk.injEq] at is
      obtain ⟨rfl, rfl⟩ := is
      exact old.own step
    · cases edge
      exact ⟨fun r' pos => nofun, trivial⟩
  case h_3 r i pc =>
    have old := h.round r i.val (by rw [pc]; rfl)
    split at edge <;> cases edge
    · rename_i passes
      refine ⟨fun r' pos is => ?_, fun k owns origin => ?_⟩
      · simp only [Clip.broadcastGoto, roundOf, Option.some.injEq, Prod.mk.injEq] at is
        obtain ⟨rfl, rfl⟩ := is
        exact old.own step
      · exact passes.2 ((old.named k origin).2 i owns)
    · rename_i skip
      refine ⟨fun r' pos is => ?_, fun k owns other => ?_⟩
      · simp only [Clip.broadcastGoto, roundOf, Option.some.injEq, Prod.mk.injEq] at is
        obtain ⟨rfl, rfl⟩ := is
        exact old.own step
      · exact absurd (atSlot_test inv old skip owns) other
  case h_4 r i pc =>
    have old := h.round r i.val (by rw [pc]; rfl)
    have slot := h.slot
    rw [pc] at slot
    cases edge
    refine ⟨fun r' pos is => ?_, fun k owns other => ?_⟩
    · simp only [Clip.broadcastGoto, roundOf, Option.some.injEq, Prod.mk.injEq] at is
      obtain ⟨rfl, rfl⟩ := is
      exact (old.send slot).own step
    · exact List.mem_append_left _ (Option.mem_toList.mpr owns)
  case h_5 r i pc =>
    have old := h.round r i.val (by rw [pc]; rfl)
    have slot := h.slot
    rw [pc] at slot
    cases edge
    refine ⟨fun r' pos is => ?_, trivial⟩
    simp only [Clip.broadcastGoto, roundOf, Option.some.injEq, Prod.mk.injEq] at is
    obtain ⟨rfl, rfl⟩ := is
    exact (old.pass slot).own step

end Broadcast

section Steps

variable {s s' : State}

theorem OriginInv.others {c : Clip} {queue : List Broadcast} (inv : ClipTable.Inv s.kernel s.clip)
    (h : OriginInv s) (clip : s'.clip = c) (queued : s'.queue = s.queue ++ queue)
    (change : TableChange s.clip c) (keeps : ∀ k, Settled s.clip k → Settled c k)
    (broadcast : c.broadcast = s.clip.broadcast)
    (fresh : ∀ r pos, roundOf s.clip.broadcast = some (r, pos) → ∀ (j : Slot) a, pos ≤ j.val →
      s.clip.listen = .store a j → c.listen = .unlockSlot a j → (a.fd : Int) ≠ r.msg.fromFd)
    (packets : ∀ m ∈ queue, Named s.clip m) : OriginInv s' where
  queued m mine := by
    rw [clip]
    rw [queued] at mine
    rcases List.mem_append.mp mine with old | new
    · exact (h.queued m old).change change keeps
    · exact (packets m new).change change keeps
  round r pos is := by
    rw [clip] at is ⊢
    rw [broadcast] at is
    have old := h.round r pos is
    refine old.change change keeps fun j ahead aliased => old.apart j ahead ?_
    exact aliased_of_change change (fun a pc next => fresh r pos is j a ahead pc next) aliased
  slot := by
    rw [clip]
    exact atSlot_change inv change broadcast h.slot

theorem clipSlave_named {kernel kernel' : Kernel} {c c' : Clip} {k : Nat} {act : SlaveAct}
    {packets : List Broadcast} (inv : ClipTable.Inv kernel c)
    (edge : clipSlaveStep kernel c k act = some (kernel', c', packets)) :
    ∀ m ∈ packets, Named c m := by
  intro m mine
  unfold clipSlaveStep at edge
  simp only at edge
  split at edge
  case h_2 pc =>
    cases edge
    obtain rfl := List.mem_singleton.mp mine
    intro l origin
    obtain rfl : k = l := by simpa using origin
    have held := inv.owners.held (k := k) (by simp [ClipTable.Slave.life, pc])
    have owner := inv.owners.table.owner_of_held held
    refine ⟨settled_of_owner inv owner, fun j owns => ?_⟩
    have same := inv.owners.owner_held owns
    rw [held] at same
    obtain rfl : (c.slaves k).index = j := by simpa using same
    simp only [inv.owners.sock k pc]
  all_goals
    repeat' split at edge
    all_goals
      cases edge
      try cases mine

theorem appSlave_named {kernel kernel' : Kernel} {p p' : App} {c : Clip} {k : Nat} {act : SlaveAct}
    {packets : List Broadcast}
    (edge : appSlaveStep kernel p k act = some (kernel', p', packets)) :
    ∀ m ∈ packets, Named c m := by
  intro m mine
  unfold appSlaveStep at edge
  simp only at edge
  split at edge
  case h_2 pc =>
    cases edge
    obtain rfl := List.mem_singleton.mp mine
    intro l origin
    cases origin
  all_goals
    repeat' split at edge
    all_goals
      cases edge
      try cases mine

theorem OriginInv.queue {queue : List Broadcast} (inv : ClipTable.Inv s.kernel s.clip)
    (h : OriginInv s) (clip : s'.clip = s.clip) (queued : s'.queue = s.queue ++ queue)
    (packets : ∀ m ∈ queue, Named s.clip m) : OriginInv s' := by
  refine h.others inv clip queued (.same (fun _ => rfl) fun _ => rfl) (fun _ settled => settled) rfl
    (fun r pos _ j a _ pc next => ?_) packets
  rw [pc] at next
  cases next

theorem OriginInv.step (inv : Connections.Inv s) (h : OriginInv s) {a : Label}
    (fresh : freshNumbers s a) (edge : Tables.step s a = some s') : OriginInv s' := by
  cases a with
  | clipAccept fd =>
    simp only [Tables.step] at edge
    split at edge
    · rename_i pc
      obtain ⟨kernel, _, rfl⟩ := Option.map_eq_some_iff.mp edge
      refine h.others inv.clip rfl (List.append_nil _).symm (.same (fun _ => rfl) fun _ => rfl)
        (fun k settled => ?_) rfl (fun r pos _ j a _ pc' next => ?_)
        (fun m mine => absurd mine List.not_mem_nil)
      · refine ⟨Nat.lt_succ_of_lt settled.1, fun f waits => ?_⟩
        cases fd with
        | none => cases waits
        | some g =>
          simp only [Option.map_some, ClipTable.Listener.life] at waits
          split at waits
          · rename_i same
            exact absurd settled.1 (same ▸ Nat.lt_irrefl _)
          · cases waits
      · cases next
    · cases edge
  | clipListen greeted =>
    obtain ⟨⟨kernel, c⟩, moved, rfl⟩ := Option.map_eq_some_iff.mp edge
    refine h.others inv.clip rfl (List.append_nil _).symm (clipListenStep_table moved)
      (fun k settled => settled.listen moved) (clipListenStep_frame moved).1
      (fun r pos is j a ahead pc _ number => ?_) (fun m mine => absurd mine List.not_mem_nil)
    have unused : registersReused s = false := fresh
    rw [registersReused, pc, is] at unused
    exact absurd (And.intro ahead number) (by simpa using unused)
  | clipSlave k act =>
    obtain ⟨⟨kernel, c, packets⟩, moved, rfl⟩ := Option.map_eq_some_iff.mp edge
    obtain ⟨listen, _, accepted, broadcast⟩ := clipSlaveStep_frame moved
    refine h.others inv.clip rfl rfl (clipSlaveStep_table moved)
      (fun k settled => settled.same listen accepted) broadcast (fun r pos _ j a _ pc next => ?_)
      (clipSlave_named inv.clip moved)
    rw [listen, pc] at next
    cases next
  | broadcast =>
    obtain ⟨⟨c, queue⟩, moved, rfl⟩ := Option.map_eq_some_iff.mp edge
    obtain ⟨listen, _, accepted, fd, owner⟩ := broadcastStep_frame moved
    obtain ⟨round, slot⟩ := broadcast_round inv.clip h fresh moved
    refine ⟨fun m mine => ?_, round, slot⟩
    exact (h.queued m (broadcastStep_queue moved m mine)).change (.same fd owner)
      fun k settled => settled.same listen accepted
  | clock =>
    simp only [Tables.step] at edge
    split at edge <;> cases edge
    refine h.queue inv.clip rfl rfl fun m mine => ?_
    obtain rfl := List.mem_singleton.mp mine
    intro l origin
    cases origin
  | appAccept fd =>
    simp only [Tables.step] at edge
    split at edge
    · obtain ⟨kernel, _, rfl⟩ := Option.map_eq_some_iff.mp edge
      exact h.queue inv.clip rfl (List.append_nil _).symm fun m mine => absurd mine List.not_mem_nil
    · cases edge
  | appListen =>
    obtain ⟨⟨kernel, p⟩, _, rfl⟩ := Option.map_eq_some_iff.mp edge
    exact h.queue inv.clip rfl (List.append_nil _).symm fun m mine => absurd mine List.not_mem_nil
  | appSlave k act =>
    obtain ⟨⟨kernel, p, packets⟩, moved, rfl⟩ := Option.map_eq_some_iff.mp edge
    exact h.queue inv.clip rfl rfl (appSlave_named moved)

theorem originInv_of_reach {parent : Fd} (h : (tables parent).Reach freshNumbers s) :
    OriginInv s := by
  have start : OriginInv (tables parent).init :=
    ⟨fun m mine => absurd mine List.not_mem_nil, fun r pos => nofun, trivial⟩
  exact h.invariant_of (J := Connections.Inv) (fun t => inv_of_reach) start
    fun _ _ _ inv known fresh edge => known.step inv fresh edge

end Steps

/-- Whom the round in progress has sent its packet to, of those whose slots it has passed. -/
structure OriginSound (c : Clip) (r : Round) (pos : Nat) : Prop where
  /-- The packet is not sent back. -/
  others : ∀ k ∈ r.sent, r.msg.origin ≠ some (.clip k)
  /-- Nobody else is skipped, whenever it was registered. -/
  reached : ∀ k ∈ r.passed, r.msg.origin ≠ some (.clip k) → k ∈ r.sent
  /-- Who was registered when the packet was dequeued, and still is, has been passed. -/
  present : ∀ j k, j.val < pos → r.present j = some k → (c.connections j).owner = some k →
    k ∈ r.passed

/-- As long as no descriptor number remembered in a packet has gone to another connection by the
time of its broadcast, the broadcast skips its origin and nobody else. -/
theorem broadcast_skips_origin {parent : Fd} {s : State} (h : (tables parent).Reach freshNumbers s)
    {r : Round} {pos : Nat} (sending : roundOf s.clip.broadcast = some (r, pos)) :
    OriginSound s.clip r pos := by
  have inv := (originInv_of_reach h).round r pos sending
  exact ⟨inv.others, inv.reached, fun j k behind was => (inv.present j k was).2 behind⟩

private def clipConnects (fd : Fd) : List Label :=
  [Label.clipAccept (some fd)] ++ List.replicate 10 (Label.clipListen true)

private def pairRun : List Label :=
  clipConnects 4 ++ clipConnects 5 ++ List.replicate 3 (Label.clipListen true) ++
    [Label.clipSlave 1 .next, .clipSlave 1 .packet] ++ List.replicate 8 Label.broadcast

theorem broadcast_skips_origin_pair : ∃ s r, (tables 0).Reach freshNumbers s ∧
    roundOf s.clip.broadcast = some (r, 2) ∧ r.sent = [2] ∧ OriginSound s.clip r 2 := by
  have reached : ∃ s, (tables 0).Reach freshNumbers s ∧
      (roundOf s.clip.broadcast).map (fun x => (x.1.sent, x.2)) = some ([2], 2) :=
    System.reach_of_guardedRun _ _ pairRun (by decide +kernel)
  obtain ⟨s, reached, seen⟩ := reached
  obtain ⟨⟨r, pos⟩, sending, seen⟩ := Option.map_eq_some_iff.mp seen
  simp only [Prod.mk.injEq] at seen
  obtain ⟨sent, rfl⟩ := seen
  exact ⟨s, r, reached, sending, sent, broadcast_skips_origin reached sending⟩

private def recycledRun : List Label :=
  [Label.appAccept (some 5)] ++ List.replicate 7 Label.appListen ++
    [Label.appSlave 0 .next, .appSlave 0 .packet, .appSlave 0 .leave] ++
    List.replicate 6 (Label.appSlave 0 .next) ++ clipConnects 5 ++
    List.replicate 4 Label.broadcast

/-- The clipboard is skipped, and the packet did not arrive on its connection. -/
theorem broadcast_skips_another : ∃ s r, (tables 0).Reach System.anyStep s ∧
    roundOf s.clip.broadcast = some (r, 1) ∧ r.msg.origin = some (.app 0) ∧ r.passed = [1] ∧
    r.sent = [] ∧ ¬ OriginSound s.clip r 1 := by
  have reached : ∃ s, (tables 0).Reach System.anyStep s ∧
      (roundOf s.clip.broadcast).map (fun x => (x.1.msg.origin, x.1.passed, x.1.sent, x.2)) =
        some (some (.app 0), [1], [], 1) :=
    System.reach_of_run _ _ recycledRun (by simp [System.anyStep]) (by decide +kernel)
  obtain ⟨s, reached, seen⟩ := reached
  obtain ⟨⟨r, pos⟩, sending, seen⟩ := Option.map_eq_some_iff.mp seen
  simp only [Prod.mk.injEq] at seen
  obtain ⟨origin, passed, sent, rfl⟩ := seen
  refine ⟨s, r, reached, sending, origin, passed, sent, fun sound => ?_⟩
  have skipped := sound.reached 1 (by simp [passed]) (by simp [origin])
  rw [sent] at skipped
  cases skipped

end DistributedClipboard.Interfaces.Origins
