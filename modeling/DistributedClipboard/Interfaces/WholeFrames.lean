/- module: DistributedClipboard/Interfaces/WholeFrames
   source: src/src/interfaces/clipif.c, src/src/utils/packet.c
   layer: theorem
   digest: Connections carry whole frames as long as no frame is cut short and followed by another. -/

import DistributedClipboard.Interfaces.ClipChanges
import DistributedClipboard.Interfaces.Connections
import DistributedClipboard.Interfaces.Links

set_option autoImplicit false
set_option relaxedAutoImplicit false

namespace DistributedClipboard.Interfaces.WholeFrames

open DistributedClipboard.Common
open DistributedClipboard.Interfaces.ClipChanges
open DistributedClipboard.Interfaces.Links
open DistributedClipboard.Interfaces.Tables (Accepted Slot Fd Kernel Clip ClipListen BroadcastPc Round)
open DistributedClipboard.Lib.Frames
open DistributedClipboard.Lib.Transition
open DistributedClipboard.Utils.Packet

/-- The descriptor that a call of `send` in `clipif_broadcast` would write on. -/
def sendFd (s : State) : Option Fd :=
  match s.tables.clip.broadcast with
  | .send _ i => some (s.tables.clip.connections i).sockFd
  | _ => none

/-- The connection a call of `send` in `clipif_broadcast` would write on. -/
def sendPeer (s : State) : Option Nat := (sendFd s).bind (peer s.tables.kernel)

/-- A `send` that fails in the middle of a frame fails for good: no later `send` on the connection
accepts a byte. -/
def fatal (s : State) : Label → Prop
  | .broadcast (some n) => 0 < n → ∀ k ∈ sendPeer s, s.cut k = none
  | _ => True

section Places

/-- The connection the listener has accepted and not yet greeted. -/
def waiting : ClipListen → Option Nat
  | .lock a | .check a => a.map Accepted.conn
  | _ => none

/-- The connection the listener has greeted and not yet registered. -/
def greeted : ClipListen → Option Nat
  | .trylock a _ | .test a _ | .release a _ | .count a _ | .store a _ => some a.conn
  | _ => none

def bound (pc : BroadcastPc) (dequeued : Nat) (j : Slot) : Nat :=
  match pc with
  | .pop => dequeued + 1
  | .lockSlot _ pos => if pos ≤ j.val then dequeued else dequeued + 1
  | .test _ i => if i.val ≤ j.val then dequeued else dequeued + 1
  | .send _ i => if i.val < j.val then dequeued else dequeued + 1
  | .unlockSlot _ i => if i.val < j.val then dequeued else dequeued + 1

end Places

variable (packets : Nat → List UInt8)

def Ready (s : State) (k b : Nat) : Prop :=
  s.cut k = none ∧ (∃ frames, frames ≠ [] ∧ Line (frameSize packets) (s.wire k) frames b 0) ∨
    (s.cut k).isSome = true

def Sending (s : State) (k : Nat) : Prop :=
  s.cut k = none ∧ (∃ frames, frames ≠ [] ∧
      Line (frameSize packets) (s.wire k) frames s.dequeued s.sendBytes) ∨
    (s.cut k).isSome = true ∧ s.sendBytes = 0

def Busy (s : State) (k : Nat) : Prop :=
  greeting s.tables.clip.listen = some k ∨
    ∃ i, sending s.tables.clip.broadcast = some i ∧
      (s.tables.clip.connections i).owner = some k

/-- What has been written on the connections, against what the listener and the broadcaster are
about to write. -/
structure Inv (s : State) : Prop where
  broken : ∀ k l, 1 ≤ k → s.cut k = some l → (s.wire k).length = l ∧
    ∃ frames n sent, Line (frameSize packets) (s.wire k) frames n sent
  clean : ∀ k, 1 ≤ k → s.cut k = none → Busy s k ∨
    ∃ frames n, Line (frameSize packets) (s.wire k) frames n 0
  fresh : ∀ k, s.tables.clip.accepted ≤ k ∨ waiting s.tables.clip.listen = some k →
    s.wire k = [] ∧ s.cut k = none
  hello : ∀ k, greeting s.tables.clip.listen = some k → s.cut k = none ∧
    Line (frameSize packets) (s.wire k) [] 0 s.helloBytes
  welcome : ∀ k, greeted s.tables.clip.listen = some k → Ready packets s k 1
  slots : ∀ j k, 1 ≤ k → (s.tables.clip.connections j).owner = some k →
    sending s.tables.clip.broadcast ≠ some j →
    Ready packets s k (bound s.tables.clip.broadcast s.dequeued j)
  sends : ∀ i k, 1 ≤ k → sending s.tables.clip.broadcast = some i →
    (s.tables.clip.connections i).owner = some k → Sending packets s k
  round : s.tables.clip.broadcast ≠ .pop → 1 ≤ s.dequeued
  helloIdle : greeting s.tables.clip.listen = none → s.helloBytes = 0
  sendIdle : sending s.tables.clip.broadcast = none → s.sendBytes = 0

section Tables

variable {kernel kernel' : Kernel} {c c' : Clip}

theorem clipListenStep_place {said : Bool} (silent : greeting c.listen = none)
    (edge : Tables.clipListenStep kernel c said = some (kernel', c')) :
    (∀ k, waiting c'.listen = some k → waiting c.listen = some k) ∧
      (∀ k, greeting c'.listen = some k → waiting c.listen = some k) ∧
      ∀ k, greeted c'.listen = some k → greeted c.listen = some k := by
  unfold Tables.clipListenStep at edge
  split at edge
  all_goals
    rename_i pc
    repeat' split at edge
  all_goals try cases edge
  all_goals
    simp_all [waiting, greeting, greeted, Clip.listenGoto, Clip.lockSlot, Clip.setSlot,
      Clip.unlockSlot, Clip.setSlave]

theorem broadcastStep_place {queue queue' : List Tables.Broadcast} (dequeued : Nat)
    (silent : sending c.broadcast = none)
    (edge : Tables.broadcastStep c queue = some (c', queue')) :
    (∀ j, bound c.broadcast dequeued j ≤
      bound c'.broadcast (dequeued + (atPop c.broadcast).toNat) j) ∧
    (∀ i, sending c'.broadcast = some i → bound c.broadcast dequeued i = dequeued ∧
      atPop c.broadcast = false) ∧
    (c'.broadcast ≠ .pop → atPop c.broadcast = false → c.broadcast ≠ .pop) := by
  unfold Tables.broadcastStep at edge
  split at edge
  all_goals
    rename_i pc
    repeat' split at edge
  all_goals try cases edge
  all_goals
    simp_all [sending, bound, atPop, Clip.broadcastGoto, Clip.lockSlot, Clip.setSlot,
      Clip.unlockSlot]
  all_goals
    intro j
    repeat' split
  all_goals omega

end Tables

section Keep

variable {packets} {s : State} {t : Tables.State} {k b b' : Nat}

theorem Ready.mono (h : Ready packets s k b) (later : b ≤ b') : Ready packets s k b' := by
  rcases h with ⟨whole, frames, greeted, line⟩ | cut
  · refine .inl ⟨whole, frames, greeted, line.skip greeted fun f member => ?_⟩
    exact Nat.lt_of_lt_of_le (line.before member) later
  · exact .inr cut

theorem bound_pos (round : s.tables.clip.broadcast ≠ .pop → 1 ≤ s.dequeued) (j : Slot) :
    1 ≤ bound s.tables.clip.broadcast s.dequeued j := by
  cases pc : s.tables.clip.broadcast with
  | pop => exact Nat.le_add_left _ _
  | lockSlot r pos | test r i | send r i | unlockSlot r i =>
    have begun := round (by rw [pc]; exact BroadcastPc.noConfusion)
    simp only [bound]
    split <;> omega

theorem Inv.statement (h : Inv packets s)
    (broadcast : t.clip.broadcast = s.tables.clip.broadcast)
    (kept : ∀ i, sending s.tables.clip.broadcast = some i →
      (t.clip.connections i).owner = (s.tables.clip.connections i).owner)
    (owner : ∀ j k, (t.clip.connections j).owner = some k →
      (s.tables.clip.connections j).owner = some k ∨ greeted s.tables.clip.listen = some k)
    (accepted : s.tables.clip.accepted ≤ t.clip.accepted)
    (waits : ∀ k, waiting t.clip.listen = some k →
      s.tables.clip.accepted ≤ k ∨ waiting s.tables.clip.listen = some k)
    (greets : ∀ k, greeting t.clip.listen = some k →
      waiting s.tables.clip.listen = some k ∨ t.clip.listen = s.tables.clip.listen)
    (greets' : ∀ k, greeting s.tables.clip.listen = some k → t.clip.listen = s.tables.clip.listen)
    (said : ∀ k, greeted t.clip.listen = some k → greeted s.tables.clip.listen = some k) :
    Inv packets { s with tables := t } where
  broken := h.broken
  clean k real whole := by
    rcases h.clean k real whole with busy | line
    · rcases busy with greets | ⟨i, sends, mine⟩
      · refine .inl (.inl ?_)
        show greeting t.clip.listen = some k
        rw [greets' k greets]
        exact greets
      · refine .inl (.inr ⟨i, broadcast ▸ sends, ?_⟩)
        show (t.clip.connections i).owner = some k
        rw [kept i sends]
        exact mine
    · exact .inr line
  fresh k new := by
    rcases new with later | waits'
    · exact h.fresh k (.inl (accepted.trans later))
    · exact h.fresh k (waits k waits')
  hello k now := by
    rcases greets k now with waited | same
    · obtain ⟨empty, whole⟩ := h.fresh k (.inr waited)
      have silent : greeting s.tables.clip.listen = none := by
        cases pc : s.tables.clip.listen with
        | hello a =>
          rw [pc] at waited
          cases waited
        | _ => rfl
      refine ⟨whole, ?_⟩
      show Line (frameSize packets) (s.wire k) [] 0 s.helloBytes
      rw [empty, h.helloIdle silent]
      exact .empty
    · exact h.hello k (same ▸ now)
  welcome k now := h.welcome k (said k now)
  slots j k real mine apart := by
    show Ready packets s k (bound t.clip.broadcast s.dequeued j)
    rw [broadcast]
    rcases owner j k mine with old | new
    · exact h.slots j k real old (broadcast ▸ apart)
    · exact (h.welcome k new).mono (bound_pos h.round j)
  sends i k real now mine := by
    have before : sending s.tables.clip.broadcast = some i := broadcast ▸ now
    exact h.sends i k real before (kept i before ▸ mine)
  round busy := h.round (broadcast ▸ busy)
  helloIdle silent := by
    refine h.helloIdle ?_
    cases now : greeting s.tables.clip.listen with
    | none => rfl
    | some k =>
      have same := greets' k now
      rw [← same] at now
      exact absurd (silent.symm.trans now) (by simp)
  sendIdle silent := h.sendIdle (broadcast ▸ silent)

theorem Inv.alike (h : Inv packets s) (clip : t.clip = s.tables.clip) :
    Inv packets { s with tables := t } := by
  obtain ⟨kernel, queue, c, app⟩ := t
  obtain rfl : c = s.tables.clip := clip
  exact ⟨h.broken, h.clean, h.fresh, h.hello, h.welcome, h.slots, h.sends, h.round, h.helloIdle,
    h.sendIdle⟩

theorem Inv.turn {c : Clip} {queue queue' : List Tables.Broadcast} (h : Inv packets s)
    (silent : sending s.tables.clip.broadcast = none)
    (edge : Tables.broadcastStep s.tables.clip queue = some (c, queue')) :
    Inv packets { s with
      tables := { s.tables with clip := c, queue := queue' }
      dequeued := s.dequeued + (atPop s.tables.clip.broadcast).toNat } := by
  obtain ⟨listen, _, accepted, _, owner⟩ := broadcastStep_frame edge
  obtain ⟨later, sends, round⟩ := broadcastStep_place s.dequeued silent edge
  refine
    { broken := h.broken
      clean := fun k real whole => ?_
      fresh := fun k new => h.fresh k (by simpa only [listen, accepted] using new)
      hello := fun k now => h.hello k (by simpa only [listen] using now)
      welcome := fun k now => h.welcome k (by simpa only [listen] using now)
      slots := fun j k real mine _ => ?_
      sends := fun i k real now mine => ?_
      round := fun busy => ?_
      helloIdle := fun idle => h.helloIdle (by simpa only [listen] using idle)
      sendIdle := fun _ => h.sendIdle silent }
  · rcases h.clean k real whole with (greets | ⟨i, now, _⟩) | line
    · exact .inl (.inl (listen ▸ greets))
    · rw [silent] at now
      cases now
    · exact .inr line
  · have ready := h.slots j k real (owner j ▸ mine) (by rw [silent]; exact (Option.some_ne_none _).symm)
    exact ready.mono (later j)
  · obtain ⟨here, still⟩ := sends i now
    have ready := h.slots i k real (owner i ▸ mine) (by rw [silent]; exact (Option.some_ne_none _).symm)
    have idle := h.sendIdle silent
    rw [here] at ready
    show Sending packets { s with dequeued := s.dequeued + (atPop s.tables.clip.broadcast).toNat } k
    rw [still]
    rcases ready with ⟨whole, frames, greeted, line⟩ | cut
    · refine .inl ⟨whole, frames, greeted, ?_⟩
      show Line (frameSize packets) (s.wire k) frames s.dequeued s.sendBytes
      rw [idle]
      exact line
    · exact .inr ⟨cut, idle⟩
  · cases pop : atPop s.tables.clip.broadcast with
    | true => exact Nat.le_add_left _ _
    | false => exact h.round (round busy pop)

end Keep

section Peers

variable {kernel : Kernel} {c : Clip} {a : Accepted} {i j : Slot} {k : Nat}

theorem in_hands {pc : ClipListen}
    (mine : waiting pc = some k ∨ greeting pc = some k ∨ greeted pc = some k) :
    ∃ f, ClipTable.Listener.life pc k = some (.waiting f) := by
  cases pc with
  | lock a | check a =>
    cases a with
    | none => simp [waiting, greeting, greeted] at mine
    | some a => simp_all [waiting, greeting, greeted, ClipTable.Listener.life]
  | _ => simp_all [waiting, greeting, greeted, ClipTable.Listener.life]

theorem greeting_peer (inv : ClipTable.Inv kernel c) (pc : c.listen = .hello a) :
    peer kernel a.fd = some a.conn ∧ a.conn < c.accepted ∧
      ∀ j, (c.connections j).owner ≠ some a.conn := by
  have waits : ClipTable.Listener.life c.listen a.conn = some (.waiting a.fd) := by
    rw [pc]
    exact if_pos rfl
  have life : (ClipTable.tableOf c).life a.conn = .waiting a.fd := by
    simp [ClipTable.tableOf, ClipTable.life, waits]
  refine ⟨?_, (inv.owners.newborn _ _ waits).1, fun j owner => ?_⟩
  · rw [peer, (inv.owners.table.waiting _ _ life).2]
  · have held := inv.owners.owner_held owner
    rw [life] at held
    cases held

theorem sending_peer (inv : ClipTable.Inv kernel c) (now : sending c.broadcast = some i) :
    ∃ k, (c.connections i).owner = some k ∧ peer kernel (c.connections i).sockFd = some k := by
  cases pc : c.broadcast with
  | send r j =>
    rw [pc] at now
    obtain rfl : j = i := Option.some.inj now
    obtain ⟨_, _, k, owner, opened⟩ := Connections.clip_writes inv pc
    exact ⟨k, owner, by rw [peer, opened]⟩
  | pop | lockSlot r j | test r j | unlockSlot r j =>
    rw [pc] at now
    cases now

theorem registered (inv : ClipTable.Inv kernel c) (owner : (c.connections i).owner = some k) :
    k < c.accepted ∧ waiting c.listen ≠ some k ∧ greeting c.listen ≠ some k ∧
      greeted c.listen ≠ some k := by
  have held := inv.owners.owner_held owner
  have free : ∀ f, ClipTable.Listener.life c.listen k ≠ some (.waiting f) := by
    intro f waits
    simp [ClipTable.tableOf, ClipTable.life, waits] at held
  refine ⟨?_, fun mine => ?_, fun mine => ?_, fun mine => ?_⟩
  · by_contra late
    have unborn := inv.owners.fresh k (Nat.le_of_not_lt late)
    cases mine : ClipTable.Listener.life c.listen k with
    | none => simp [ClipTable.tableOf, ClipTable.life, mine, ClipTable.Slave.life, unborn] at held
    | some l => exact late (inv.owners.newborn k l mine).1
  all_goals
    have waits : ∃ f, ClipTable.Listener.life c.listen k = some (.waiting f) :=
      in_hands (by simp only [mine, true_or, or_true])
    obtain ⟨f, waits⟩ := waits
    exact free f waits

theorem owner_unique (inv : ClipTable.Inv kernel c) (here : (c.connections i).owner = some k)
    (there : (c.connections j).owner = some k) : i = j := by
  have held := inv.owners.owner_held here
  rw [inv.owners.owner_held there] at held
  cases held
  rfl

end Peers

section Writes

variable {packets} {s u : State} {k m b : Nat}

theorem Ready.same (h : Ready packets s m b) (wire : u.wire m = s.wire m)
    (cut : u.cut m = s.cut m) : Ready packets u m b := by
  unfold Ready at h ⊢
  rw [wire, cut]
  exact h

theorem Sending.same (h : Sending packets s m) (wire : u.wire m = s.wire m)
    (cut : u.cut m = s.cut m) (dequeued : u.dequeued = s.dequeued)
    (sendBytes : u.sendBytes = s.sendBytes) : Sending packets u m := by
  unfold Sending at h ⊢
  rw [wire, cut, dequeued, sendBytes]
  exact h

theorem Inv.helloAgain {a : Accepted} {n : Nat} (h : Inv packets s)
    (inv : ClipTable.Inv s.tables.kernel s.tables.clip) (pc : s.tables.clip.listen = .hello a)
    (room : s.helloBytes + n ≤ frameSize packets 0) :
    Inv packets { s.write a.fd 0 s.helloBytes n with helloBytes := s.helloBytes + n } := by
  obtain ⟨opened, old, apart⟩ := greeting_peer inv pc
  have mine : greeting s.tables.clip.listen = some a.conn := by
    rw [pc]
    rfl
  obtain ⟨whole, line⟩ := h.hello a.conn mine
  have written : s.write a.fd 0 s.helloBytes n = { s with
      wire := Function.update s.wire a.conn (s.wire a.conn ++ chunk 0 s.helloBytes n) } := by
    rw [State.write, opened]
  rw [written]
  refine
    { broken := fun m l real cut => ?_
      clean := fun m real clean => ?_
      fresh := fun m new => ?_
      hello := fun m now => ?_
      welcome := fun m now => ?_
      slots := fun j m real owner sends => ?_
      sends := fun i m real now owner => ?_
      round := h.round
      helloIdle := fun silent => ?_
      sendIdle := h.sendIdle }
  · have other : m ≠ a.conn := by
      rintro rfl
      rw [whole] at cut
      cases cut
    simp only [Function.update_of_ne other]
    exact h.broken m l real cut
  · by_cases same : m = a.conn
    · exact .inl (.inl (same ▸ mine))
    · simp only [Function.update_of_ne same]
      exact h.clean m real clean
  · have other : m ≠ a.conn := by
      rintro rfl
      rcases new with late | waits
      · exact absurd old (Nat.not_lt.mpr late)
      · rw [pc] at waits
        cases waits
    simp only [Function.update_of_ne other]
    exact h.fresh m new
  · obtain rfl : a.conn = m := Option.some.inj (mine.symm.trans now)
    refine ⟨whole, ?_⟩
    simp only [Function.update_self]
    exact line.write room
  · rw [pc] at now
    cases now
  · have other : m ≠ a.conn := fun same => apart j (same ▸ owner)
    exact (h.slots j m real owner sends).same (Function.update_of_ne other _ _) rfl
  · have other : m ≠ a.conn := fun same => apart i (same ▸ owner)
    exact (h.sends i m real now owner).same (Function.update_of_ne other _ _) rfl rfl rfl
  · rw [mine] at silent
    cases silent

theorem Inv.helloEnd {a : Accepted} {pc' : ClipListen} {cut' : Nat → Option Nat}
    (h : Inv packets s) (inv : ClipTable.Inv s.tables.kernel s.tables.clip)
    (pc : s.tables.clip.listen = .hello a) (cut : ∀ m, m ≠ a.conn → cut' m = s.cut m)
    (broken : ∀ l, cut' a.conn = some l → (s.wire a.conn).length = l ∧
      ∃ frames n sent, Line (frameSize packets) (s.wire a.conn) frames n sent)
    (clean : cut' a.conn = none →
      ∃ frames n, Line (frameSize packets) (s.wire a.conn) frames n 0)
    (waits : waiting pc' = none) (greets : greeting pc' = none)
    (said : ∀ m, greeted pc' = some m → m = a.conn ∧ cut' a.conn = none ∧
      ∃ frames, frames ≠ [] ∧ Line (frameSize packets) (s.wire a.conn) frames 1 0) :
    Inv packets { s with
      tables := { s.tables with clip := s.tables.clip.listenGoto pc' }
      helloBytes := 0
      cut := cut' } := by
  obtain ⟨_, old, apart⟩ := greeting_peer inv pc
  refine
    { broken := fun m l real now => ?_
      clean := fun m real whole => ?_
      fresh := fun m new => ?_
      hello := fun m now => ?_
      welcome := fun m now => ?_
      slots := fun j m real owner sends => ?_
      sends := fun i m real now owner => ?_
      round := h.round
      helloIdle := fun _ => rfl
      sendIdle := h.sendIdle }
  · by_cases same : m = a.conn
    · subst same
      exact broken l now
    · exact h.broken m l real (cut m same ▸ now)
  · by_cases same : m = a.conn
    · subst same
      exact .inr (clean whole)
    · rcases h.clean m real (cut m same ▸ whole) with (now | busy) | line
      · rw [pc] at now
        exact absurd (Option.some.inj now).symm same
      · exact .inl (.inr busy)
      · exact .inr line
  · have new' : s.tables.clip.accepted ≤ m := by
      rcases new with late | now
      · exact late
      · cases now.symm.trans waits
    have other : m ≠ a.conn := by
      rintro rfl
      exact absurd old (Nat.not_lt.mpr new')
    obtain ⟨empty, whole⟩ := h.fresh m (.inl new')
    exact ⟨empty, (cut m other).trans whole⟩
  · cases now.symm.trans greets
  · obtain ⟨rfl, whole, line⟩ := said m now
    exact .inl ⟨whole, line⟩
  · have other : m ≠ a.conn := fun same => apart j (same ▸ owner)
    exact (h.slots j m real owner sends).same rfl (cut m other)
  · have other : m ≠ a.conn := fun same => apart i (same ▸ owner)
    exact (h.sends i m real now owner).same rfl (cut m other) rfl rfl

theorem Inv.sendAgain {i : Slot} {n : Nat} (h : Inv packets s)
    (inv : ClipTable.Inv s.tables.kernel s.tables.clip)
    (now : sending s.tables.clip.broadcast = some i)
    (room : s.sendBytes + n ≤ frameSize packets s.dequeued)
    (fatal : 0 < n → ∀ k, sendPeer s = some k → s.cut k = none) :
    Inv packets { s.write (s.tables.clip.connections i).sockFd s.dequeued s.sendBytes n with
      sendBytes := s.sendBytes + n } := by
  obtain ⟨k, owner, opened⟩ := sending_peer inv now
  obtain ⟨old, unheard, ungreeted, unsaid⟩ := registered inv owner
  have peers : sendPeer s = some k := by
    cases pc : s.tables.clip.broadcast with
    | send r j =>
      rw [pc] at now
      obtain rfl : j = i := Option.some.inj now
      simp only [sendPeer, sendFd, pc, Option.bind_some]
      exact opened
    | pop | lockSlot r j | test r j | unlockSlot r j =>
      rw [pc] at now
      cases now
  have idle {l : Nat} (cut : s.cut k = some l) : n = 0 := by
    by_contra some_
    have whole := fatal (Nat.pos_of_ne_zero some_) k peers
    rw [whole] at cut
    cases cut
  have written : s.write (s.tables.clip.connections i).sockFd s.dequeued s.sendBytes n = { s with
      wire := Function.update s.wire k (s.wire k ++ chunk s.dequeued s.sendBytes n) } := by
    rw [State.write, opened]
  rw [written]
  refine
    { broken := fun m l real cut => ?_
      clean := fun m real whole => ?_
      fresh := fun m new => ?_
      hello := fun m greets => ?_
      welcome := fun m said => ?_
      slots := fun j m real there apart => ?_
      sends := fun j m real sends there => ?_
      round := h.round
      helloIdle := h.helloIdle
      sendIdle := fun silent => ?_ }
  · by_cases same : m = k
    · subst same
      simp only [Function.update_self, idle cut, chunk_zero, List.append_nil]
      exact h.broken m l real cut
    · simp only [Function.update_of_ne same]
      exact h.broken m l real cut
  · by_cases same : m = k
    · exact .inl (.inr ⟨i, now, same ▸ owner⟩)
    · simp only [Function.update_of_ne same]
      exact h.clean m real whole
  · have other : m ≠ k := by
      rintro rfl
      rcases new with late | waits
      · exact absurd old (Nat.not_lt.mpr late)
      · exact unheard waits
    simp only [Function.update_of_ne other]
    exact h.fresh m new
  · have other : m ≠ k := fun same => ungreeted (same ▸ greets)
    simp only [Function.update_of_ne other]
    exact h.hello m greets
  · have other : m ≠ k := fun same => unsaid (same ▸ said)
    exact (h.welcome m said).same (Function.update_of_ne other _ _) rfl
  · have other : m ≠ k := by
      rintro rfl
      have here : j = i := owner_unique inv there owner
      exact apart (here ▸ now)
    exact (h.slots j m real there apart).same (Function.update_of_ne other _ _) rfl
  · obtain rfl : i = j := Option.some.inj (now.symm.trans sends)
    obtain rfl : k = m := Option.some.inj (owner.symm.trans there)
    rcases h.sends i k real now owner with ⟨whole, frames, greeted, line⟩ | ⟨cut, none_⟩
    · refine .inl ⟨whole, frames, greeted, ?_⟩
      simp only [Function.update_self]
      exact line.write room
    · obtain ⟨l, cut'⟩ := Option.isSome_iff_exists.mp cut
      refine .inr ⟨cut, ?_⟩
      simp only [none_, idle cut']
  · cases now.symm.trans silent

theorem Inv.sendEnd {i : Slot} {cut' : Nat → Option Nat} (h : Inv packets s)
    (inv : ClipTable.Inv s.tables.kernel s.tables.clip) {r r' : Round}
    (pc : s.tables.clip.broadcast = .send r i)
    (owner : (s.tables.clip.connections i).owner = some k)
    (cut : ∀ m, m ≠ k → cut' m = s.cut m)
    (broken : 1 ≤ k → ∀ l, cut' k = some l → (s.wire k).length = l ∧
      ∃ frames n sent, Line (frameSize packets) (s.wire k) frames n sent)
    (clean : 1 ≤ k → cut' k = none → ∃ frames, frames ≠ [] ∧
      Line (frameSize packets) (s.wire k) frames (s.dequeued + 1) 0) :
    Inv packets { s with
      tables := { s.tables with clip := s.tables.clip.broadcastGoto (.unlockSlot r' i) }
      sendBytes := 0
      cut := cut' } := by
  obtain ⟨old, unheard, ungreeted, unsaid⟩ := registered inv owner
  have others {m : Nat} {j : Slot} (other : j ≠ i)
      (there : (s.tables.clip.connections j).owner = some m) : m ≠ k := by
    rintro rfl
    exact other (owner_unique inv there owner)
  refine
    { broken := fun m l real now => ?_
      clean := fun m real whole => ?_
      fresh := fun m new => ?_
      hello := fun m now => ?_
      welcome := fun m now => ?_
      slots := fun j m real there _ => ?_
      sends := fun i m real now owner => ?_
      round := fun _ => h.round (by rw [pc]; exact BroadcastPc.noConfusion)
      helloIdle := h.helloIdle
      sendIdle := fun _ => rfl }
  · by_cases same : m = k
    · subst same
      exact broken real l now
    · exact h.broken m l real (cut m same ▸ now)
  · by_cases same : m = k
    · subst same
      obtain ⟨frames, _, line⟩ := clean real whole
      exact .inr ⟨frames, _, line⟩
    · rcases h.clean m real (cut m same ▸ whole) with (busy | ⟨j, now, there⟩) | line
      · exact .inl (.inl busy)
      · rw [pc] at now
        obtain rfl : i = j := Option.some.inj now
        exact absurd (Option.some.inj (there.symm.trans owner)) same
      · exact .inr line
  · have other : m ≠ k := by
      rintro rfl
      rcases new with late | waits
      · exact absurd old (Nat.not_lt.mpr late)
      · exact unheard waits
    obtain ⟨empty, whole⟩ := h.fresh m new
    exact ⟨empty, (cut m other).trans whole⟩
  · have other : m ≠ k := fun same => ungreeted (same ▸ now)
    obtain ⟨whole, line⟩ := h.hello m now
    exact ⟨(cut m other).trans whole, line⟩
  · have other : m ≠ k := fun same => unsaid (same ▸ now)
    exact (h.welcome m now).same rfl (cut m other)
  · show Ready packets _ m (if i.val < j.val then s.dequeued else s.dequeued + 1)
    by_cases here : j = i
    · subst here
      obtain rfl : m = k := Option.some.inj (there.symm.trans owner)
      rw [if_neg (Nat.lt_irrefl _)]
      cases whole : cut' m with
      | none => exact .inl ⟨whole, clean real whole⟩
      | some l => exact .inr (by simp [whole])
    · have ready := h.slots j m real there (by rw [pc]; exact fun same => here (Option.some.inj same).symm)
      rw [pc] at ready
      exact ready.same rfl (cut m (others here there))
  · cases now

end Writes

section Steps

variable {packets} {s s' : State} {a : Tables.Label}

theorem whole_of_end {line : List Mark} {frames : List Nat} {n sent : Nat}
    (h : Line (frameSize packets) line frames n sent) (ends : sizeOf packets n ≤ sent) :
    sent = frameSize packets n := by
  have fits := h.fits
  unfold frameSize at fits ⊢
  omega

theorem owner_of_change {c c' : Clip} (change : TableChange c c') {j : Slot} {k : Nat}
    (mine : (c'.connections j).owner = some k) :
    (c.connections j).owner = some k ∨ greeted c.listen = some k := by
  cases change with
  | same fd owner => exact .inl (owner j ▸ mine)
  | store a i pc next stored others =>
    by_cases here : j = i
    · subst here
      rw [stored.2] at mine
      rw [pc]
      exact .inr mine
    · rw [others j here] at mine
      exact .inl mine
  | clear l pc cleared others =>
    by_cases here : j = (c.slaves l).index
    · subst here
      rw [cleared.2] at mine
      cases mine
    · rw [others j here] at mine
      exact .inl mine

theorem sending_kept {kernel : Kernel} {c c' : Clip} (inv : ClipTable.Inv kernel c)
    (change : TableChange c c') {i : Slot} (now : sending c.broadcast = some i) :
    (c'.connections i).owner = (c.connections i).owner := by
  refine locked_same inv change ?_
  cases pc : c.broadcast with
  | send r j =>
    rw [pc] at now
    obtain rfl : j = i := Option.some.inj now
    simp [ClipTable.holdsSlot, pc, ClipTable.Broadcaster.holdsSlot]
  | pop | lockSlot r j | test r j | unlockSlot r j =>
    rw [pc] at now
    cases now

theorem Inv.tables {t : Tables.State} (h : Inv packets s) (inv : Connections.Inv s.tables)
    (silent : writes s.tables a = false) (edge : Tables.step s.tables a = some t) :
    Inv packets { s with tables := t, dequeued := s.dequeued + (pops s.tables a).toNat } := by
  cases a with
  | clipAccept fd =>
    simp only [Tables.step] at edge
    split at edge
    · rename_i pc
      obtain ⟨kernel, _, rfl⟩ := Option.map_eq_some_iff.mp edge
      refine h.statement rfl (fun _ _ => rfl) (fun _ _ owner => .inl owner) (Nat.le_succ _)
        (fun k waits => .inl ?_) (fun k greets => ?_) (fun k greets => ?_) (fun k said => ?_)
      · cases fd with
        | none => cases waits
        | some fd =>
          obtain rfl : s.tables.clip.accepted = k := Option.some.inj waits
          exact Nat.le_refl _
      · cases greets
      · rw [pc] at greets
        cases greets
      · cases said
    · cases edge
  | clipListen said =>
    have mute : greeting s.tables.clip.listen = none :=
      Option.isNone_iff_eq_none.mp (Option.isSome_eq_false_iff.mp silent)
    obtain ⟨⟨kernel, c⟩, moved, rfl⟩ := Option.map_eq_some_iff.mp edge
    have change := clipListenStep_table moved
    obtain ⟨broadcast, accepted⟩ := clipListenStep_frame moved
    obtain ⟨waits, greets, welcome⟩ := clipListenStep_place mute moved
    refine h.statement broadcast (fun _ now => sending_kept inv.clip change now)
      (fun _ _ owner => owner_of_change change owner) (Nat.le_of_eq accepted.symm)
      (fun k now => .inr (waits k now)) (fun k now => .inl (greets k now)) (fun k now => ?_) welcome
    rw [mute] at now
    cases now
  | clipSlave k act =>
    obtain ⟨⟨kernel, c, pushed⟩, moved, rfl⟩ := Option.map_eq_some_iff.mp edge
    have change := clipSlaveStep_table moved
    obtain ⟨listen, _, accepted, broadcast⟩ := clipSlaveStep_frame moved
    exact h.statement broadcast (fun _ now => sending_kept inv.clip change now)
      (fun _ _ owner => owner_of_change change owner) (Nat.le_of_eq accepted.symm)
      (fun k now => .inr (by rw [← listen]; exact now)) (fun k now => .inr listen)
      (fun k now => listen) (fun k now => by rw [← listen]; exact now)
  | broadcast =>
    have mute : sending s.tables.clip.broadcast = none :=
      Option.isNone_iff_eq_none.mp (Option.isSome_eq_false_iff.mp silent)
    obtain ⟨⟨c, queue⟩, moved, rfl⟩ := Option.map_eq_some_iff.mp edge
    exact h.turn mute moved
  | clock =>
    simp only [Tables.step] at edge
    split at edge <;> cases edge
    exact h.alike rfl
  | appAccept fd =>
    simp only [Tables.step] at edge
    split at edge
    · obtain ⟨kernel, _, rfl⟩ := Option.map_eq_some_iff.mp edge
      exact h.alike rfl
    · cases edge
  | appListen =>
    obtain ⟨⟨kernel, p⟩, moved, rfl⟩ := Option.map_eq_some_iff.mp edge
    exact h.alike rfl
  | appSlave k act =>
    obtain ⟨⟨kernel, p, pushed⟩, moved, rfl⟩ := Option.map_eq_some_iff.mp edge
    exact h.alike rfl

def cutAfter (s : State) (k sent : Nat) : Nat → Option Nat :=
  if 0 < sent then Function.update s.cut k ((s.cut k).or (some (s.wire k).length)) else s.cut

theorem fail_eq {fd : Fd} {k sent : Nat} (opened : peer s.tables.kernel fd = some k) :
    s.fail fd sent = { s with cut := cutAfter s k sent } := by
  simp only [State.fail, opened, cutAfter]
  split
  · rfl
  · rfl

theorem cutAfter_other {k m sent : Nat} (other : m ≠ k) : cutAfter s k sent m = s.cut m := by
  rw [cutAfter]
  split
  · exact Function.update_of_ne other _ _
  · rfl

theorem cutAfter_self {k sent : Nat} (whole : s.cut k = none) :
    (∀ l, cutAfter s k sent k = some l → (s.wire k).length = l) ∧
      (cutAfter s k sent k = none → sent = 0) := by
  rw [cutAfter]
  split
  · rw [Function.update_self, whole]
    exact ⟨fun l now => Option.some.inj now, fun none_ => absurd none_ (Option.some_ne_none _)⟩
  · rename_i nothing
    rw [whole]
    exact ⟨fun l now => absurd now.symm (Option.some_ne_none l),
      fun _ => Nat.eq_zero_of_not_pos nothing⟩

theorem hello_moves {a : Accepted} {t : Tables.State} {said : Bool}
    (pc : s.tables.clip.listen = .hello a)
    (moved : Tables.step s.tables (.clipListen said) = some t) :
    t = { s.tables with
      clip := s.tables.clip.listenGoto (if said then .trylock a 0 else .reject a) } := by
  simp only [Tables.step, Tables.clipListenStep, pc] at moved
  cases said
  · exact (Option.some.inj moved).symm
  · exact (Option.some.inj moved).symm

theorem Inv.helloTurn {ret : Option Nat} (h : Inv packets s) (inv : Connections.Inv s.tables)
    (edge : step packets s (.hello ret) = some s') :
    Inv packets s' ∧ Connections.Inv s'.tables := by
  cases pc : s.tables.clip.listen with
  | hello a =>
    obtain ⟨opened, _, _⟩ := greeting_peer inv.clip pc
    obtain ⟨whole, line⟩ := h.hello a.conn (by rw [pc]; rfl)
    simp only [step, pc] at edge
    cases turn : sendTurn (sizeOf packets 0) s.helloBytes ret with
    | none =>
      rw [turn] at edge
      cases edge
    | some next =>
      simp only [turn] at edge
      rcases sendTurn_cases turn with ⟨rfl, -, more⟩ | ⟨n, rfl, rfl, room⟩ | ⟨rfl, ends⟩
      · obtain ⟨t, moved, rfl⟩ := Option.map_eq_some_iff.mp edge
        refine ⟨?_, inv.step _ moved⟩
        rw [if_pos rfl, fail_eq opened, hello_moves pc moved]
        obtain ⟨length, nothing⟩ := cutAfter_self whole
        refine h.helloEnd inv.clip pc (fun _ => cutAfter_other) (fun l now => ?_) (fun none_ => ?_)
          rfl rfl nofun
        · exact ⟨length l now, _, _, _, line⟩
        · rw [nothing none_] at line
          exact ⟨_, _, line⟩
      · obtain rfl := Option.some.inj edge
        rw [Nat.add_sub_cancel_left]
        refine ⟨h.helloAgain inv.clip pc ?_, ?_⟩
        · rw [frameSize]
          omega
        · rw [State.write, opened]
          exact inv
      · obtain ⟨t, moved, rfl⟩ := Option.map_eq_some_iff.mp edge
        refine ⟨?_, inv.step _ moved⟩
        have greeted : decide (1 ≤ (s.helloBytes : Int)) = true := by
          have five : sizeOf packets 0 = 5 := rfl
          rw [five] at ends
          exact decide_eq_true (by omega)
        have next := line.next (whole_of_end line ends) Nat.zero_lt_one
        rw [if_neg (by omega), hello_moves pc moved, greeted]
        refine h.helloEnd inv.clip pc (fun _ _ => rfl) (fun l cut => ?_) (fun _ => ⟨_, _, next⟩) rfl rfl
          (fun m said => ?_)
        · rw [whole] at cut
          cases cut
        · obtain rfl : a.conn = m := Option.some.inj said
          exact ⟨rfl, whole, _, List.cons_ne_nil _ _, next⟩
  | _ =>
    simp only [step, pc] at edge
    cases edge

theorem send_moves {r : Round} {i : Slot} {t : Tables.State}
    (pc : s.tables.clip.broadcast = .send r i) (moved : Tables.step s.tables .broadcast = some t) :
    t = { s.tables with clip := s.tables.clip.broadcastGoto (.unlockSlot
      { r with sent := (s.tables.clip.connections i).owner.toList ++ r.sent } i) } := by
  simp only [Tables.step, Tables.broadcastStep, pc] at moved
  exact (Option.some.inj moved).symm

theorem Inv.sendTurn {ret : Option Nat} (h : Inv packets s) (inv : Connections.Inv s.tables)
    (ok : fatal s (.broadcast ret)) (edge : step packets s (.broadcast ret) = some s') :
    Inv packets s' ∧ Connections.Inv s'.tables := by
  cases pc : s.tables.clip.broadcast with
  | send r i =>
    have now : sending s.tables.clip.broadcast = some i := by
      rw [pc]
      rfl
    obtain ⟨k, owner, opened⟩ := sending_peer inv.clip now
    simp only [step, pc] at edge
    cases turn : Links.sendTurn (sizeOf packets s.dequeued) s.sendBytes ret with
    | none =>
      rw [turn] at edge
      cases edge
    | some next =>
      simp only [turn] at edge
      rcases sendTurn_cases turn with ⟨rfl, -, more⟩ | ⟨n, rfl, rfl, room⟩ | ⟨rfl, ends⟩
      · obtain ⟨t, moved, rfl⟩ := Option.map_eq_some_iff.mp edge
        refine ⟨?_, inv.step _ moved⟩
        rw [if_pos rfl, fail_eq opened, send_moves pc moved]
        refine h.sendEnd inv.clip pc owner (fun _ => cutAfter_other) (fun real l cut => ?_)
          fun real none_ => ?_
        · rcases h.sends i k real now owner with ⟨whole, frames, _, line⟩ | ⟨_, nothing⟩
          · exact ⟨(cutAfter_self whole).1 l cut, _, _, _, line⟩
          · rw [nothing] at cut
            exact h.broken k l real cut
        · rcases h.sends i k real now owner with ⟨whole, frames, greeted, line⟩ | ⟨cut, nothing⟩
          · rw [(cutAfter_self whole).2 none_] at line
            exact ⟨frames, greeted, line.skip greeted fun f member =>
              Nat.lt_succ_of_lt (line.before member)⟩
          · rw [nothing] at none_
            have none' : s.cut k = none := none_
            rw [none'] at cut
            cases cut
      · obtain rfl := Option.some.inj edge
        rw [Nat.add_sub_cancel_left]
        refine ⟨h.sendAgain inv.clip now ?_ ok, ?_⟩
        · rw [frameSize]
          omega
        · rw [State.write, opened]
          exact inv
      · obtain ⟨t, moved, rfl⟩ := Option.map_eq_some_iff.mp edge
        refine ⟨?_, inv.step _ moved⟩
        rw [if_neg (by omega), send_moves pc moved]
        refine h.sendEnd inv.clip pc owner (fun _ _ => rfl) (fun real l cut => h.broken k l real cut)
          fun real whole => ?_
        rcases h.sends i k real now owner with ⟨_, frames, greeted, line⟩ | ⟨cut, _⟩
        · refine ⟨frames ++ [s.dequeued], by simp, ?_⟩
          exact line.next (whole_of_end line ends) (Nat.lt_succ_self _)
        · rw [whole] at cut
          cases cut
  | _ =>
    simp only [step, pc] at edge
    cases edge

theorem Inv.init (parent : Fd) : Inv packets (links packets parent).init where
  broken k l _ cut := by cases cut
  clean k _ _ := .inr ⟨[], 0, .empty⟩
  fresh k _ := ⟨rfl, rfl⟩
  hello k now := by cases now
  welcome k said := by cases said
  slots j k real owner _ := by
    simp only [links, Tables.tables, Tables.clipInit] at owner
    split at owner
    · obtain rfl : 0 = k := Option.some.inj owner
      cases real
    · cases owner
  sends i k _ now _ := by cases now
  round busy := absurd rfl busy
  helloIdle _ := rfl
  sendIdle _ := rfl

theorem Inv.step {a : Label} (h : Inv packets s) (inv : Connections.Inv s.tables) (ok : fatal s a)
    (edge : Links.step packets s a = some s') : Inv packets s' ∧ Connections.Inv s'.tables := by
  cases a with
  | statement a =>
    simp only [Links.step] at edge
    split at edge
    · cases edge
    · rename_i silent
      obtain ⟨t, moved, rfl⟩ := Option.map_eq_some_iff.mp edge
      exact ⟨h.tables inv (Bool.eq_false_of_not_eq_true silent) moved, inv.step a moved⟩
  | hello ret => exact h.helloTurn inv edge
  | broadcast ret => exact h.sendTurn inv ok edge
  | goodbye =>
    obtain rfl := Option.some.inj edge
    exact ⟨h.alike rfl, ⟨inv.clip, inv.app⟩⟩
  | orphan =>
    simp only [Links.step] at edge
    split at edge
    · obtain rfl := Option.some.inj edge
      refine ⟨?_, inv.orphan⟩
      exact h.statement rfl (fun _ _ => rfl) (fun _ _ owner => .inl owner) (Nat.le_refl _)
        (fun _ waits => .inr waits) (fun _ _ => .inr rfl) (fun _ _ => rfl) fun _ said => said
    · cases edge

theorem inv_of_reach {parent : Fd} (h : (links packets parent).Reach fatal s) :
    Inv packets s ∧ Connections.Inv s.tables :=
  h.invariant (I := fun s => Inv packets s ∧ Connections.Inv s.tables)
    ⟨Inv.init parent, Connections.Inv.init parent⟩
    fun _ _ _ inv ok edge => inv.1.step inv.2 ok edge

end Steps

section Result

def InTransit (s : State) (k n sent : Nat) : Prop :=
  greeting s.tables.clip.listen = some k ∧ n = 0 ∧ sent = s.helloBytes ∨
    (∃ i, sending s.tables.clip.broadcast = some i ∧
      (s.tables.clip.connections i).owner = some k) ∧ n = s.dequeued ∧ sent = s.sendBytes

/-- What has been written on the connection: whole frames in the order of the queue, the hello
packet first, and at the end perhaps a part of one, which is being sent or has been cut short.
Nothing follows a frame cut short. -/
structure Whole (packets : Nat → List UInt8) (s : State) (k : Nat) : Prop where
  line : ∃ frames n sent, Line (frameSize packets) (s.wire k) frames n sent ∧
    (sent = 0 ∨ InTransit s k n sent ∨ s.cut k = some (s.wire k).length)
  last : ∀ l, s.cut k = some l → (s.wire k).length = l

variable {packets} {s : State}

theorem Inv.whole (h : Inv packets s) {k : Nat} (real : 1 ≤ k) : Whole packets s k where
  last l cut := (h.broken k l real cut).1
  line := by
    cases cut : s.cut k with
    | some l =>
      obtain ⟨length, frames, n, sent, line⟩ := h.broken k l real cut
      exact ⟨frames, n, sent, line, .inr (.inr (by rw [length]))⟩
    | none =>
      rcases h.clean k real cut with (greets | ⟨i, now, owner⟩) | ⟨frames, n, line⟩
      · exact ⟨[], 0, s.helloBytes, (h.hello k greets).2, .inr (.inl (.inl ⟨greets, rfl, rfl⟩))⟩
      · rcases h.sends i k real now owner with ⟨_, frames, _, line⟩ | ⟨cut', _⟩
        · exact ⟨frames, s.dequeued, s.sendBytes, line,
            .inr (.inl (.inr ⟨⟨i, now, owner⟩, rfl, rfl⟩))⟩
        · rw [cut] at cut'
          cases cut'
      · exact ⟨frames, n, 0, line, .inl rfl⟩

/-- In every run in which a `send` that fails in the middle of a frame fails for good, every
connection `clipif_listen` has accepted carries whole frames and at most a part of one at its end,
and nothing follows a frame cut short. -/
theorem whole_frames {parent : Fd} (h : (links packets parent).Reach fatal s) {k : Nat}
    (accepted : 1 ≤ k) : Whole packets s k := (inv_of_reach h).1.whole accepted

end Result

/-- Clock packets. -/
private def clockPackets (n : Nat) : List UInt8 :=
  PacketSync.bytes ⟨PacketType.timeSync.code, .ofNat n⟩

private def tornRun : List Label :=
  [Label.statement (.clipAccept (some 4)), .statement (.clipListen true),
    .statement (.clipListen true), .hello (some 2), .hello (some 3), .hello none] ++
    List.replicate 7 (Label.statement (.clipListen true)) ++
    [Label.goodbye, .goodbye] ++ List.replicate 3 (Label.statement .broadcast) ++
    [Label.broadcast (some 2), .broadcast none]

private def nextPacket : List Label :=
  List.replicate (3 * maxClipboards - 1) (Label.statement .broadcast) ++
    List.replicate 3 (Label.statement .broadcast)

private instance : ∀ s a, Decidable (fatal s a)
  | _, .broadcast (some _) => inferInstanceAs (Decidable (_ → _))
  | _, .broadcast none => .isTrue trivial
  | _, .statement _ => .isTrue trivial
  | _, .hello _ => .isTrue trivial
  | _, .goodbye => .isTrue trivial
  | _, .orphan => .isTrue trivial

theorem whole_frames_reset : ∃ s, (links clockPackets 0).Reach fatal s ∧
    (s.wire 1 = chunk 0 0 5 ++ chunk 1 0 2 ∧ s.cut 1 = some 7 ∧ s.dequeued = 2) ∧
    Whole clockPackets s 1 := by
  have reached : ∃ s, (links clockPackets 0).Reach fatal s ∧
      decide (s.wire 1 = chunk 0 0 5 ++ chunk 1 0 2 ∧ s.cut 1 = some 7 ∧ s.dequeued = 2) = true :=
    System.reach_of_guardedRun _ true (tornRun ++ nextPacket ++ [.broadcast none])
      (by decide +kernel)
  obtain ⟨s, reached, seen⟩ := reached
  exact ⟨s, reached, of_decide_eq_true seen, whole_frames reached (by decide)⟩

/-- The failed `send` was not fatal: the next packet goes out behind the part of the first one. -/
theorem torn_frame_followed : ∃ s, (links clockPackets 0).Reach System.anyStep s ∧
    s.wire 1 = chunk 0 0 5 ++ chunk 1 0 2 ++ chunk 2 0 5 ∧ ¬ Whole clockPackets s 1 := by
  have reached : ∃ s, (links clockPackets 0).Reach System.anyStep s ∧
      decide (s.wire 1 = chunk 0 0 5 ++ chunk 1 0 2 ++ chunk 2 0 5 ∧ s.cut 1 = some 7) = true :=
    System.reach_of_run _ true (tornRun ++ nextPacket ++ [.broadcast (some 5)])
      (by simp [System.anyStep]) (by decide +kernel)
  obtain ⟨s, reached, seen⟩ := reached
  obtain ⟨bytes, cut⟩ := of_decide_eq_true seen
  refine ⟨s, reached, bytes, fun whole => ?_⟩
  have length := whole.last 7 cut
  rw [bytes] at length
  cases length

end DistributedClipboard.Interfaces.WholeFrames
