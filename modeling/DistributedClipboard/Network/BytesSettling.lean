/- module: DistributedClipboard/Network/BytesSettling
   source: src/src/interfaces/clipif.c, src/src/interfaces/appif.c, src/src/mem/clmem.c,
     src/src/utils/packet.c
   layer: theorem
   digest: Bounded buffers block nobody for ever: every byte is read, and the newest copies are everywhere. -/

import DistributedClipboard.Network.BytesRefinement
import DistributedClipboard.Network.Quiescence

set_option autoImplicit false
set_option relaxedAutoImplicit false

namespace DistributedClipboard.Network.BytesSettling

open DistributedClipboard.Common
open DistributedClipboard.Lib.Counting
open DistributedClipboard.Lib.Stream
open DistributedClipboard.Lib.Transition
open DistributedClipboard.Network.Bytes
open DistributedClipboard.Network.BytesRefinement
open DistributedClipboard.Network.Conservation (Conserved conserved_of_reach pushes)
open DistributedClipboard.Interfaces.ClipSlave (World)
open DistributedClipboard.Network.Convergence (everywhere_of_quiet exists_newest)
open DistributedClipboard.Network.Delivery
open DistributedClipboard.Network.Flood (Packet Peer flood)
open DistributedClipboard.Network.Pastes (known_of_reach)
open DistributedClipboard.Network.Quiescence (comes_to_rest issued_of_internal)
open DistributedClipboard.Network.Routes
open DistributedClipboard.Utils.Packet
open Proc (Runs)

universe u

variable {V : Type u} [DecidableEq V]

/-- What the clipboards do of their own accord: everything but an application's copy. -/
def internal : State V → Label V → Prop
  | _, .issue .. => False
  | _, _ => True

/-- No packet and no part of one is queued, being written, in a buffer or being handled. -/
structure Quiet (s : State V) : Prop where
  queues : ∀ v, (s.node v).queue = []
  written : ∀ v, (s.node v).sending = []
  links : ∀ u v, s.link u v = []
  slaves : ∀ v x, ∃ err, (s.node v).slave x = .reading err []

/-- The clipboard has the bytes of a copy that carries the greatest timestamp, if there is any copy to
the region. -/
def HoldsNewest (s : State V) (v : V) (r : Region) : Prop :=
  match ((s.node v).store r).data with
  | none => ∀ i ∈ s.issued, ¬ Lands i.p r
  | some data => ∃ i ∈ s.issued, Lands i.p r ∧ i.p.data = data ∧
      ∀ j ∈ s.issued, Lands j.p r → stamp j.p ≤ stamp i.p

def toWrite (sending : List (V × List UInt8)) : Nat := (sending.map fun x => x.2.length).sum

/-- How often the bytes on their way have still to be moved: those in a buffer are read, and the others
are written first. -/
def toMove [Fintype V] (s : State V) : Nat :=
  ∑ e : V × V, (s.link e.1 e.2).length + 2 * ∑ v, toWrite (s.node v).sending

section Moves

variable [Fintype V] {table : V → List V} {room : V → V → Nat}
  {world : V → V → Nat → World} {s s' : State V} {u v : V}
  {x : Peer V} {n : Nat}

theorem toMove_le {m : Node V} {j k : Nat} (u w : V) (node : s'.node = (s.setNode v m).node)
    (link : ∀ a b, ¬(a = u ∧ b = w) → s'.link a b = s.link a b)
    (bound : (s'.link u w).length + 2 * toWrite m.sending + j ≤
      (s.link u w).length + 2 * toWrite (s.node v).sending + k) : toMove s' + j ≤ toMove s + k := by
  have links : _ + (s.link u w).length = _ + (s'.link u w).length :=
    sum_change (fun e : V × V => (s.link e.1 e.2).length)
      (fun e : V × V => (s'.link e.1 e.2).length) (u, w) (Finset.mem_univ _) fun e other => by
        rw [link e.1 e.2 fun same => other (Prod.ext same.1 same.2)]
  have nodes : _ + toWrite (s.node v).sending = _ + toWrite (s'.node v).sending :=
    sum_change (fun w => toWrite (s.node w).sending) (fun w => toWrite (s'.node w).sending) v
      (Finset.mem_univ v) fun w other => by rw [node, setNode_of_ne other]
  have here : s'.node v = m := by rw [node, setNode_self]
  rw [here] at nodes
  unfold toMove
  omega

theorem toMove_read (edge : readStep world s v u n = some s') : toMove s' < toMove s := by
  unfold readStep at edge
  split at edge
  case h_2 => cases edge
  case h_1 err got state =>
    simp only at edge
    split at edge
    case isFalse => cases edge
    case isTrue able =>
      obtain ⟨some_, _, there⟩ := able
      cases edge
      refine toMove_le (j := 1) (k := 0) u v rfl ?_ ?_
      · intro a b other
        exact if_neg other
      · simp only [and_self, if_true, List.length_drop]
        show _ + 2 * toWrite (s.node v).sending + 1 ≤ _
        omega

omit [Fintype V] [DecidableEq V] in
theorem toWrite_afterWrite {bytes : List UInt8} (w : V) (rest : List (V × List UInt8))
    (enough : n ≤ bytes.length) :
    toWrite (afterWrite n w bytes rest) + n = toWrite ((w, bytes) :: rest) := by
  rw [toWrite, toWrite, afterWrite, List.map_cons, List.sum_cons]
  by_cases all : n = bytes.length
  · rw [if_pos all]
    show _ + n = bytes.length + _
    omega
  · rw [if_neg all, List.map_cons, List.sum_cons, List.length_drop]
    show _ + n = bytes.length + _
    omega

theorem toMove_write (edge : writeStep room s v n = some s') : toMove s' < toMove s := by
  unfold writeStep at edge
  split at edge
  case h_2 => cases edge
  case h_1 w bytes rest sending =>
    split at edge
    case isFalse => cases edge
    case isTrue able =>
      obtain ⟨some_, enough, _⟩ := able
      cases edge
      refine toMove_le (j := 1) (k := 0) v w rfl ?_ ?_
      · intro a b other
        exact if_neg other
      · have less := toWrite_afterWrite w rest enough
        rw [← sending] at less
        simp only [and_self, if_true, List.length_append, List.length_take_of_le enough]
        omega

theorem toMove_put (edge : putStep s v x = some s') : toMove s' ≤ toMove s := by
  unfold putStep at edge
  split at edge
  case h_2 => cases edge
  case h_1 err c state =>
    cases edge
    exact toMove_le (j := 0) (k := 0) v v rfl (fun a b _ => rfl) (Nat.le_refl _)

theorem toMove_push (edge : pushStep s v x = some s') : toMove s' ≤ toMove s := by
  unfold pushStep at edge
  split at edge
  case h_2 => cases edge
  case h_1 err c state =>
    cases edge
    exact toMove_le (j := 0) (k := 0) v v rfl (fun a b _ => rfl) (Nat.le_refl _)

omit [Fintype V] in
theorem toWrite_targets (table : List V) (b : Broadcast V) :
    toWrite (targets table b) ≤ table.length * b.packet.length := by
  unfold toWrite targets
  simp only
  split
  · exact Nat.zero_le _
  · rw [List.map_map]
    refine (List.sum_le_card_nsmul _ b.packet.length fun y mine => ?_).trans ?_
    · obtain ⟨w, _, rfl⟩ := List.mem_map.mp mine
      exact List.length_take_le' ..
    · rw [List.length_map, smul_eq_mul]
      exact Nat.mul_le_mul_right _ (List.length_filter_le ..)

theorem toMove_pop {bound : Nat} (once : (table v).Nodup)
    (short : ∀ b ∈ (s.node v).queue, b.packet.length ≤ bound)
    (edge : popStep table s v = some s') :
    toMove s' ≤ toMove s + 2 * (Fintype.card V * bound) := by
  unfold popStep at edge
  split at edge
  case h_2 => cases edge
  case h_1 b rest written queue =>
    cases edge
    refine toMove_le (j := 0) v v rfl (fun a b _ => rfl) ?_
    have few := once.length_le_card
    have small := short b (by rw [queue]; exact List.mem_cons_self)
    have each := toWrite_targets (table v) b
    have all : (table v).length * b.packet.length ≤ Fintype.card V * bound := Nat.mul_le_mul few small
    show (s.link v v).length + 2 * toWrite (targets (table v) b) + 0 ≤ _
    omega

end Moves

section Rest

variable {G : SimpleGraph V} [DecidableRel G.Adj] {table : V → List V} {room : V → V → Nat}
  {world : V → V → Nat → World} {s s' : State V} {t : Flood.State V} {u v : V}

theorem asks_for (inv : Conserved G t) (stored : ∀ w, Stored (t.node w)) (rep : Represents s t)
    {err : Int} {got : List UInt8} (state : (s.node v).slave (.clip u) = .reading err got)
    {x : World} (granted : Granted x) (alive : 1 ≤ err) (waits : (turn x err).exec got = none)
    (busy : t.link u v ≠ []) :
    0 < (turn x err).wants got ∧ s.link u v ++ unsent (s.node u) v ≠ [] := by
  obtain ⟨p, rest, next⟩ := List.exists_cons_of_ne_nil busy
  have mine : p ∈ t.link u v := by
    rw [next]
    exact List.mem_cons_self
  obtain ⟨_, received⟩ := filled_of_link inv stored mine
  have way := rep.streams u v
  rw [stream, state, gotten, next, List.flatMap_cons] at way
  obtain ⟨_, runs, _⟩ := turn_frame granted alive received
  obtain ⟨left, more, split, behind⟩ := runs.prefix_of_waits waits way
  rw [split] at runs
  refine ⟨(runs.wants more).2.1, ?_⟩
  rw [behind]
  exact List.append_ne_nil_of_left_ne_nil more _

theorem quiet_of_stuck (rooms : ∀ u v, 0 < room u v) (granted : ∀ v u k, Granted (world v u k))
    (inv : Conserved G t)
    (stored : ∀ w, Stored (t.node w)) (rep : Represents s t)
    (stuck : (bytes table room world).Stuck internal s) : Quiet s ∧ Flood.Quiet t := by
  have slaves (v : V) (x : Peer V) : (t.node v).slave x = .idle ∧
      ∃ err got, (s.node v).slave x = .reading err got ∧ 1 ≤ err ∧
        (∀ w, Granted w → (turn w err).exec got = none) ∧ ∀ k, x = .app k → got = [] := by
    have means := (rep.nodes v).slave x
    generalize state : (s.node v).slave x = st at means
    generalize (t.node v).slave x = st' at means
    cases means with
    | idle alive waits apps => exact ⟨rfl, _, _, rfl, alive, waits, apps⟩
    | received alive p =>
      have none_ := stuck (.put v x) trivial
      simp [bytes, step, putStep, state] at none_
    | placed alive p =>
      have none_ := stuck (.push v x) trivial
      simp [bytes, step, pushStep, state] at none_
  have links (u v : V) : s.link u v = [] := by
    by_contra filled
    obtain ⟨_, err, got, state, alive, waits, _⟩ := slaves v (.clip u)
    have busy : t.link u v ≠ [] := by
      intro nothing
      have way := rep.streams u v
      rw [nothing, List.flatMap_nil, stream, List.append_eq_nil_iff, List.append_eq_nil_iff] at way
      exact filled way.2.1
    have mallocs := granted v u (s.turns v u)
    have asks := (asks_for inv stored rep state mallocs alive (waits _ mallocs) busy).1
    have some_ := List.length_pos_iff.mpr filled
    have none_ := stuck (.read v u 1) trivial
    have able : 0 < 1 ∧ 1 ≤ (turn (world v u (s.turns v u)) err).wants got ∧
        1 ≤ (s.link u v).length :=
      ⟨Nat.one_pos, asks, some_⟩
    simp only [bytes, step, readStep, state, if_pos able] at none_
    cases none_
  have written (v : V) : (s.node v).sending = [] := by
    cases sending : (s.node v).sending with
    | nil => rfl
    | cons x rest =>
      obtain ⟨w, bs⟩ := x
      have some_ := rep.filled v (w, bs) (by rw [sending]; exact List.mem_cons_self)
      have none_ := stuck (.write v 1) trivial
      have able : 0 < 1 ∧ 1 ≤ bs.length ∧ (s.link v w).length + 1 ≤ room v w := by
        rw [links]
        exact ⟨Nat.one_pos, List.length_pos_iff.mpr some_, rooms v w⟩
      simp only [bytes, step, writeStep, sending, if_pos able] at none_
      cases none_
  have queues (v : V) : (s.node v).queue = [] := by
    cases queue : (s.node v).queue with
    | nil => rfl
    | cons b rest =>
      have none_ := stuck (.pop v) trivial
      simp [bytes, step, popStep, written v, queue] at none_
  have empty (u v : V) : t.link u v = [] := by
    by_contra busy
    obtain ⟨_, err, got, state, alive, waits, _⟩ := slaves v (.clip u)
    have mallocs := granted v u (s.turns v u)
    apply (asks_for inv stored rep state mallocs alive (waits _ mallocs) busy).2
    rw [links, unsent, written]
    rfl
  refine ⟨⟨queues, written, links, fun v x => ?_⟩, ⟨fun v => ?_, empty, fun v x => (slaves v x).1⟩⟩
  · obtain ⟨_, err, got, state, _, _, apps⟩ := slaves v x
    have nothing : got = [] := by
      cases x with
      | app k => exact apps k rfl
      | clip u =>
        have way := rep.streams u v
        rw [empty, List.flatMap_nil, stream, state, List.append_eq_nil_iff] at way
        exact way.1
    exact ⟨err, nothing ▸ state⟩
  · have same := (rep.nodes v).queue
    rw [queues] at same
    exact List.map_eq_nil_iff.mp same.symm

theorem stuck_of_quiet (quiet : Flood.Quiet t) : (flood G).Stuck Quiescence.internal t := by
  intro a own
  cases a with
  | issue v k region data stamp => exact absurd own id
  | receive v u => simp [flood, Flood.step, Flood.receiveStep, quiet.slaves, quiet.links]
  | put v x => simp [flood, Flood.step, Flood.putStep, quiet.slaves]
  | push v x => simp [flood, Flood.step, Flood.pushStep, quiet.slaves]
  | broadcast v => simp [flood, Flood.step, Flood.broadcastStep, quiet.queues]

theorem holdsNewest (rep : Represents s t) (known : Pastes.Known t) (inv : Conserved G t)
    (stored : ∀ w, Stored (t.node w)) (everywhere : NewestEverywhere t) (v : V) (r : Region) :
    HoldsNewest s v r := by
  have greatest {i : Flood.Issue V} (issued : i ∈ t.issued) (lands : Lands i.p r) :
      ((t.node v).store r).data.isSome = true ∧
        ∀ j ∈ t.issued, Lands j.p r → stamp j.p ≤ ((t.node v).store r).updateCond := by
    obtain ⟨j, newest⟩ := exists_newest issued lands
    have most : newestStamp t r = some (stamp j.p) :=
      newestStamp_eq_some_iff.mpr ⟨⟨j, newest.1, newest.2.1, rfl⟩, newest.2.2⟩
    obtain ⟨⟨filled, cond⟩, _⟩ := everywhere r _ most v
    exact ⟨filled, cond ▸ newest.2.2⟩
  unfold HoldsNewest
  rw [rep.issued, (rep.nodes v).store]
  cases data : ((t.node v).store r).data with
  | none =>
    intro i issued lands
    have filled := (greatest issued lands).1
    rw [data] at filled
    cases filled
  | some bs =>
    obtain ⟨q, put, _, lands, same, cond⟩ := (stored v).origin r (by rw [data]; rfl)
    obtain ⟨i, issued, equal⟩ := known _ _ _ (sent_of_put inv put)
    refine ⟨i, issued, equal ▸ lands, ?_, ?_⟩
    · rw [equal]
      exact Option.some.inj (same.symm.trans data)
    · rw [equal, ← cond]
      exact (greatest issued (equal ▸ lands)).2

variable [Fintype V] {L : Nat}

theorem ranked (wired : Wired G table) (granted : ∀ v u k, Granted (world v u k)) :
    System.Ranked (bytes table room world) internal (flood G)
    Quiescence.internal (fun s t => (flood G).Reach System.anyStep t ∧ Represents s t ∧
      ∀ i ∈ t.issued, i.p.data.length ≤ L) toMove (2 * (Fintype.card V * (packetDataSize + L))) := by
  intro s a s' t related own edge
  obtain ⟨reached, rep, sizes⟩ := related
  have inv := conserved_of_reach reached
  have matched {b : Flood.Label V} {t' : Flood.State V} (mine : Quiescence.internal t b)
      (edge : Flood.step G t b = some t') (rep' : Represents s' t')
      (moves : toMove s' ≤ toMove s + 2 * (Fintype.card V * (packetDataSize + L))) :
      ∃ b t', Quiescence.internal t b ∧ (flood G).step t b = some t' ∧
        ((flood G).Reach System.anyStep t' ∧ Represents s' t' ∧
          ∀ i ∈ t'.issued, i.p.data.length ≤ L) ∧
        toMove s' ≤ toMove s + 2 * (Fintype.card V * (packetDataSize + L)) := by
    refine ⟨b, t', mine, edge, ⟨reached.trans (.single trivial edge), rep', ?_⟩, moves⟩
    rw [issued_of_internal mine edge]
    exact sizes
  cases a with
  | issue v k region data stamp => exact absurd own id
  | read v u n =>
    have falls := toMove_read edge
    rcases read_simulated inv (stored_of_reach reached) granted rep edge with part | ⟨t', edge', rep'⟩
    · exact .inl ⟨⟨reached, part, sizes⟩, falls⟩
    · exact .inr (matched (b := .receive v u) trivial edge' rep' (by omega))
  | put v x =>
    obtain ⟨t', edge', rep'⟩ := put_simulated rep edge
    exact .inr (matched (b := .put v x) trivial edge' rep' ((toMove_put edge).trans (by omega)))
  | push v x =>
    obtain ⟨t', edge', rep'⟩ := push_simulated rep edge
    exact .inr (matched (b := .push v x) trivial edge' rep' ((toMove_push edge).trans (by omega)))
  | pop v =>
    obtain ⟨t', edge', rep'⟩ := pop_simulated wired inv rep edge
    refine .inr (matched (b := .broadcast v) trivial edge' rep' (toMove_pop (wired.once v) ?_ edge))
    intro b mine
    rw [(rep.nodes v).queue] at mine
    obtain ⟨b, queued, rfl⟩ := List.mem_map.mp mine
    have pushed : b ∈ pushes (t.node v) := List.mem_append_right _ queued
    obtain ⟨i, issued, equal⟩ := known_of_reach reached _ _ _ (sent_of_pushed inv pushed)
    have fits := sizes i issued
    rw [equal] at fits
    show (frame b.p).length ≤ _
    rw [frame, List.length_append, PacketData.length_bytes]
    omega
  | write v n => exact .inl ⟨⟨reached, write_simulated rep edge, sizes⟩, toMove_write edge⟩

end Rest

end DistributedClipboard.Network.BytesSettling
