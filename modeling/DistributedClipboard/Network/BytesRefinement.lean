/- module: DistributedClipboard/Network/BytesRefinement
   source: src/src/interfaces/clipif.c, src/src/interfaces/appif.c, src/src/mem/clmem.c,
     src/src/utils/packet.c
   layer: refinement
   digest: However the bytes are written and read, the clipboards do what they do with whole packets. -/

import DistributedClipboard.Lib.Simulation
import DistributedClipboard.Network.BrokenLinks
import DistributedClipboard.Network.Bytes

set_option autoImplicit false
set_option relaxedAutoImplicit false

namespace DistributedClipboard.Network.BytesRefinement

open DistributedClipboard.Common
open DistributedClipboard.Interfaces.ClipSlave (World slave_blocked)
open DistributedClipboard.Lib.Stream
open DistributedClipboard.Lib.Transition
open DistributedClipboard.Mem.Clmem
open DistributedClipboard.Network.Ties (put_of_pushed)
open DistributedClipboard.Network.Bytes
open DistributedClipboard.Network.Conservation (Conserved conserved_of_reach pushes)
open DistributedClipboard.Network.Delivery
open DistributedClipboard.Network.Flood (Packet Peer flood Forwards firstApp)
open DistributedClipboard.Network.Pastes (known_of_reach)
open DistributedClipboard.Network.Routes
open DistributedClipboard.Utils.Packet
open Proc (Runs)

universe u

variable {V : Type u} [DecidableEq V]

def encode (b : Flood.Broadcast V) : Broadcast V := ⟨frame b.p, b.fromPeer⟩

def unsent (n : Node V) (w : V) : List UInt8 :=
  n.sending.flatMap fun x => if x.1 = w then x.2 else []

def gotten : SlaveState → List UInt8
  | .reading _ got => got
  | _ => []

def stream (s : State V) (u v : V) : List UInt8 :=
  gotten ((s.node v).slave (.clip u)) ++ (s.link u v ++ unsent (s.node u) v)

inductive Means (x : Peer V) : SlaveState → Flood.SlaveState → Prop
  | idle {err : Int} {got : List UInt8} (alive : 1 ≤ err)
      (waits : ∀ w, Granted w → (turn w err).exec got = none)
      (apps : ∀ k, x = .app k → got = []) : Means x (.reading err got) .idle
  | received {err : Int} (alive : 1 ≤ err) (p : Packet) : Means x (.received err (copy p)) (.received p)
  | placed {err : Int} (alive : 1 ≤ err) (p : Packet) : Means x (.placed err (copy p)) (.placed p)

structure NodeMeans (n : Node V) (m : Flood.Node V) : Prop where
  store : n.store = m.store
  queue : n.queue = m.queue.map encode
  slave : ∀ x, Means x (n.slave x) (m.slave x)

/-- The bytes on their way are those of the packets on their way, and all else is the same. -/
structure Represents (s : State V) (t : Flood.State V) : Prop where
  nodes : ∀ v, NodeMeans (s.node v) (t.node v)
  streams : ∀ u v, stream s u v = (t.link u v).flatMap frame
  filled : ∀ v, ∀ x ∈ (s.node v).sending, x.2 ≠ []
  issued : s.issued = t.issued

section Packets

variable {G : SimpleGraph V} [DecidableRel G.Adj] {t : Flood.State V} {u v : V} {p : Packet}

theorem received_of_sent (inv : Conserved G t) {x : Peer V} (mine : p ∈ t.sent v x) :
    p.received = true := by
  cases x with
  | app k =>
    rw [inv.issued] at mine
    obtain ⟨i, passes, rfl⟩ := List.mem_map.mp mine
    exact (Bool.and_eq_true_iff.mp (List.mem_filter.mp passes).2).2
  | clip u =>
    obtain ⟨b, _, rfl, _, _, sendable⟩ := broadcast_of_sent inv mine
    have small := Flood.Packet.sendable_iff.mp sendable
    exact Flood.Packet.received_iff.mpr (by omega)

theorem filled_of_link (inv : Conserved G t) (stored : ∀ w, Stored (t.node w))
    (mine : p ∈ t.link u v) : p.data ≠ [] ∧ p.received = true := by
  have sent : p ∈ t.sent v (.clip u) := by
    rw [inv.arrived]
    exact List.mem_append_right _ (List.mem_append_right _ mine)
  obtain ⟨b, passed, rfl, _⟩ := broadcast_of_sent inv sent
  obtain ⟨q, put, same, kept⟩ := put_of_pushed inv (List.mem_append_left _ passed)
  obtain ⟨r, lands, _⟩ := (stored u).accepted q put kept
  exact ⟨same ▸ lands.2, received_of_sent inv sent⟩

end Packets

section Parts

variable {s s' : State V} {t t' : Flood.State V} {n : Node V} {m : Flood.Node V} {v w : V} {x : Peer V}
  {st : SlaveState} {st' : Flood.SlaveState} {err : Int}

theorem setNode_self : (s.setNode v n).node v = n := Function.update_self ..

theorem setNode_of_ne (other : w ≠ v) : (s.setNode v n).node w = s.node w :=
  Function.update_of_ne other ..

theorem waits_nil (world : World) (alive : 1 ≤ err) : (turn world err).exec [] = none := by
  obtain ⟨n, next, waits⟩ := slave_blocked (w := answers world) (s := ⟨err, []⟩) alive
  rw [turn, waits, Proc.exec, if_neg (by simp)]

omit [DecidableEq V] in
theorem Means.next (alive : 1 ≤ err) : Means x (.reading err []) .idle :=
  .idle alive (fun world _ => waits_nil world alive) fun _ _ => rfl

theorem NodeMeans.slave_update (h : ∀ y, Means y (n.slave y) (m.slave y)) (new : Means x st st') :
    ∀ y, Means y (Function.update n.slave x st y) (Function.update m.slave x st' y) := by
  intro y
  by_cases same : y = x
  · subst same
    rw [Function.update_self, Function.update_self]
    exact new
  · rw [Function.update_of_ne same, Function.update_of_ne same]
    exact h y

theorem nodes_setNode (h : ∀ w, NodeMeans (s.node w) (t.node w)) (new : NodeMeans n m) :
    ∀ w, NodeMeans ((s.setNode v n).node w) ((t.setNode v m).node w) := by
  intro w
  by_cases here : w = v
  · subst here
    rw [setNode_self, Conservation.setNode_self]
    exact new
  · rw [setNode_of_ne here, Conservation.setNode_of_ne here]
    exact h w

theorem nodes_setNode_of_means (h : ∀ w, NodeMeans (s.node w) (t.node w))
    (new : NodeMeans n (t.node v)) : ∀ w, NodeMeans ((s.setNode v n).node w) (t.node w) := by
  have nodes := nodes_setNode (v := v) h new
  rwa [Flood.State.setNode, Function.update_eq_self] at nodes

theorem gotten_setNode (read : ∀ y, gotten (n.slave y) = gotten ((s.node v).slave y)) (w : V)
    (y : Peer V) : gotten (((s.setNode v n).node w).slave y) = gotten ((s.node w).slave y) := by
  by_cases here : w = v
  · subst here
    rw [setNode_self, read]
  · rw [setNode_of_ne here]

theorem stream_setNode (node : s'.node = (s.setNode v n).node) (link : s'.link = s.link)
    (read : ∀ y, gotten (n.slave y) = gotten ((s.node v).slave y))
    (written : n.sending = (s.node v).sending) (a w : V) : stream s' a w = stream s a w := by
  have writer : unsent ((s.setNode v n).node a) w = unsent (s.node a) w := by
    by_cases here : a = v
    · subst here
      rw [setNode_self, unsent, unsent, written]
    · rw [setNode_of_ne here]
  rw [stream, stream, node, gotten_setNode read, writer, link]

theorem gotten_update {slaves : Peer V → SlaveState} (same : gotten st = gotten (slaves x))
    (y : Peer V) : gotten (Function.update slaves x st y) = gotten (slaves y) := by
  by_cases here : y = x
  · subst here
    rw [Function.update_self, same]
  · rw [Function.update_of_ne here]

theorem filled_setNode (h : ∀ w, ∀ x ∈ (s.node w).sending, x.2 ≠ [])
    (new : ∀ x ∈ n.sending, x.2 ≠ []) :
    ∀ w, ∀ x ∈ ((s.setNode v n).node w).sending, x.2 ≠ [] := by
  intro w
  by_cases here : w = v
  · subst here
    rw [setNode_self]
    exact new
  · rw [setNode_of_ne here]
    exact h w

theorem Represents.inside (rep : Represents s t) (node : s'.node = (s.setNode v n).node)
    (node' : t'.node = (t.setNode v m).node) (link : s'.link = s.link) (link' : t'.link = t.link)
    (issued : s'.issued = t'.issued) (means : NodeMeans n m)
    (read : ∀ y, gotten (n.slave y) = gotten ((s.node v).slave y))
    (written : n.sending = (s.node v).sending) : Represents s' t' := by
  refine ⟨?_, fun a w => ?_, ?_, issued⟩
  · rw [node, node']
    exact nodes_setNode rep.nodes means
  · rw [stream_setNode node link read written, link']
    exact rep.streams a w
  · rw [node]
    apply filled_setNode rep.filled
    rw [written]
    exact rep.filled v

theorem unsent_targets {table : List V} (once : table.Nodup) (b : Broadcast V) (w : V) :
    (targets table b).flatMap (fun x => if x.1 = w then x.2 else []) =
      if w ∈ table ∧ b.fromPeer ≠ .clip w then
        b.packet.take (transferred (Interfaces.LinkCodec.sendSize b.packet).toNat) else [] := by
  generalize whole : b.packet.take (transferred (Interfaces.LinkCodec.sendSize b.packet).toNat) = bs
  rw [targets, whole]
  by_cases nothing : bs = []
  · simp [nothing]
  · rw [if_neg nothing]
    induction table with
    | nil => simp
    | cons a rest ih =>
      obtain ⟨fresh, once⟩ := List.nodup_cons.mp once
      by_cases goes : b.fromPeer ≠ .clip a
      · rw [List.filter_cons_of_pos (by simpa using goes), List.map_cons, List.flatMap_cons, ih once]
        by_cases same : a = w
        · subst same
          simp [fresh, goes]
        · simp [same, Ne.symm same]
      · rw [List.filter_cons_of_neg (by simpa using goes), ih once]
        by_cases same : a = w
        · subst same
          simp [fresh, goes]
        · simp [Ne.symm same]

theorem filled_targets (table : List V) (b : Broadcast V) : ∀ x ∈ targets table b, x.2 ≠ [] := by
  intro x mine
  simp only [targets] at mine
  split at mine
  case isTrue => cases mine
  case isFalse some_ =>
    obtain ⟨w, _, rfl⟩ := List.mem_map.mp mine
    exact some_

variable {k : Nat} {bs : List UInt8} {rest : List (V × List UInt8)}

theorem unsent_afterWrite (y : V) :
    (afterWrite k w bs rest).flatMap (fun x => if x.1 = y then x.2 else []) =
      (if w = y then bs.drop k else []) ++ rest.flatMap fun x => if x.1 = y then x.2 else [] := by
  rw [afterWrite]
  by_cases all : k = bs.length
  · simp [all]
  · simp [all]

omit [DecidableEq V] in
theorem filled_afterWrite (enough : k ≤ bs.length) (h : ∀ x ∈ (w, bs) :: rest, x.2 ≠ []) :
    ∀ x ∈ afterWrite k w bs rest, x.2 ≠ [] := by
  intro x mine
  rw [afterWrite] at mine
  split at mine
  case isTrue => exact h x (List.mem_cons_of_mem _ mine)
  case isFalse part =>
    rcases List.mem_cons.mp mine with rfl | later
    · intro nothing
      have length := congrArg List.length nothing
      rw [List.length_drop, List.length_nil] at length
      omega
    · exact h x (List.mem_cons_of_mem _ later)

end Parts

section Steps

variable {G : SimpleGraph V} [DecidableRel G.Adj] {table : V → List V} {room : V → V → Nat}
  {world : V → V → Nat → World}
  {s s' : State V} {t : Flood.State V} {u v : V} {x : Peer V} {n : Nat}

theorem issue_simulated (rep : Represents s t) {k : Fin maxApps} {region : UInt8}
    {data : List UInt8} {stamp : UInt32} (edge : issueStep s v k region data stamp = some s') :
    ∃ t', Flood.issueStep t v k region data stamp = some t' ∧ Represents s' t' := by
  have node := rep.nodes v
  have means := node.slave (.app k)
  unfold issueStep at edge
  cases idle : (s.node v).slave (.app k) with
  | received err c => simp [idle] at edge
  | placed err c => simp [idle] at edge
  | reading err got =>
    rw [idle] at means edge
    generalize state : (t.node v).slave (.app k) = st at means
    cases means with
    | idle alive _ apps =>
      obtain rfl := apps k rfl
      simp only [rep.issued] at edge
      by_cases fits : data.length < 2 ^ 32
      · rw [if_pos fits] at edge
        by_cases whole : (⟨t.issued.length, region, data, stamp⟩ : Packet).received = true
        · rw [if_pos whole] at edge
          cases edge
          refine ⟨_, by rw [Flood.issueStep, if_pos ⟨state, fits⟩, if_pos whole], ?_⟩
          refine rep.inside rfl rfl rfl rfl rfl
            ⟨node.store, node.queue, NodeMeans.slave_update node.slave (.received alive _)⟩
            (gotten_update ?_) rfl
          rw [idle]
          rfl
        · rw [if_neg whole] at edge
          cases edge
          refine ⟨_, by rw [Flood.issueStep, if_pos ⟨state, fits⟩, if_neg whole], ?_⟩
          exact ⟨rep.nodes, rep.streams, rep.filled, rfl⟩
      · rw [if_neg fits] at edge
        cases edge

theorem put_simulated (rep : Represents s t) (edge : putStep s v x = some s') :
    ∃ t', Flood.putStep t v x = some t' ∧ Represents s' t' := by
  have node := rep.nodes v
  have means := node.slave x
  unfold putStep at edge
  cases state : (s.node v).slave x with
  | reading err got => simp [state] at edge
  | placed err c => simp [state] at edge
  | received err c =>
    rw [state] at means edge
    generalize state' : (t.node v).slave x = st at means
    cases means with
    | received alive p =>
      simp only [Option.some.injEq] at edge
      subst edge
      have goes : Flood.putStep t v x = some (t.setNode v { t.node v with
          store := (p.put (t.node v).store).2
          puts := (t.node v).puts ++ [⟨p, x, (p.put (t.node v).store).1 ≠ 0⟩]
          slave := Function.update (t.node v).slave x
            (if (p.put (t.node v).store).1 = 0 then .idle else .placed p) }) := by
        rw [Flood.putStep, state']
      refine ⟨_, goes, rep.inside rfl rfl rfl rfl rep.issued
        ⟨?_, node.queue, NodeMeans.slave_update node.slave ?_⟩ (gotten_update ?_) rfl⟩
      · rw [node.store]
        rfl
      · show Means x (if (p.put (s.node v).store).1 = 0 then _ else _) _
        rw [node.store]
        split
        · exact .next alive
        · exact .placed alive p
      · rw [state]
        split <;> rfl

theorem push_simulated (rep : Represents s t) (edge : pushStep s v x = some s') :
    ∃ t', Flood.pushStep t v x = some t' ∧ Represents s' t' := by
  have node := rep.nodes v
  have means := node.slave x
  unfold pushStep at edge
  cases state : (s.node v).slave x with
  | reading err got => simp [state] at edge
  | received err c => simp [state] at edge
  | placed err c =>
    rw [state] at means edge
    generalize state' : (t.node v).slave x = st at means
    cases means with
    | placed alive p =>
      simp only [Option.some.injEq] at edge
      subst edge
      have goes : Flood.pushStep t v x = some (t.setNode v { t.node v with
          queue := (t.node v).queue ++ [⟨p, x⟩]
          slave := Function.update (t.node v).slave x .idle }) := by
        rw [Flood.pushStep, state']
      refine ⟨_, goes, rep.inside rfl rfl rfl rfl rep.issued
        ⟨node.store, ?_, NodeMeans.slave_update node.slave (.next alive)⟩ (gotten_update ?_) rfl⟩
      · rw [node.queue, List.map_append]
        rfl
      · rw [state]
        rfl

theorem unsent_encode (wired : Wired G table) {b : Flood.Broadcast V}
    (received : b.p.received = true) (v w : V) :
    (targets (table v) (encode b)).flatMap (fun x => if x.1 = w then x.2 else []) =
      if Forwards G v w b then frame b.p else [] := by
  have frames : (encode b).packet.take
      (transferred (Interfaces.LinkCodec.sendSize (encode b).packet).toNat) =
        if b.p.sendable = true then frame b.p else [] := sent_frame received
  rw [unsent_targets (wired.once v), frames]
  by_cases goes : Forwards G v w b
  · rw [if_pos ⟨(wired.connected v w).mpr goes.1, goes.2.1⟩, if_pos goes.2.2, if_pos goes]
  · rw [if_neg goes]
    by_cases there : w ∈ table v ∧ (encode b).fromPeer ≠ .clip w
    · have stays : ¬ b.p.sendable = true := fun sendable =>
        goes ⟨(wired.connected v w).mp there.1, there.2, sendable⟩
      rw [if_pos there, if_neg stays]
    · rw [if_neg there]

theorem pop_simulated (wired : Wired G table) (inv : Conserved G t) (rep : Represents s t)
    (edge : popStep table s v = some s') :
    ∃ t', Flood.broadcastStep G t v = some t' ∧ Represents s' t' := by
  have node := rep.nodes v
  unfold popStep at edge
  split at edge
  case h_2 => cases edge
  case h_1 b' rest' written queue =>
    cases edge
    rw [node.queue] at queue
    cases queued : (t.node v).queue with
    | nil =>
      rw [queued] at queue
      cases queue
    | cons b rest =>
      rw [queued] at queue
      obtain ⟨rfl, rfl⟩ := List.cons.inj queue
      have pushed : b ∈ pushes (t.node v) := by
        rw [pushes, queued]
        exact List.mem_append_right _ List.mem_cons_self
      have received : b.p.received = true := received_of_sent inv (sent_of_pushed inv pushed)
      have goes : Flood.broadcastStep G t v = some { t.setNode v { t.node v with
            queue := rest, passed := (t.node v).passed ++ [b] } with
          link := fun a w => if a = v ∧ Forwards G v w b then t.link a w ++ [b.p] else t.link a w
          sent := fun w x =>
            if x = .clip v ∧ Forwards G v w b then t.sent w x ++ [b.p] else t.sent w x } := by
        rw [Flood.broadcastStep, queued]
      refine ⟨_, goes, ?_, ?_, ?_, rep.issued⟩
      · exact nodes_setNode rep.nodes ⟨node.store, rfl, node.slave⟩
      · intro a w
        have old := rep.streams a w
        show gotten (((s.setNode v _).node w).slave (.clip a)) ++ (s.link a w ++
          unsent ((s.setNode v _).node a) w) =
            (if a = v ∧ Forwards G v w b then t.link a w ++ [b.p] else t.link a w).flatMap frame
        rw [gotten_setNode]
        case read => exact fun _ => rfl
        by_cases here : a = v
        · subst here
          have before : unsent (s.node a) w = [] := by
            rw [unsent, written]
            rfl
          rw [stream, before, List.append_nil] at old
          rw [setNode_self, unsent, unsent_encode wired received, ← List.append_assoc, old]
          by_cases goes : Forwards G a w b
          · rw [if_pos goes, if_pos ⟨rfl, goes⟩, List.flatMap_append, List.flatMap_singleton]
          · rw [if_neg goes, if_neg fun both => goes both.2, List.append_nil]
        · rw [setNode_of_ne here, if_neg fun both => here both.1]
          exact old
      · exact filled_setNode rep.filled (filled_targets _ _)

theorem write_simulated (rep : Represents s t) (edge : writeStep room s v n = some s') :
    Represents s' t := by
  unfold writeStep at edge
  split at edge
  case h_2 => cases edge
  case h_1 w bytes rest sending =>
    split at edge
    case isFalse => cases edge
    case isTrue fits =>
      obtain ⟨some_, enough, _⟩ := fits
      cases edge
      have node := rep.nodes v
      have before (y : V) : unsent (s.node v) y =
          (if w = y then bytes else []) ++ rest.flatMap fun x => if x.1 = y then x.2 else [] := by
        rw [unsent, sending]
        rfl
      refine ⟨?_, ?_, ?_, rep.issued⟩
      · exact nodes_setNode_of_means rep.nodes ⟨node.store, node.queue, node.slave⟩
      · intro a y
        rw [← rep.streams a y]
        show gotten (((s.setNode v _).node y).slave (.clip a)) ++ _ = gotten _ ++ _
        rw [gotten_setNode]
        case read => exact fun _ => rfl
        congr 1
        by_cases here : a = v
        · subst here
          show (if a = a ∧ y = w then _ else _) ++ unsent ((s.setNode a _).node a) y = _
          rw [setNode_self, unsent, unsent_afterWrite, before]
          by_cases same : y = w
          · subst same
            rw [if_pos ⟨rfl, rfl⟩, if_pos rfl, if_pos rfl, List.append_assoc,
              ← List.append_assoc (bytes.take n), List.take_append_drop]
          · rw [if_neg fun both => same both.2, if_neg (Ne.symm same), if_neg (Ne.symm same)]
        · show (if a = v ∧ y = w then _ else _) ++ unsent ((s.setNode v _).node a) y = _
          rw [if_neg fun both => here both.1, setNode_of_ne here]
      · have old := rep.filled v
        rw [sending] at old
        exact filled_setNode rep.filled (filled_afterWrite enough old)

theorem stream_read {st : SlaveState} {bs : List UInt8} {turns : V → V → Nat} (a w : V) :
    stream { s.setSlave v (.clip u) st with
        link := fun a w => if a = u ∧ w = v then bs else s.link a w, turns := turns } a w =
      if a = u ∧ w = v then gotten st ++ (bs ++ unsent (s.node u) v) else stream s a w := by
  have writer : unsent ((s.setSlave v (.clip u) st).node a) w = unsent (s.node a) w := by
    by_cases here : a = v
    · subst here
      rw [State.setSlave, setNode_self]
      rfl
    · rw [State.setSlave, setNode_of_ne here]
  rw [stream]
  show gotten (((s.setSlave v (.clip u) st).node w).slave (.clip a)) ++
    ((if a = u ∧ w = v then bs else s.link a w) ++ unsent ((s.setSlave v (.clip u) st).node a) w) = _
  rw [writer]
  by_cases both : a = u ∧ w = v
  · obtain ⟨rfl, rfl⟩ := both
    rw [if_pos ⟨rfl, rfl⟩, if_pos ⟨rfl, rfl⟩, State.setSlave, setNode_self]
    simp only [Function.update_self]
  · rw [if_neg both, if_neg both, stream]
    congr 2
    by_cases here : w = v
    · subst here
      have other : (Peer.clip a : Peer V) ≠ .clip u := fun same => both ⟨Peer.clip.inj same, rfl⟩
      rw [State.setSlave, setNode_self]
      exact Function.update_of_ne other ..
    · rw [State.setSlave, setNode_of_ne here]

theorem afterRead_cases {world : World} {err : Int} {got line pending rest : List UInt8} {p : Packet}
    (granted : Granted world) (alive : 1 ≤ err) (received : p.received = true)
    (waits : (turn world err).exec got = none)
    (way : got ++ (line ++ pending) = frame p ++ rest) (asked : n ≤ (turn world err).wants got)
    (there : n ≤ line.length) :
    (afterRead world err (got ++ line.take n) = .received p.data.length (copy p) ∧
      line.drop n ++ pending = rest) ∨
    afterRead world err (got ++ line.take n) = .reading err (got ++ line.take n) ∧
      ∀ other, Granted other → (turn other err).exec (got ++ line.take n) = none := by
  obtain ⟨ended, runs, size, calls⟩ := turn_frame granted alive received
  obtain ⟨left, more, split, behind⟩ := runs.prefix_of_waits waits way
  rw [split] at runs
  obtain ⟨_, _, asks⟩ := runs.wants more
  have fits : n ≤ left.length := by omega
  have taken : line.take n = left.take n := by
    have head := congrArg (List.take n) behind
    rwa [List.take_append_of_le_length there, List.take_append_of_le_length fits] at head
  by_cases all : n = left.length
  · left
    have whole : line.take n = left := by rw [taken, all, List.take_length]
    refine ⟨?_, ?_⟩
    · rw [whole, afterRead, runs.exec_all]
      simp only [calls, size]
    · have tail := congrArg (List.drop n) behind
      rw [List.drop_append_of_le_length there] at tail
      rw [tail, all, List.drop_left]
  · right
    have short : left.drop n ≠ [] := by
      intro nothing
      have length := congrArg List.length nothing
      rw [List.length_drop, List.length_nil] at length
      omega
    have waits' (other : World) (granted : Granted other) :
        (turn other err).exec (got ++ line.take n) = none := by
      have whole : ∃ t, Runs (turn other err) (frame p) [] (some t) ∧ t.err = p.data.length ∧
          copyOf t.log = some (copy p) := turn_frame granted alive received
      obtain ⟨_, runs, _⟩ := whole
      rw [split, ← List.take_append_drop n left, ← taken, ← List.append_assoc] at runs
      exact (runs.wants short).1
    exact ⟨by rw [afterRead, waits' world granted], waits'⟩

theorem read_simulated (inv : Conserved G t) (stored : ∀ w, Stored (t.node w))
    (granted : ∀ v u k, Granted (world v u k)) (rep : Represents s t)
    (edge : readStep world s v u n = some s') :
    Represents s' t ∨ ∃ t', Flood.receiveStep t v u = some t' ∧ Represents s' t' := by
  have node := rep.nodes v
  have means := node.slave (.clip u)
  have way := rep.streams u v
  unfold readStep at edge
  cases state : (s.node v).slave (.clip u) with
  | received err c => simp [state] at edge
  | placed err c => simp [state] at edge
  | reading err got =>
    rw [state] at means edge
    rw [stream, state, gotten] at way
    generalize state' : (t.node v).slave (.clip u) = st at means
    cases means with
    | idle alive waits _ =>
      simp only at edge
      split at edge
      case isFalse => cases edge
      case isTrue able =>
        obtain ⟨some_, asked, there⟩ := able
        cases edge
        have kept : ∀ w, ∀ x ∈ ((s.setSlave v (.clip u)
            (afterRead (world v u (s.turns v u)) err (got ++ (s.link u v).take n))).node w).sending, x.2 ≠ [] :=
          filled_setNode rep.filled (rep.filled v)
        cases next : t.link u v with
        | nil =>
          rw [next] at way
          have none_ := congrArg List.length way
          simp only [List.length_append, List.flatMap_nil, List.length_nil] at none_
          omega
        | cons p rest =>
          have mine : p ∈ t.link u v := by
            rw [next]
            exact List.mem_cons_self
          obtain ⟨filled, received⟩ := filled_of_link inv stored mine
          rw [next, List.flatMap_cons] at way
          have mallocs := granted v u (s.turns v u)
          rcases afterRead_cases mallocs alive received (waits _ mallocs) way asked there with
            ⟨whole, left⟩ | ⟨part, waits'⟩
          · right
            have goes : Flood.receiveStep t v u = some (({ t with
                link := fun a w => if a = u ∧ w = v then rest else t.link a w } :
                  Flood.State V).setSlave v (.clip u) (.received p)) := by
              rw [Flood.receiveStep, state', next]
              simp only [received, if_true]
            refine ⟨_, goes, ?_, ?_, kept, rep.issued⟩
            · have positive : (1 : Int) ≤ p.data.length := by
                have filled := List.length_pos_iff.mpr filled
                omega
              rw [whole]
              exact nodes_setNode rep.nodes ⟨node.store, node.queue,
                NodeMeans.slave_update node.slave (.received positive p)⟩
            · intro a w
              rw [stream_read]
              show _ = (if a = u ∧ w = v then rest else t.link a w).flatMap frame
              by_cases both : a = u ∧ w = v
              · rw [if_pos both, if_pos both, whole, left]
                rfl
              · rw [if_neg both, if_neg both]
                exact rep.streams a w
          · left
            refine ⟨?_, ?_, kept, rep.issued⟩
            · have idle : Means (.clip u) (.reading err (got ++ (s.link u v).take n))
                  ((t.node v).slave (.clip u)) := by
                rw [state']
                exact .idle alive waits' fun k other => by cases other
              have slaves := NodeMeans.slave_update node.slave idle
              rw [Function.update_eq_self] at slaves
              rw [part]
              exact nodes_setNode_of_means rep.nodes ⟨node.store, node.queue, slaves⟩
            · intro a w
              rw [stream_read]
              by_cases both : a = u ∧ w = v
              · obtain ⟨rfl, rfl⟩ := both
                rw [if_pos ⟨rfl, rfl⟩, part, next, List.flatMap_cons, ← way]
                simp only [gotten, List.append_assoc, ← List.append_assoc (List.take _ _),
                  List.take_append_drop]
              · rw [if_neg both]
                exact rep.streams a w

theorem simulates (wired : Wired G table) (granted : ∀ v u k, Granted (world v u k)) :
    System.Simulates (bytes table room world) System.anyStep (flood G) System.anyStep
      fun s t => (flood G).Reach System.anyStep t ∧ Represents s t := by
  intro s a s' t known _ edge
  obtain ⟨reached, rep⟩ := known
  have inv := conserved_of_reach reached
  have matched {b : Flood.Label V} {t' : Flood.State V} (edge : Flood.step G t b = some t')
      (rep' : Represents s' t') : ∃ b t', System.anyStep t b ∧ (flood G).step t b = some t' ∧
        (flood G).Reach System.anyStep t' ∧ Represents s' t' :=
    ⟨b, t', trivial, edge, reached.trans (.single trivial edge), rep'⟩
  cases a with
  | issue v k region data stamp =>
    obtain ⟨t', edge', rep'⟩ := issue_simulated rep edge
    exact .inr (matched (b := .issue v k region data stamp) edge' rep')
  | read v u n =>
    rcases read_simulated inv (stored_of_reach reached) granted rep edge with part | ⟨t', edge', rep'⟩
    · exact .inl ⟨reached, part⟩
    · exact .inr (matched (b := .receive v u) edge' rep')
  | put v x =>
    obtain ⟨t', edge', rep'⟩ := put_simulated rep edge
    exact .inr (matched (b := .put v x) edge' rep')
  | push v x =>
    obtain ⟨t', edge', rep'⟩ := push_simulated rep edge
    exact .inr (matched (b := .push v x) edge' rep')
  | pop v =>
    obtain ⟨t', edge', rep'⟩ := pop_simulated wired inv rep edge
    exact .inr (matched (b := .broadcast v) edge' rep')
  | write v n => exact .inl ⟨reached, write_simulated rep edge⟩

end Steps

section Runs

variable {G : SimpleGraph V} [DecidableRel G.Adj] {table : V → List V} {room : V → V → Nat}
  {world : V → V → Nat → World}
  {s : State V}

theorem represents_init : Represents (bytes table room world).init (flood G).init where
  nodes _ := ⟨rfl, rfl, fun _ => .next (Int.le_refl 1)⟩
  streams _ _ := rfl
  filled _ _ mine := absurd mine List.not_mem_nil
  issued := rfl

def pairTable (u w : V) : V → List V := fun v => if v = u then [w] else [u]

/-- A copy of one byte on its way from `u` to `w` through a buffer with room for four bytes. -/
def pieces {V : Type} (u w : V) : List (Label V) :=
  [.issue u firstApp 3 [7] 5, .put u (.app firstApp), .push u (.app firstApp), .pop u, .write u 4,
    .read w u 1, .read w u 3, .write u 4, .read w u 4, .write u 3, .read w u 2, .read w u 1,
    .put w (.clip u)]

/-- What the slave of a connection that is not the parent's finds when every buffer is granted. -/
def granting : World where
  withParent := false
  parentDelay := 0
  malloc := fun _ => true
  timeMNow := fun _ => 0
  memPut := fun _ => 1
  clipifAddBroadcast := fun _ => 0

theorem pair_wired : Wired (⊤ : SimpleGraph (Fin 2)) (pairTable 0 1) := by
  constructor
  · decide
  · decide

end Runs

end DistributedClipboard.Network.BytesRefinement
