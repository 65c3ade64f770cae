/- module: DistributedClipboard/Network/Conservation
   source: src/src/interfaces/clipif.c, src/src/interfaces/appif.c
   layer: refinement
   digest: Every list of packets of the network is a part of another one that is further upstream. -/

import DistributedClipboard.Network.Flood

set_option autoImplicit false
set_option relaxedAutoImplicit false

namespace DistributedClipboard.Network.Conservation

open DistributedClipboard.Common
open DistributedClipboard.Lib.Transition
open DistributedClipboard.Network.Flood

universe u

variable {V : Type u} [DecidableEq V]

section Views

/-- What `mem_put` was called with by the slave of one connection. -/
def putsVia (n : Node V) (x : Peer V) : List Packet :=
  (n.puts.filter fun q => decide (q.via = x)).map (·.p)

def acceptedVia (n : Node V) (x : Peer V) : List Packet :=
  (n.puts.filter fun q => decide (q.via = x) && q.accepted).map (·.p)

def pushes (n : Node V) : List (Broadcast V) := n.passed ++ n.queue

def pushesFrom (n : Node V) (x : Peer V) : List Packet :=
  ((pushes n).filter fun b => decide (b.fromPeer = x)).map (·.p)

def unplaced : SlaveState → List Packet
  | .received p => [p]
  | _ => []

def unpushed : SlaveState → List Packet
  | .placed p => [p]
  | _ => []

def inFlight (s : State V) (v : V) : Peer V → List Packet
  | .clip u => s.link u v
  | .app _ => []

def issuedBy (s : State V) (v : V) (k : Fin maxApps) : List Packet :=
  (s.issued.filter fun i => decide (i.node = v ∧ i.app = k) && i.p.received).map (·.p)

end Views

variable (G : SimpleGraph V) [DecidableRel G.Adj]

def forwarded (n : Node V) (v w : V) : List Packet :=
  (n.passed.filter fun b => decide (Forwards G v w b)).map (·.p)

structure Conserved (s : State V) : Prop where
  arrived : ∀ v x, s.sent v x =
    putsVia (s.node v) x ++ (unplaced ((s.node v).slave x) ++ inFlight s v x)
  pushed : ∀ v x, acceptedVia (s.node v) x =
    pushesFrom (s.node v) x ++ unpushed ((s.node v).slave x)
  crossed : ∀ v w, s.sent w (.clip v) = forwarded G (s.node v) v w
  issued : ∀ v k, s.sent v (.app k) = issuedBy s v k
  numbered : s.issued.map (·.p.id) = List.range s.issued.length

section Views

variable {G} {s : State V} {v w : V} {x y : Peer V} {p : Packet} {n : Node V}

theorem setNode_self : (s.setNode v n).node v = n := Function.update_self ..

theorem setNode_of_ne (ne : w ≠ v) : (s.setNode v n).node w = s.node w :=
  Function.update_of_ne ne ..

theorem setSlave_slave {st : SlaveState} : ((s.setSlave v x st).node w).slave y =
    if w = v ∧ y = x then st else (s.node w).slave y := by
  by_cases hw : w = v
  · subst hw
    by_cases hy : y = x
    · subst hy
      simp [State.setSlave, setNode_self]
    · simp [State.setSlave, setNode_self, hy]
  · simp [State.setSlave, setNode_of_ne hw, hw]

theorem setSlave_views {st : SlaveState} : putsVia ((s.setSlave v x st).node w) y =
      putsVia (s.node w) y ∧
    acceptedVia ((s.setSlave v x st).node w) y = acceptedVia (s.node w) y ∧
    pushesFrom ((s.setSlave v x st).node w) y = pushesFrom (s.node w) y := by
  by_cases hw : w = v
  · subst hw
    simp [State.setSlave, setNode_self, putsVia, acceptedVia, pushesFrom, pushes]
  · simp [State.setSlave, setNode_of_ne hw]

theorem setSlave_passed {st : SlaveState} :
    ((s.setSlave v x st).node w).passed = (s.node w).passed := by
  by_cases hw : w = v
  · subst hw
    simp [State.setSlave, setNode_self]
  · simp [State.setSlave, setNode_of_ne hw]

end Views

section Steps

variable {G} {s s' : State V} {v : V} {x : Peer V}

theorem Conserved.init : Conserved G (flood G).init where
  arrived v x := by cases x <;> rfl
  pushed v x := rfl
  crossed v w := rfl
  issued v k := rfl
  numbered := rfl

omit [DecidableEq V] in
theorem numbered_append (h : s.issued.map (·.p.id) = List.range s.issued.length) (i : Issue V)
    (next : i.p.id = s.issued.length) :
    (s.issued ++ [i]).map (·.p.id) = List.range (s.issued ++ [i]).length := by
  rw [List.map_append, h, List.length_append, List.length_singleton, List.range_succ,
    List.map_singleton, next]

theorem issuedBy_append {i : Issue V} {w : V} {k : Fin maxApps} (issued : s'.issued = s.issued ++ [i]) :
    issuedBy s' w k =
      if (i.node = w ∧ i.app = k) ∧ i.p.received = true then issuedBy s w k ++ [i.p]
      else issuedBy s w k := by
  unfold issuedBy
  rw [issued, List.filter_append, List.map_append]
  by_cases mine : (i.node = w ∧ i.app = k) ∧ i.p.received = true
  · simp [mine]
  · have test : (decide (i.node = w ∧ i.app = k) && i.p.received) = false := by
      rw [Bool.eq_false_iff]
      intro test
      exact mine (by simpa using test)
    rw [if_neg mine, List.filter_cons, test]
    simp

theorem Conserved.issue {k : Fin maxApps} {region : UInt8} {data : List UInt8}
    {stamp : UInt32} (h : Conserved G s) (edge : issueStep s v k region data stamp = some s') :
    Conserved G s' := by
  simp only [issueStep] at edge
  split at edge
  case isFalse => cases edge
  case isTrue ready =>
    obtain ⟨idle, _⟩ := ready
    split at edge
    case isTrue whole =>
      cases edge
      refine ⟨fun w y => ?_, fun w y => ?_, fun a w => ?_, fun w l => ?_,
        numbered_append h.numbered _ rfl⟩
      · have old := h.arrived w y
        simp only [setSlave_slave, (setSlave_views).1]
        by_cases here : w = v ∧ y = .app k
        · obtain ⟨rfl, rfl⟩ := here
          rw [idle] at old
          simp [old, unplaced, inFlight]
        · rw [if_neg here, if_neg here, old]
          cases y <;> rfl
      · have old := h.pushed w y
        simp only [setSlave_slave, (setSlave_views).2.1, (setSlave_views).2.2]
        by_cases here : w = v ∧ y = .app k
        · obtain ⟨rfl, rfl⟩ := here
          rw [idle] at old
          simp [old, unpushed]
        · rw [if_neg here, old]
      · simp only [forwarded, setSlave_passed]
        simpa [forwarded] using h.crossed a w
      · have old := h.issued w l
        rw [issuedBy_append rfl]
        by_cases here : v = w ∧ k = l
        · obtain ⟨rfl, rfl⟩ := here
          simp [old, whole]
        · have there : ¬(w = v ∧ (Peer.app l : Peer V) = .app k) := by
            rintro ⟨rfl, same⟩
            exact here ⟨rfl, (Peer.app.inj same).symm⟩
          rw [if_neg fun mine => here mine.1]
          exact (if_neg there).trans old
    case isFalse broken =>
      cases edge
      refine ⟨fun w y => ?_, h.pushed, h.crossed, fun w l => ?_, numbered_append h.numbered _ rfl⟩
      · rw [h.arrived w y]
        cases y <;> rfl
      · rw [issuedBy_append rfl, if_neg fun mine => broken mine.2]
        exact h.issued w l

theorem Conserved.receive {u : V} (h : Conserved G s)
    (sendable : ∀ p ∈ s.link u v, p.received = true)
    (edge : receiveStep s v u = some s') : Conserved G s' := by
  unfold receiveStep at edge
  split at edge
  case h_2 => cases edge
  case h_1 p rest idle next =>
    simp only [if_pos (sendable p (by simp [next])), Option.some.injEq] at edge
    subst edge
    refine ⟨fun w y => ?_, fun w y => ?_, fun a w => ?_, h.issued, h.numbered⟩
    · have old := h.arrived w y
      simp only [setSlave_slave, (setSlave_views).1]
      by_cases here : w = v ∧ y = .clip u
      · obtain ⟨rfl, rfl⟩ := here
        rw [idle] at old
        simpa [unplaced, inFlight, State.setSlave, State.setNode, next] using old
      · rw [if_neg here]
        refine old.trans ?_
        cases y with
        | app l => rfl
        | clip a =>
          have there : ¬(a = u ∧ w = v) := by
            rintro ⟨rfl, rfl⟩
            exact here ⟨rfl, rfl⟩
          simp [inFlight, State.setSlave, State.setNode, there]
    · have old := h.pushed w y
      simp only [setSlave_slave, (setSlave_views).2.1, (setSlave_views).2.2]
      by_cases here : w = v ∧ y = .clip u
      · obtain ⟨rfl, rfl⟩ := here
        rw [idle] at old
        simpa [unpushed] using old
      · rw [if_neg here]
        exact old
    · rw [forwarded, setSlave_passed]
      exact h.crossed a w

theorem putsVia_append {n n' : Node V} {q : Put V} (puts : n'.puts = n.puts ++ [q]) (y : Peer V) :
    putsVia n' y = if q.via = y then putsVia n y ++ [q.p] else putsVia n y := by
  unfold putsVia
  rw [puts, List.filter_append, List.map_append]
  by_cases mine : q.via = y
  · simp [mine]
  · simp [mine]

theorem acceptedVia_append {n n' : Node V} {q : Put V} (puts : n'.puts = n.puts ++ [q])
    (y : Peer V) : acceptedVia n' y =
      if q.via = y ∧ q.accepted = true then acceptedVia n y ++ [q.p] else acceptedVia n y := by
  unfold acceptedVia
  rw [puts, List.filter_append, List.map_append]
  by_cases mine : q.via = y
  · cases accepted : q.accepted <;> simp [mine, accepted]
  · simp [mine]

theorem pushesFrom_push (n : Node V) (b : Broadcast V) (slave : Peer V → SlaveState) (y : Peer V) :
    pushesFrom { n with queue := n.queue ++ [b], slave := slave } y =
      if b.fromPeer = y then pushesFrom n y ++ [b.p] else pushesFrom n y := by
  unfold pushesFrom pushes
  rw [← List.append_assoc, List.filter_append, List.map_append]
  by_cases mine : b.fromPeer = y
  · simp [mine]
  · simp [mine]

theorem Conserved.inside (h : Conserved G s) {n : Node V} {st : SlaveState}
    (slave : n.slave = Function.update (s.node v).slave x st)
    (arrived : putsVia n x ++ unplaced st = putsVia (s.node v) x ++ unplaced ((s.node v).slave x))
    (pushed : acceptedVia n x = pushesFrom n x ++ unpushed st)
    (others : ∀ y, x ≠ y → putsVia n y = putsVia (s.node v) y ∧
      acceptedVia n y = acceptedVia (s.node v) y ∧ pushesFrom n y = pushesFrom (s.node v) y)
    (passed : n.passed = (s.node v).passed) : Conserved G (s.setNode v n) := by
  refine ⟨fun w y => ?_, fun w y => ?_, fun a w => ?_, h.issued, h.numbered⟩
  · have old := h.arrived w y
    have flight : inFlight (s.setNode v n) w y = inFlight s w y := by cases y <;> rfl
    rw [flight, ← List.append_assoc]
    rw [← List.append_assoc] at old
    by_cases here : w = v
    · subst here
      rw [setNode_self, slave]
      by_cases mine : x = y
      · subst mine
        rw [Function.update_self, arrived]
        exact old
      · rw [Function.update_of_ne (Ne.symm mine), (others y mine).1]
        exact old
    · rw [setNode_of_ne here]
      exact old
  · have old := h.pushed w y
    by_cases here : w = v
    · subst here
      rw [setNode_self, slave]
      by_cases mine : x = y
      · subst mine
        rw [Function.update_self]
        exact pushed
      · rw [Function.update_of_ne (Ne.symm mine), (others y mine).2.1, (others y mine).2.2]
        exact old
    · rw [setNode_of_ne here]
      exact old
  · have old := h.crossed a w
    by_cases here : a = v
    · subst here
      rw [setNode_self, forwarded, passed]
      exact old
    · rw [setNode_of_ne here]
      exact old

theorem Conserved.put (h : Conserved G s) (edge : putStep s v x = some s') : Conserved G s' := by
  unfold putStep at edge
  split at edge
  case h_2 => cases edge
  case h_1 p has =>
    simp only [Option.some.injEq] at edge
    subst edge
    have old := h.pushed v x
    simp only [has, unpushed, List.append_nil] at old
    refine h.inside (x := x) rfl ?_ ?_ (fun y other => ⟨?_, ?_, rfl⟩) rfl
    · rw [putsVia_append rfl, if_pos rfl, has]
      split <;> simp [unplaced]
    · rw [acceptedVia_append rfl, old]
      by_cases refused : (p.put (s.node v).store).1 = 0
      · simp [refused, unpushed, pushesFrom, pushes]
      · simp [refused, unpushed, pushesFrom, pushes]
    · rw [putsVia_append rfl, if_neg other]
    · rw [acceptedVia_append rfl, if_neg fun both => other both.1]

theorem Conserved.push (h : Conserved G s) (edge : pushStep s v x = some s') : Conserved G s' := by
  unfold pushStep at edge
  split at edge
  case h_2 => cases edge
  case h_1 p has =>
    simp only [Option.some.injEq] at edge
    subst edge
    have old := h.pushed v x
    rw [has] at old
    refine h.inside (x := x) rfl ?_ ?_ (fun y other => ⟨rfl, rfl, ?_⟩) rfl
    · simp [has, unplaced, putsVia]
    · rw [pushesFrom_push, if_pos rfl]
      simp only [unpushed, List.append_nil] at old ⊢
      exact old
    · rw [pushesFrom_push, if_neg other]

theorem Conserved.broadcast (h : Conserved G s) (edge : broadcastStep G s v = some s') :
    Conserved G s' := by
  unfold broadcastStep at edge
  split at edge
  case h_1 => cases edge
  case h_2 b rest queue =>
    simp only [Option.some.injEq] at edge
    generalize moved : ({ s.node v with
      queue := rest, passed := (s.node v).passed ++ [b] } : Node V) = n at edge
    have slave : n.slave = (s.node v).slave := by rw [← moved]
    have puts : n.puts = (s.node v).puts := by rw [← moved]
    have passed : n.passed = (s.node v).passed ++ [b] := by rw [← moved]
    have pushed : pushes n = pushes (s.node v) := by
      rw [← moved, pushes, pushes, queue]
      simp
    have node (w : V) : s'.node w = if w = v then n else s.node w := by
      rw [← edge]
      by_cases here : w = v
      · subst here
        rw [if_pos rfl]
        exact setNode_self
      · rw [if_neg here]
        exact setNode_of_ne here
    have sent (w : V) (y : Peer V) : s'.sent w y =
        if y = .clip v ∧ Forwards G v w b then s.sent w y ++ [b.p] else s.sent w y := by
      rw [← edge]
    have link (a w : V) : s'.link a w =
        if a = v ∧ Forwards G v w b then s.link a w ++ [b.p] else s.link a w := by
      rw [← edge]
    have issued : s'.issued = s.issued := by rw [← edge]; rfl
    refine ⟨fun w y => ?_, fun w y => ?_, fun a w => ?_, fun w k => ?_, ?_⟩
    · have old := h.arrived w y
      have views : putsVia (s'.node w) y = putsVia (s.node w) y ∧
          (s'.node w).slave y = (s.node w).slave y := by
        rw [node w]
        split
        · rename_i here
          subst here
          rw [putsVia, puts, slave]
          exact ⟨rfl, rfl⟩
        · exact ⟨rfl, rfl⟩
      rw [views.1, views.2, sent, old]
      cases y with
      | app k => simp [inFlight]
      | clip a =>
        simp only [inFlight, link, Peer.clip.injEq]
        split <;> simp
    · have old := h.pushed w y
      rw [node w]
      split
      · rename_i here
        subst here
        rw [acceptedVia, puts, slave, pushesFrom, pushed]
        exact old
      · exact old
    · have old := h.crossed a w
      rw [sent, old, node a]
      by_cases here : a = v
      · subst here
        simp only [if_true, true_and, forwarded, passed, List.filter_append, List.map_append]
        by_cases goes : Forwards G a w b
        · simp [goes]
        · simp [goes]
      · have there : ¬((Peer.clip a : Peer V) = .clip v ∧ Forwards G v w b) := fun both =>
          here (Peer.clip.inj both.1)
        rw [if_neg there, if_neg here]
    · rw [sent, if_neg (by simp), issuedBy, issued]
      exact h.issued w k
    · rw [issued]
      exact h.numbered

theorem Conserved.small (h : Conserved G s) {u : V} {p : Packet} (mine : p ∈ s.link u v) :
    p.received = true := by
  have crossed : p ∈ s.sent v (.clip u) := by
    rw [h.arrived]
    exact List.mem_append_right _ (List.mem_append_right _ mine)
  rw [h.crossed, forwarded, List.mem_map] at crossed
  obtain ⟨b, passes, rfl⟩ := crossed
  have forwards : Forwards G u v b := by simpa using (List.mem_filter.mp passes).2
  have sendable := Packet.sendable_iff.mp forwards.2.2
  exact Packet.received_iff.mpr (by omega)

theorem Conserved.step (h : Conserved G s) (a : Label V) (edge : Flood.step G s a = some s') :
    Conserved G s' := by
  cases a with
  | issue v k region data stamp => exact h.issue edge
  | receive v u => exact h.receive (fun p mine => h.small mine) edge
  | put v x => exact h.put edge
  | push v x => exact h.push edge
  | broadcast v => exact h.broadcast edge

theorem conserved_of_reach {ok : State V → Label V → Prop} (h : (flood G).Reach ok s) :
    Conserved G s :=
  h.invariant Conserved.init fun _ a _ inv _ edge => inv.step a edge

theorem Conserved.put_of_sent (h : Conserved G s) {p : Packet} (idle : (s.node v).slave x = .idle)
    (flight : inFlight s v x = []) (mine : p ∈ s.sent v x) :
    ∃ q ∈ (s.node v).puts, q.p = p ∧ q.via = x := by
  rw [h.arrived, idle, flight, unplaced, List.append_nil, List.append_nil] at mine
  · obtain ⟨q, passes, same⟩ := List.mem_map.mp mine
    obtain ⟨put, via⟩ := List.mem_filter.mp passes
    exact ⟨q, put, same, of_decide_eq_true via⟩
  · intro p same
    cases same

theorem Conserved.passed_of_accepted (h : Conserved G s) {q : Put V}
    (idle : (s.node v).slave q.via = .idle) (queue : (s.node v).queue = [])
    (put : q ∈ (s.node v).puts) (yes : q.accepted = true) :
    ∃ b ∈ (s.node v).passed, b.p = q.p ∧ b.fromPeer = q.via := by
  have accepted : q.p ∈ acceptedVia (s.node v) q.via :=
    List.mem_map_of_mem (List.mem_filter.mpr ⟨put, by simp [yes]⟩)
  rw [h.pushed, idle, unpushed, List.append_nil] at accepted
  · obtain ⟨b, passes, same⟩ := List.mem_map.mp accepted
    obtain ⟨pushed, via⟩ := List.mem_filter.mp passes
    rw [pushes, queue, List.append_nil] at pushed
    exact ⟨b, pushed, same, of_decide_eq_true via⟩
  · intro p same
    cases same

end Steps

end DistributedClipboard.Network.Conservation
