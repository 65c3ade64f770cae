/- module: DistributedClipboard/Network/Quiescence
   source: src/src/interfaces/clipif.c, src/src/interfaces/appif.c, src/src/mem/clmem.c
   layer: theorem
   digest: When the applications stop copying the network comes to rest, in whatever order it moves. -/

import DistributedClipboard.Lib.Counting
import DistributedClipboard.Lib.Termination
import DistributedClipboard.Network.Convergence

set_option autoImplicit false
set_option relaxedAutoImplicit false

namespace DistributedClipboard.Network.Quiescence

open DistributedClipboard.Common
open DistributedClipboard.Lib.Counting
open DistributedClipboard.Lib.Transition
open DistributedClipboard.Network.Conservation
open DistributedClipboard.Network.Convergence
open DistributedClipboard.Network.Delivery
open DistributedClipboard.Network.Flood
open DistributedClipboard.Network.Routes
open DistributedClipboard.Utils.Packet

universe u

variable {V : Type u}

/-- What the clipboards do of their own accord: everything but an application's copy. -/
def internal : State V → Label V → Prop
  | _, .issue .. => False
  | _, _ => True

instance [Fintype V] : Fintype (Peer V) :=
  Fintype.ofEquiv (V ⊕ Fin maxApps)
    { toFun := Sum.elim .clip .app
      invFun := fun x => match x with
        | .clip u => .inl u
        | .app k => .inr k
      left_inv := by rintro (u | k) <;> rfl
      right_inv := by rintro (u | k) <;> rfl }

section Work

variable [DecidableEq V]

def taken (n : Node V) (x : Peer V) : Nat := (putsVia n x ++ unplaced (n.slave x)).length

variable [Fintype V]

/-- How many packets a clipboard has received, put, pushed and broadcast. -/
def work (n : Node V) : Nat :=
  (∑ x, taken n x) + n.puts.length + (pushes n).length + n.passed.length

def progress (s : State V) : Nat := ∑ v, work (s.node v)

end Work

section Steps

variable [DecidableEq V] {G : SimpleGraph V} [DecidableRel G.Adj] {s s' : State V} {v w : V}
  {x : Peer V}

def mover : Label V → V
  | .issue v .. | .receive v _ | .put v _ | .push v _ | .broadcast v => v

theorem step_node_of_ne (a : Label V) (edge : Flood.step G s a = some s') (other : w ≠ mover a) :
    s'.node w = s.node w := by
  cases a with
  | issue v k region data stamp =>
    simp only [Flood.step, issueStep] at edge
    split at edge
    · split at edge <;> cases edge
      · exact setNode_of_ne other
      · rfl
    · cases edge
  | receive v u =>
    simp only [Flood.step, receiveStep] at edge
    split at edge
    · split at edge <;> cases edge
      · exact setNode_of_ne other
      · rfl
    · cases edge
  | put v x =>
    simp only [Flood.step, putStep] at edge
    split at edge <;> cases edge
    exact setNode_of_ne other
  | push v x =>
    simp only [Flood.step, pushStep] at edge
    split at edge <;> cases edge
    exact setNode_of_ne other
  | broadcast v =>
    simp only [Flood.step, broadcastStep] at edge
    split at edge <;> cases edge
    exact setNode_of_ne other

theorem issued_of_internal {a : Label V} (own : internal s a)
    (edge : Flood.step G s a = some s') : s'.issued = s.issued := by
  cases a with
  | issue v k region data stamp => exact absurd own id
  | receive v u =>
    simp only [Flood.step, receiveStep] at edge
    split at edge
    · split at edge <;> cases edge <;> rfl
    · cases edge
  | put v x =>
    simp only [Flood.step, putStep] at edge
    split at edge <;> cases edge
    rfl
  | push v x =>
    simp only [Flood.step, pushStep] at edge
    split at edge <;> cases edge
    rfl
  | broadcast v =>
    simp only [Flood.step, broadcastStep] at edge
    split at edge <;> cases edge
    rfl

omit [DecidableRel G.Adj] in
theorem issued_of_issue {k : Fin maxApps} {region : UInt8} {data : List UInt8} {stamp : UInt32}
    (edge : issueStep s v k region data stamp = some s') :
    s'.issued = s.issued ++ [⟨v, k, ⟨s.issued.length, region, data, stamp⟩⟩] := by
  simp only [issueStep] at edge
  split at edge
  · split at edge <;> cases edge <;> rfl
  · cases edge

variable [Fintype V] {n n' : Node V} {p : Packet}

theorem work_change (n n' : Node V) (x : Peer V) (same : ∀ y, y ≠ x → taken n' y = taken n y) :
    work n' + (taken n x + n.puts.length + (pushes n).length + n.passed.length) =
      work n + (taken n' x + n'.puts.length + (pushes n').length + n'.passed.length) := by
  have change := sum_change _ _ x (Finset.mem_univ x) same
  unfold work
  omega

theorem work_receive (inv : Conserved G s) {u : V}
    (edge : receiveStep s v u = some s') : work (s'.node v) = work (s.node v) + 1 := by
  unfold receiveStep at edge
  split at edge
  case h_2 => cases edge
  case h_1 p rest idle next =>
    have whole : p.received = true := inv.small (u := u) (v := v) (by simp [next])
    simp only [if_pos whole, Option.some.injEq] at edge
    subst edge
    rw [State.setSlave, setNode_self]
    generalize moved : ({ s.node v with
      slave := Function.update (s.node v).slave (.clip u) (.received p) } : Node V) = n
    have puts : n.puts = (s.node v).puts := by rw [← moved]
    have slave : n.slave = Function.update (s.node v).slave (.clip u) (.received p) := by
      rw [← moved]
    have pushed : pushes n = pushes (s.node v) := by rw [← moved]; rfl
    have passed : n.passed = (s.node v).passed := by rw [← moved]
    have change := work_change (s.node v) n (.clip u) fun y other => by
      rw [taken, taken, putsVia, puts, slave, Function.update_of_ne other]
      rfl
    have one : taken n (.clip u) = taken (s.node v) (.clip u) + 1 := by
      rw [taken, taken, putsVia, puts, slave, Function.update_self, idle]
      simp [unplaced, putsVia]
    rw [one, pushed, passed, puts] at change
    omega

theorem work_put (edge : putStep s v x = some s') : work (s'.node v) = work (s.node v) + 1 := by
  unfold putStep at edge
  split at edge
  case h_2 => cases edge
  case h_1 p has =>
    simp only [Option.some.injEq] at edge
    subst edge
    rw [setNode_self]
    generalize moved : ({ s.node v with
      store := (p.put (s.node v).store).2
      puts := (s.node v).puts ++ [⟨p, x, decide ((p.put (s.node v).store).1 ≠ 0)⟩]
      slave := Function.update (s.node v).slave x
        (if (p.put (s.node v).store).1 = 0 then .idle else .placed p) } : Node V) = n
    have puts : n.puts = (s.node v).puts ++ [⟨p, x, decide ((p.put (s.node v).store).1 ≠ 0)⟩] := by
      rw [← moved]
    have slave : n.slave = Function.update (s.node v).slave x
        (if (p.put (s.node v).store).1 = 0 then .idle else .placed p) := by rw [← moved]
    have pushed : pushes n = pushes (s.node v) := by rw [← moved]; rfl
    have passed : n.passed = (s.node v).passed := by rw [← moved]
    have change := work_change (s.node v) n x fun y other => by
      rw [taken, taken, putsVia_append puts, if_neg (Ne.symm other), slave,
        Function.update_of_ne other]
    have moves : taken n x = taken (s.node v) x := by
      rw [taken, taken, putsVia_append puts, if_pos rfl, slave, Function.update_self, has]
      split <;> simp [unplaced]
    rw [moves, pushed, passed, puts, List.length_append, List.length_singleton] at change
    omega

theorem work_push (edge : pushStep s v x = some s') : work (s'.node v) = work (s.node v) + 1 := by
  unfold pushStep at edge
  split at edge
  case h_2 => cases edge
  case h_1 p has =>
    simp only [Option.some.injEq] at edge
    subst edge
    rw [setNode_self]
    generalize moved : ({ s.node v with
      queue := (s.node v).queue ++ [⟨p, x⟩]
      slave := Function.update (s.node v).slave x .idle } : Node V) = n
    have puts : n.puts = (s.node v).puts := by rw [← moved]
    have slave : n.slave = Function.update (s.node v).slave x .idle := by rw [← moved]
    have pushed : pushes n = pushes (s.node v) ++ [⟨p, x⟩] := by
      rw [← moved]
      exact (List.append_assoc ..).symm
    have passed : n.passed = (s.node v).passed := by rw [← moved]
    have views (y : Peer V) : taken n y = taken (s.node v) y := by
      rw [taken, taken, putsVia, puts, slave]
      by_cases here : y = x
      · subst here
        rw [Function.update_self, has]
        rfl
      · rw [Function.update_of_ne here]
        rfl
    have change := work_change (s.node v) n x fun y _ => views y
    rw [views, pushed, passed, puts, List.length_append, List.length_singleton] at change
    omega

theorem work_broadcast (edge : broadcastStep G s v = some s') :
    work (s'.node v) = work (s.node v) + 1 := by
  unfold broadcastStep at edge
  split at edge
  case h_1 => cases edge
  case h_2 b rest queue =>
    simp only [Option.some.injEq] at edge
    subst edge
    simp only [State.setNode, Function.update_self, work, pushes, queue, taken, putsVia,
      List.length_append, List.length_cons, List.length_nil]
    omega

theorem work_succ (inv : Conserved G s) {a : Label V} (own : internal s a)
    (edge : Flood.step G s a = some s') : work (s'.node (mover a)) = work (s.node (mover a)) + 1 := by
  cases a with
  | issue v k region data stamp => exact absurd own id
  | receive v u => exact work_receive inv edge
  | put v x => exact work_put edge
  | push v x => exact work_push edge
  | broadcast v => exact work_broadcast edge

theorem progress_succ (inv : Conserved G s) {a : Label V} (own : internal s a)
    (edge : Flood.step G s a = some s') : progress s' = progress s + 1 := by
  have change := sum_change (fun w => work (s.node w)) (fun w => work (s'.node w)) (mover a)
    (Finset.mem_univ _) fun w other => by rw [step_node_of_ne a edge other]
  rw [work_succ inv own edge] at change
  unfold progress
  omega

end Steps

section Bounds

variable [DecidableEq V] {G : SimpleGraph V} [DecidableRel G.Adj] {s : State V} {v : V}
  (tree : G.IsTree) (inv : Conserved G s) (routed : Routed G s)

omit [DecidableEq V] in
theorem length_le_issued {l : List Packet} (distinct : l.Nodup)
    (known : ∀ p ∈ l, ∃ i ∈ s.issued, i.p = p) : l.length ≤ s.issued.length := by
  have part : l ⊆ s.issued.map (·.p) := fun p mine => by
    obtain ⟨i, issued, same⟩ := known p mine
    exact same ▸ List.mem_map_of_mem issued
  have bound := (List.subperm_of_subset distinct part).length_le
  rwa [List.length_map] at bound

include tree inv routed

theorem pushes_le : (pushes (s.node v)).length ≤ s.issued.length := by
  have bound := length_le_issued (s := s) (pushes_nodup tree inv routed v) fun p mine => by
    obtain ⟨b, pushed, rfl⟩ := List.mem_map.mp mine
    obtain ⟨i, issued, same, _⟩ := routed v _ _ (sent_of_pushed inv pushed)
    exact ⟨i, issued, same⟩
  rwa [List.length_map] at bound

theorem puts_le : (s.node v).puts.length ≤ s.issued.length := by
  have bound := length_le_issued (s := s) (puts_nodup tree inv routed v) fun p mine => by
    obtain ⟨q, put, rfl⟩ := List.mem_map.mp mine
    obtain ⟨i, issued, same, _⟩ := routed v _ _ (sent_of_put inv put)
    exact ⟨i, issued, same⟩
  rwa [List.length_map] at bound

variable [Fintype V]

theorem sent_le : ∑ x, (s.sent v x).length ≤ s.issued.length := by
  have apart : ∀ x ∈ (Finset.univ : Finset (Peer V)), ∀ y ∈ (Finset.univ : Finset (Peer V)),
      x ≠ y → Disjoint (s.sent v x).toFinset (s.sent v y).toFinset := by
    intro x _ y _ other
    rw [Finset.disjoint_left]
    intro p here there
    exact other (routed.unique tree inv (List.mem_toFinset.mp here) (List.mem_toFinset.mp there))
  calc ∑ x, (s.sent v x).length
      = ∑ x, (s.sent v x).toFinset.card := Finset.sum_congr rfl fun x _ =>
        (List.toFinset_card_of_nodup (sent_nodup tree inv routed v x)).symm
    _ = (Finset.univ.biUnion fun x => (s.sent v x).toFinset).card :=
        (Finset.card_biUnion apart).symm
    _ ≤ (s.issued.map (·.p)).toFinset.card := by
        refine Finset.card_le_card fun p mine => ?_
        obtain ⟨x, _, here⟩ := Finset.mem_biUnion.mp mine
        obtain ⟨i, issued, same, _⟩ := routed v x p (List.mem_toFinset.mp here)
        exact List.mem_toFinset.mpr (same ▸ List.mem_map_of_mem issued)
    _ ≤ s.issued.length := by
        have bound := (s.issued.map (·.p)).toFinset_card_le
        rwa [List.length_map] at bound

theorem taken_le : ∑ x, taken (s.node v) x ≤ s.issued.length := by
  refine le_trans (Finset.sum_le_sum fun x _ => ?_) (sent_le tree inv routed (v := v))
  rw [inv.arrived, taken, ← List.append_assoc]
  exact (List.sublist_append_left _ _).length_le

theorem work_le : work (s.node v) ≤ 4 * s.issued.length := by
  have taken := taken_le tree inv routed (v := v)
  have put := puts_le tree inv routed (v := v)
  have pushed := pushes_le tree inv routed (v := v)
  have passed : (s.node v).passed.length ≤ (pushes (s.node v)).length :=
    (List.sublist_append_left _ _).length_le
  unfold work
  omega

theorem progress_le : progress s ≤ 4 * Fintype.card V * s.issued.length := by
  have each : ∑ v, work (s.node v) ≤ ∑ _v : V, 4 * s.issued.length :=
    Finset.sum_le_sum fun v _ => work_le tree inv routed
  rw [Finset.sum_const, Finset.card_univ, smul_eq_mul] at each
  calc progress s ≤ Fintype.card V * (4 * s.issued.length) := each
    _ = 4 * Fintype.card V * s.issued.length := by
      rw [← Nat.mul_assoc, Nat.mul_comm (Fintype.card V)]

end Bounds

section Rest

variable [DecidableEq V] {G : SimpleGraph V} [DecidableRel G.Adj] {s : State V}

theorem quiet_of_stuck (stuck : (flood G).Stuck internal s) : Quiet s := by
  have slaves (v : V) (x : Peer V) : (s.node v).slave x = .idle := by
    cases state : (s.node v).slave x with
    | idle => rfl
    | received p =>
      have none_ := stuck (.put v x) trivial
      simp [flood, Flood.step, putStep, state] at none_
    | placed p =>
      have none_ := stuck (.push v x) trivial
      simp [flood, Flood.step, pushStep, state] at none_
  refine ⟨fun v => ?_, fun u v => ?_, slaves⟩
  · cases queue : (s.node v).queue with
    | nil => rfl
    | cons b rest =>
      have none_ := stuck (.broadcast v) trivial
      simp [flood, Flood.step, broadcastStep, queue] at none_
  · cases link : s.link u v with
    | nil => rfl
    | cons p rest =>
      have none_ := stuck (.receive v u) trivial
      simp [flood, Flood.step, receiveStep, slaves, link] at none_

theorem comes_to_rest [Fintype V] (tree : G.IsTree) (h : (flood G).Reach System.anyStep s) :
    (flood G).Settles internal (4 * Fintype.card V * s.issued.length)
      (fun t => (flood G).Reach System.anyStep t ∧ t.issued = s.issued ∧ Quiet t) s := by
  have settles : (flood G).Settles internal
      (4 * Fintype.card V * s.issued.length - progress s)
      (fun t => (flood G).Reach System.anyStep t ∧ t.issued = s.issued ∧ Quiet t) s :=
    System.settles_of_descent
    (I := fun t => (flood G).Reach System.anyStep t ∧ t.issued = s.issued)
    (fun t => 4 * Fintype.card V * s.issued.length - progress t)
    (fun t a t' known own edge => by
      obtain ⟨reached, same⟩ := known
      have reached' : (flood G).Reach System.anyStep t' := reached.trans (.single trivial edge)
      have issued := (issued_of_internal own edge).trans same
      have raised := progress_succ (conserved_of_reach reached) own edge
      have bound := progress_le tree (conserved_of_reach reached') (routed_of_reach tree reached')
      rw [issued] at bound
      exact ⟨⟨reached', issued⟩, by omega⟩)
    (fun t known stuck => ⟨known.1, known.2, quiet_of_stuck stuck⟩)
    ⟨h, rfl⟩
  exact settles.mono (Nat.sub_le _ _) fun _ goal => goal

end Rest

end DistributedClipboard.Network.Quiescence
