/- module: DistributedClipboard/Network/Routes
   source: src/src/interfaces/clipif.c
   layer: theorem
   digest: In a tree a packet crosses each connection at most once, away from where it was issued. -/

import DistributedClipboard.Lib.Tree
import DistributedClipboard.Network.Conservation

set_option autoImplicit false
set_option relaxedAutoImplicit false

namespace DistributedClipboard.Network.Routes

open DistributedClipboard.Common
open DistributedClipboard.Lib.Transition
open DistributedClipboard.Lib.Tree
open DistributedClipboard.Network.Conservation
open DistributedClipboard.Network.Flood

universe u

variable {V : Type u} [DecidableEq V] {G : SimpleGraph V} [DecidableRel G.Adj] {s s' : State V}
  {v w : V} {x y : Peer V} {p : Packet}

section Upstream

theorem sent_of_pushed (h : Conserved G s) {b : Broadcast V} (mine : b ∈ pushes (s.node v)) :
    b.p ∈ s.sent v b.fromPeer := by
  have pushed : b.p ∈ pushesFrom (s.node v) b.fromPeer :=
    List.mem_map_of_mem (List.mem_filter.mpr ⟨mine, by simp⟩)
  have accepted : b.p ∈ acceptedVia (s.node v) b.fromPeer := by
    rw [h.pushed]
    exact List.mem_append_left _ pushed
  obtain ⟨q, passes, same⟩ := List.mem_map.mp accepted
  have via : q ∈ (s.node v).puts ∧ q.via = b.fromPeer ∧ q.accepted = true := by
    simpa using List.mem_filter.mp passes
  rw [h.arrived, ← same]
  refine List.mem_append_left _ (List.mem_map_of_mem (List.mem_filter.mpr ⟨via.1, ?_⟩))
  simpa using via.2.1

theorem sent_of_put (h : Conserved G s) {q : Put V} (mine : q ∈ (s.node v).puts) :
    q.p ∈ s.sent v q.via := by
  rw [h.arrived]
  exact List.mem_append_left _ (List.mem_map_of_mem (List.mem_filter.mpr ⟨mine, by simp⟩))

theorem broadcast_of_sent (h : Conserved G s) {u : V} (mine : p ∈ s.sent v (.clip u)) :
    ∃ b ∈ (s.node u).passed, b.p = p ∧ Forwards G u v b := by
  rw [h.crossed, forwarded, List.mem_map] at mine
  obtain ⟨b, passes, same⟩ := mine
  obtain ⟨passed, goes⟩ := List.mem_filter.mp passes
  exact ⟨b, passed, same, of_decide_eq_true goes⟩

omit [DecidableEq V] [DecidableRel G.Adj] in
theorem issue_unique (h : s.issued.map (·.p.id) = List.range s.issued.length) {i j : Issue V}
    (hi : i ∈ s.issued) (hj : j ∈ s.issued) (same : i.p = j.p) : i = j := by
  have distinct : (s.issued.map (·.p.id)).Nodup := by
    rw [h]
    exact List.nodup_range
  exact List.inj_on_of_nodup_map distinct hi hj (by rw [same])

end Upstream

def Route (G : SimpleGraph V) (i : Issue V) (v : V) : Peer V → Prop
  | .app k => i.node = v ∧ i.app = k
  | .clip u => G.Adj u v ∧ G.dist i.node v = G.dist i.node u + 1

section Outward

omit [DecidableEq V] [DecidableRel G.Adj] in
theorem Route.unique (tree : G.IsTree) {i : Issue V} (hx : Route G i v x) (hy : Route G i v y) :
    x = y := by
  cases x with
  | app k =>
    cases y with
    | app l => rw [← hx.2, ← hy.2]
    | clip u =>
      obtain rfl := hx.1
      exact absurd hy.2 (not_closer_self u)
  | clip u =>
    cases y with
    | app l =>
      obtain rfl := hy.1
      exact absurd hx.2 (not_closer_self u)
    | clip w => rw [closer_unique tree hx.1 hy.1 hx.2 hy.2]

omit [DecidableEq V] [DecidableRel G.Adj] in
theorem Route.next (tree : G.IsTree) {i : Issue V} (h : Route G i v x) (adj : G.Adj v w)
    (other : x ≠ .clip w) : Route G i w (.clip v) := by
  refine ⟨adj, further_of_not_closer tree adj fun closer => ?_⟩
  exact other (h.unique tree ⟨adj.symm, closer⟩)

def Routed (G : SimpleGraph V) (s : State V) : Prop :=
  ∀ v x p, p ∈ s.sent v x → ∃ i ∈ s.issued, i.p = p ∧ Route G i v x

theorem Routed.step (tree : G.IsTree) (inv : Conserved G s) (h : Routed G s) (a : Label V)
    (edge : Flood.step G s a = some s') : Routed G s' := by
  intro w y p mine
  cases a with
  | issue v k region data stamp =>
    simp only [Flood.step, issueStep] at edge
    split at edge
    · split at edge
      · cases edge
        simp only at mine ⊢
        split at mine
        · rename_i here
          obtain ⟨rfl, rfl⟩ := here
          rcases List.mem_append.mp mine with old | new
          · obtain ⟨i, issued, same, route⟩ := h _ _ p old
            exact ⟨i, List.mem_append_left _ issued, same, route⟩
          · obtain rfl := List.mem_singleton.mp new
            exact ⟨_, List.mem_append_right _ (List.mem_singleton.mpr rfl), rfl, rfl, rfl⟩
        · obtain ⟨i, issued, same, route⟩ := h w y p mine
          exact ⟨i, List.mem_append_left _ issued, same, route⟩
      · cases edge
        obtain ⟨i, issued, same, route⟩ := h w y p mine
        exact ⟨i, List.mem_append_left _ issued, same, route⟩
    · cases edge
  | receive v u =>
    simp only [Flood.step, receiveStep] at edge
    split at edge
    · split at edge <;> cases edge <;> exact h w y p mine
    · cases edge
  | put v x =>
    simp only [Flood.step, putStep] at edge
    split at edge <;> cases edge
    exact h w y p mine
  | push v x =>
    simp only [Flood.step, pushStep] at edge
    split at edge <;> cases edge
    exact h w y p mine
  | broadcast v =>
    simp only [Flood.step, broadcastStep] at edge
    split at edge
    · cases edge
    · rename_i b rest queue
      cases edge
      simp only at mine
      split at mine
      · rename_i goes
        obtain ⟨rfl, adj, other, _⟩ := goes
        rcases List.mem_append.mp mine with old | new
        · exact h w _ p old
        · obtain rfl := List.mem_singleton.mp new
          have pushed : b ∈ pushes (s.node v) := by simp [pushes, queue]
          obtain ⟨i, issued, same, route⟩ := h v b.fromPeer b.p (sent_of_pushed inv pushed)
          exact ⟨i, issued, same, route.next tree adj other⟩
      · exact h w y p mine

theorem routed_of_reach (tree : G.IsTree) {ok : State V → Label V → Prop}
    (h : (flood G).Reach ok s) : Routed G s := by
  have start : Routed G (flood G).init := fun v x p mine => absurd mine List.not_mem_nil
  exact h.invariant_of (fun t => conserved_of_reach) start
    fun _ a _ inv known _ edge => known.step tree inv a edge

end Outward

section Once

theorem Routed.unique (tree : G.IsTree) (inv : Conserved G s) (h : Routed G s)
    (hx : p ∈ s.sent v x) (hy : p ∈ s.sent v y) : x = y := by
  obtain ⟨i, hi, same, first⟩ := h v x p hx
  obtain ⟨j, hj, same', second⟩ := h v y p hy
  obtain rfl := issue_unique inv.numbered hi hj (same.trans same'.symm)
  exact first.unique tree second

theorem count_pushes_le (tree : G.IsTree) (inv : Conserved G s) (h : Routed G s)
    (here : p ∈ s.sent v x) :
    ((pushes (s.node v)).map (·.p)).count p ≤ (s.sent v x).count p := by
  have only : ((pushes (s.node v)).map (·.p)).count p = (pushesFrom (s.node v) x).count p := by
    simp only [pushesFrom, List.count_eq_countP, List.countP_map, List.countP_filter]
    refine List.countP_congr fun b mine => ?_
    simp only [Function.comp_apply, beq_iff_eq, Bool.and_eq_true, decide_eq_true_eq]
    refine ⟨fun same => ⟨same, ?_⟩, fun both => both.1⟩
    exact h.unique tree inv (same ▸ sent_of_pushed inv mine) here
  have accepted : (pushesFrom (s.node v) x).count p ≤ (acceptedVia (s.node v) x).count p := by
    rw [inv.pushed]
    exact (List.sublist_append_left _ _).count_le p
  have put : (acceptedVia (s.node v) x).count p ≤ (putsVia (s.node v) x).count p := by
    refine List.Sublist.count_le p (List.Sublist.map _ ?_)
    exact List.monotone_filter_right _ fun q both => (Bool.and_eq_true _ _ ▸ both).1
  have sent : (putsVia (s.node v) x).count p ≤ (s.sent v x).count p := by
    rw [inv.arrived]
    exact (List.sublist_append_left _ _).count_le p
  omega

theorem count_issued_le (inv : Conserved G s) (p : Packet) (v : V) (k : Fin maxApps) :
    (s.sent v (.app k)).count p ≤ 1 := by
  rw [inv.issued]
  have distinct : (s.issued.map (·.p)).Nodup := by
    refine List.Nodup.of_map Packet.id ?_
    rw [List.map_map]
    show (s.issued.map (·.p.id)).Nodup
    rw [inv.numbered]
    exact List.nodup_range
  have part : (issuedBy s v k).Sublist (s.issued.map (·.p)) := List.Sublist.map _ List.filter_sublist
  exact List.nodup_iff_count_le_one.mp (part.nodup distinct) p

theorem count_crossed_le (inv : Conserved G s) (p : Packet) (u v : V) :
    (s.sent v (.clip u)).count p ≤ ((pushes (s.node u)).map (·.p)).count p := by
  rw [inv.crossed]
  have part : (forwarded G (s.node u) u v).Sublist ((pushes (s.node u)).map (·.p)) :=
    List.Sublist.map _ (List.filter_sublist.trans (List.sublist_append_left _ _))
  exact part.count_le p

/-- A packet comes in over a connection at most once. By induction on the distance from where the
copy was issued. -/
theorem count_sent_le (tree : G.IsTree) (inv : Conserved G s) (h : Routed G s) {i : Issue V}
    (issued : i ∈ s.issued) (n : Nat) (v : V) (far : G.dist i.node v = n) (x : Peer V) :
    (s.sent v x).count i.p ≤ 1 := by
  induction n generalizing v x with
  | zero =>
    cases x with
    | app k => exact count_issued_le inv i.p v k
    | clip u =>
      have absent : i.p ∉ s.sent v (.clip u) := by
        intro mine
        obtain ⟨j, hj, same, _, further⟩ := h v _ _ mine
        obtain rfl := issue_unique inv.numbered hj issued same
        omega
      rw [List.count_eq_zero_of_not_mem absent]
      omega
  | succ n ih =>
    cases x with
    | app k => exact count_issued_le inv i.p v k
    | clip u =>
      by_cases mine : i.p ∈ s.sent v (.clip u)
      · obtain ⟨j, hj, same, _, further⟩ := h v _ _ mine
        obtain rfl := issue_unique inv.numbered hj issued same
        obtain ⟨b, passed, equal, _⟩ := broadcast_of_sent inv mine
        have upstream : j.p ∈ s.sent u b.fromPeer := by
          rw [← equal]
          exact sent_of_pushed inv (List.mem_append_left _ passed)
        have crossed := count_crossed_le inv j.p u v
        have pushed := count_pushes_le tree inv h upstream
        have before := ih u (by omega) b.fromPeer
        omega
      · rw [List.count_eq_zero_of_not_mem mine]
        omega

theorem sent_nodup (tree : G.IsTree) (inv : Conserved G s) (h : Routed G s) (v : V) (x : Peer V) :
    (s.sent v x).Nodup := by
  rw [List.nodup_iff_count_le_one]
  intro p
  by_cases mine : p ∈ s.sent v x
  · obtain ⟨i, issued, rfl, _⟩ := h v x p mine
    exact count_sent_le tree inv h issued _ v rfl x
  · rw [List.count_eq_zero_of_not_mem mine]
    omega

theorem pushes_nodup (tree : G.IsTree) (inv : Conserved G s) (h : Routed G s) (v : V) :
    ((pushes (s.node v)).map (·.p)).Nodup := by
  rw [List.nodup_iff_count_le_one]
  intro p
  by_cases mine : p ∈ (pushes (s.node v)).map (·.p)
  · obtain ⟨b, pushed, rfl⟩ := List.mem_map.mp mine
    have came := count_pushes_le tree inv h (sent_of_pushed inv pushed)
    have once := List.nodup_iff_count_le_one.mp (sent_nodup tree inv h v b.fromPeer) b.p
    omega
  · rw [List.count_eq_zero_of_not_mem mine]
    omega

theorem puts_nodup (tree : G.IsTree) (inv : Conserved G s) (h : Routed G s) (v : V) :
    ((s.node v).puts.map (·.p)).Nodup := by
  rw [List.nodup_iff_count_le_one]
  intro p
  by_cases mine : p ∈ (s.node v).puts.map (·.p)
  · obtain ⟨q, put, rfl⟩ := List.mem_map.mp mine
    have here := sent_of_put inv put
    have only : ((s.node v).puts.map (·.p)).count q.p = (putsVia (s.node v) q.via).count q.p := by
      simp only [putsVia, List.count_eq_countP, List.countP_map, List.countP_filter]
      refine List.countP_congr fun r other => ?_
      simp only [Function.comp_apply, beq_iff_eq, Bool.and_eq_true, decide_eq_true_eq]
      refine ⟨fun same => ⟨same, ?_⟩, fun both => both.1⟩
      exact h.unique tree inv (same ▸ sent_of_put inv other) here
    have sent : (putsVia (s.node v) q.via).count q.p ≤ (s.sent v q.via).count q.p := by
      rw [inv.arrived]
      exact (List.sublist_append_left _ _).count_le q.p
    have once := List.nodup_iff_count_le_one.mp (sent_nodup tree inv h v q.via) q.p
    omega
  · rw [List.count_eq_zero_of_not_mem mine]
    omega

end Once

end DistributedClipboard.Network.Routes
