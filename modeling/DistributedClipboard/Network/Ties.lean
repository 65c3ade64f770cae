/- module: DistributedClipboard/Network/Ties
   source: src/src/interfaces/clipif.c, src/src/interfaces/appif.c, src/src/mem/clmem.c
   layer: theorem
   digest: Copies with one timestamp: where one goes ahead of the other it does so everywhere. -/

import DistributedClipboard.Lib.Precedence
import DistributedClipboard.Network.Delivery

set_option autoImplicit false
set_option relaxedAutoImplicit false

namespace DistributedClipboard.Network.Ties

open DistributedClipboard.Common
open DistributedClipboard.Lib.Precedence
open DistributedClipboard.Lib.Transition
open DistributedClipboard.Lib.Tree
open DistributedClipboard.Mem.Clmem
open DistributedClipboard.Network.Conservation
open DistributedClipboard.Network.Delivery
open DistributedClipboard.Network.Flood
open DistributedClipboard.Network.Routes

universe u

variable {V : Type u}

/-- The packets that `mem_put` has been called with. -/
def placed (n : Node V) : List Packet := n.puts.map (·.p)

/-- The packets that `queue_push` has been called with. -/
def queued (n : Node V) : List Packet := (pushes n).map (·.p)

/-- At the clipboard of `j`, `i` was placed in the memory before `j` and queued before `j`. -/
def Ahead (s : State V) (i j : Issue V) : Prop :=
  Before i.p j.p (placed (s.node j.node)) ∧ Before i.p j.p (queued (s.node j.node))

section Growth

variable [DecidableEq V] {G : SimpleGraph V} [DecidableRel G.Adj] {s s' : State V} {u v w : V}
  {p q : Packet}

theorem growth (a : Label V) (edge : Flood.step G s a = some s') (w : V) :
    (s'.node w).puts = (s.node w).puts ∧ pushes (s'.node w) = pushes (s.node w) ∨
    (∃ q, (s'.node w).puts = (s.node w).puts ++ [q] ∧ pushes (s'.node w) = pushes (s.node w)) ∨
    ∃ b, (s'.node w).puts = (s.node w).puts ∧ pushes (s'.node w) = pushes (s.node w) ++ [b] := by
  cases a with
  | issue v k region data stamp =>
    simp only [Flood.step, issueStep] at edge
    split at edge
    · left
      split at edge <;> cases edge
      · by_cases here : w = v
        · subst here
          simp [State.setSlave, State.setNode, pushes]
        · simp [State.setSlave, State.setNode, here]
      · exact ⟨rfl, rfl⟩
    · cases edge
  | receive v u =>
    simp only [Flood.step, receiveStep] at edge
    split at edge
    · left
      split at edge <;> cases edge
      · by_cases here : w = v
        · subst here
          simp [State.setSlave, State.setNode, pushes]
        · simp [State.setSlave, State.setNode, here]
      · exact ⟨rfl, rfl⟩
    · cases edge
  | put v x =>
    simp only [Flood.step, putStep] at edge
    split at edge <;> cases edge
    by_cases here : w = v
    · subst here
      exact .inr (.inl ⟨_, by rw [setNode_self], by rw [setNode_self]; rfl⟩)
    · left
      rw [setNode_of_ne here]
      exact ⟨rfl, rfl⟩
  | push v x =>
    simp only [Flood.step, pushStep] at edge
    split at edge <;> cases edge
    rename_i p _
    by_cases here : w = v
    · subst here
      refine .inr (.inr ⟨⟨p, x⟩, by rw [setNode_self], ?_⟩)
      rw [setNode_self]
      exact (List.append_assoc _ _ _).symm
    · left
      rw [setNode_of_ne here]
      exact ⟨rfl, rfl⟩
  | broadcast v =>
    left
    simp only [Flood.step, broadcastStep] at edge
    split at edge
    · cases edge
    · rename_i b rest queue
      cases edge
      by_cases here : w = v
      · subst here
        simp [State.setNode, pushes, queue]
      · simp [State.setNode, here]

theorem put_of_pushed (inv : Conserved G s) {b : Broadcast V} (mine : b ∈ pushes (s.node v)) :
    ∃ q ∈ (s.node v).puts, q.p = b.p ∧ q.accepted = true := by
  have pushed : b.p ∈ pushesFrom (s.node v) b.fromPeer :=
    List.mem_map_of_mem (List.mem_filter.mpr ⟨mine, by simp⟩)
  have accepted : b.p ∈ acceptedVia (s.node v) b.fromPeer := by
    rw [inv.pushed]
    exact List.mem_append_left _ pushed
  obtain ⟨q, passes, same⟩ := List.mem_map.mp accepted
  obtain ⟨put, kept⟩ := List.mem_filter.mp passes
  exact ⟨q, put, same, (Bool.and_eq_true_iff.mp kept).2⟩

theorem placed_of_queued (inv : Conserved G s) (mine : p ∈ queued (s.node v)) :
    p ∈ placed (s.node v) := by
  obtain ⟨b, pushed, rfl⟩ := List.mem_map.mp mine
  obtain ⟨q, put, same, _⟩ := put_of_pushed inv pushed
  exact same ▸ List.mem_map_of_mem put

theorem queued_of_via (inv : Conserved G s) (mine : p ∈ putsVia (s.node v) (.clip u)) :
    p ∈ queued (s.node u) := by
  have sent : p ∈ s.sent v (.clip u) := by
    rw [inv.arrived]
    exact List.mem_append_left _ mine
  obtain ⟨b, passed, rfl, _⟩ := broadcast_of_sent inv sent
  exact List.mem_map_of_mem (List.mem_append_left _ passed)

end Growth

section Passing

variable [DecidableEq V] {G : SimpleGraph V} [DecidableRel G.Adj] {s s' : State V} {u v w : V}

def Passing (s : State V) : Prop :=
  ∀ u v, ∀ p ∈ putsVia (s.node v) (.clip u), ∀ q ∈ putsVia (s.node u) (.clip v),
    Before p q (placed (s.node v)) → Before p q (placed (s.node u)) ∧
      (q ∈ queued (s.node u) → Before p q (queued (s.node u)))

omit [DecidableEq V] in
theorem not_again {n : Node V} {r : Put V} {l : List (Put V)} (puts : n.puts = l ++ [r])
    (once : (placed n).Nodup) : r.p ∉ l.map (·.p) := by
  intro mine
  rw [placed, puts, List.map_append, List.nodup_append] at once
  exact once.2.2 r.p mine r.p (List.mem_singleton_self _) rfl

theorem Passing.step (tree : G.IsTree) (reached : (flood G).Reach System.anyStep s) (h : Passing s)
    (a : Label V) (edge : Flood.step G s a = some s') : Passing s' := by
  have inv : Conserved G s := conserved_of_reach reached
  have reached' : (flood G).Reach System.anyStep s' := reached.trans (.single trivial edge)
  have inv' : Conserved G s' := conserved_of_reach reached'
  have once (w : V) : (placed (s'.node w)).Nodup :=
    puts_nodup tree inv' (routed_of_reach tree reached') w
  intro u v p came q back before
  -- the first end was as it is before the step, as far as the two packets are concerned
  have known : p ∈ putsVia (s.node v) (.clip u) ∧ Before p q (placed (s.node v)) := by
    rcases growth a edge v with ⟨puts, _⟩ | ⟨r, puts, pushed⟩ | ⟨b, puts, _⟩
    · exact ⟨by rwa [putsVia, ← puts], by rwa [placed, ← puts]⟩
    · have old : Before p q (placed (s.node v)) := by
        rw [placed, puts, List.map_append] at before
        rcases before_concat.mp before with old | ⟨_, rfl⟩
        · exact old
        · have queued_ := queued_of_via inv' back
          rw [queued, pushed] at queued_
          exact absurd (placed_of_queued inv queued_) (not_again puts (once v))
      refine ⟨?_, old⟩
      rw [putsVia_append puts] at came
      split at came
      · rcases List.mem_append.mp came with mine | new
        · exact mine
        · rw [List.mem_singleton.mp new] at old
          exact absurd old.left (not_again puts (once v))
      · exact came
    · exact ⟨by rwa [putsVia, ← puts], by rwa [placed, ← puts]⟩
  obtain ⟨came, before⟩ := known
  have first := queued_of_via inv came
  have earlier (mine : q ∈ putsVia (s.node u) (.clip v)) := h u v p came q mine before
  rcases growth a edge u with ⟨puts, pushed⟩ | ⟨r, puts, pushed⟩ | ⟨b, puts, pushed⟩
  · rw [putsVia, puts] at back
    rw [placed, puts, queued, pushed]
    exact earlier back
  · have puts' : placed (s'.node u) = placed (s.node u) ++ [r.p] := by
      rw [placed, puts, List.map_append]
      rfl
    rw [puts', queued, pushed]
    have fresh := not_again puts (once u)
    have old (mine : q ∈ queued (s.node u)) : q ∈ putsVia (s.node u) (.clip v) := by
      rw [putsVia_append puts] at back
      split at back
      · rcases List.mem_append.mp back with here | new
        · exact here
        · rw [List.mem_singleton.mp new] at mine
          exact absurd (placed_of_queued inv mine) fresh
      · exact back
    refine ⟨?_, fun mine => (earlier (old mine)).2 mine⟩
    rw [putsVia_append puts] at back
    split at back
    · rcases List.mem_append.mp back with here | new
      · exact (earlier here).1.append _
      · rw [List.mem_singleton.mp new]
        exact before_of_mem (placed_of_queued inv first) (List.mem_singleton_self _)
    · exact (earlier back).1.append _
  · rw [putsVia, puts] at back
    rw [placed, puts, queued, pushed, List.map_append]
    obtain ⟨put, push⟩ := earlier back
    refine ⟨put, fun mine => ?_⟩
    rcases List.mem_append.mp mine with old | new
    · exact (push old).append _
    · exact before_of_mem first new

theorem passing_of_reach (tree : G.IsTree) (h : (flood G).Reach System.anyStep s) : Passing s := by
  have start : Passing (flood G).init := fun _ _ _ came => absurd came List.not_mem_nil
  exact h.invariant_of (J := (flood G).Reach System.anyStep) (fun _ reached => reached) start
    fun _ a _ reached known _ edge => known.step tree reached a edge

end Passing

section Stores

/-- The last call of `mem_put` that has placed something in the region. -/
def lastPut (n : Node V) (r : Region) : Option (Put V) :=
  (n.puts.filter fun q => q.accepted && decide (Lands q.p r)).getLast?

def Kept (n : Node V) : Prop :=
  ∀ r, (n.store r).data = (lastPut n r).map (·.p.data) ∧
    ∀ q, lastPut n r = some q → (n.store r).updateCond = stamp q.p

theorem Kept.put {n n' : Node V} {p : Packet} {x : Peer V} (h : Kept n)
    (store : n'.store = (p.put n.store).2)
    (puts : n'.puts = n.puts ++ [⟨p, x, decide ((p.put n.store).1 ≠ 0)⟩]) : Kept n' := by
  have more (r : Region) : lastPut n' r =
      if (p.put n.store).1 ≠ 0 ∧ Lands p r then some ⟨p, x, true⟩ else lastPut n r := by
    rw [lastPut, puts, List.filter_append]
    by_cases takes : (p.put n.store).1 ≠ 0 ∧ Lands p r
    · simp [takes.1, takes.2]
    · have test : (decide ((p.put n.store).1 ≠ 0) && decide (Lands p r)) = false := by
        rw [Bool.eq_false_iff]
        intro both
        exact takes (by simpa using both)
      rw [if_neg takes, List.filter_cons, test]
      simp [lastPut]
  intro r
  rw [more r, store]
  rcases memPut_cases n.store p.region.toNat p.data p.recvAt.toNat with
    ⟨zero, same, _⟩ | ⟨r', region, filled, _, length, changed⟩
  · have refused : (p.put n.store).1 = 0 := zero
    have keeps : (p.put n.store).2 = n.store := same
    rw [keeps, if_neg (by simp [refused])]
    exact h r
  · have lands : Lands p r' := ⟨region, filled⟩
    have takes : (p.put n.store).1 ≠ 0 := by
      have positive : (p.put n.store).1 = p.data.length := length
      rw [positive]
      simpa using filled
    have now : (p.put n.store).2 = Function.update n.store r'
      ⟨some p.data, p.data.length, p.recvAt.toNat, (n.store r').terminate⟩ := changed
    rw [now]
    by_cases here : r = r'
    · subst here
      rw [if_pos ⟨takes, lands⟩, Function.update_self]
      refine ⟨rfl, fun q last => ?_⟩
      obtain rfl := Option.some.inj last
      rfl
    · rw [if_neg fun both => here (both.2.unique lands), Function.update_of_ne here]
      exact h r

theorem Kept.same {n n' : Node V} (h : Kept n) (store : n'.store = n.store)
    (puts : n'.puts = n.puts) : Kept n' := by
  intro r
  rw [lastPut, store, puts]
  exact h r

variable [DecidableEq V] {G : SimpleGraph V} [DecidableRel G.Adj] {s s' : State V}

theorem setNode_kept (h : ∀ w, Kept (s.node w)) {v : V} {n : Node V} (new : Kept n) (w : V) :
    Kept ((s.setNode v n).node w) := by
  by_cases here : w = v
  · subst here
    rw [setNode_self]
    exact new
  · rw [setNode_of_ne here]
    exact h w

theorem kept_step (h : ∀ w, Kept (s.node w)) (a : Label V)
    (edge : Flood.step G s a = some s') : ∀ w, Kept (s'.node w) := by
  cases a with
  | issue v k region data stamp =>
    simp only [Flood.step, issueStep] at edge
    split at edge
    · split at edge <;> cases edge
      · exact setNode_kept h ((h v).same rfl rfl)
      · exact h
    · cases edge
  | receive v u =>
    simp only [Flood.step, receiveStep] at edge
    split at edge
    · split at edge <;> cases edge
      · exact setNode_kept h ((h v).same rfl rfl)
      · exact h
    · cases edge
  | put v x =>
    simp only [Flood.step, putStep] at edge
    split at edge <;> cases edge
    exact setNode_kept h ((h v).put rfl rfl)
  | push v x =>
    simp only [Flood.step, pushStep] at edge
    split at edge <;> cases edge
    exact setNode_kept h ((h v).same rfl rfl)
  | broadcast v =>
    simp only [Flood.step, broadcastStep] at edge
    split at edge <;> cases edge
    exact setNode_kept h ((h v).same rfl rfl)

theorem kept_of_reach {ok : State V → Label V → Prop} (h : (flood G).Reach ok s) :
    ∀ w, Kept (s.node w) := by
  have start : ∀ w, Kept ((flood G).init.node w) := fun w r => ⟨rfl, fun q last => by cases last⟩
  exact h.invariant start fun _ a _ inv _ edge => kept_step inv a edge

end Stores

section Quiet

variable [DecidableEq V] {G : SimpleGraph V} [DecidableRel G.Adj] {s : State V} {v w : V}
  {i j : Issue V} {r : Region}

theorem before_of_sent {p q : Put V} (inv : Conserved G s) (quiet : Quiet s)
    (queuedOnce : (queued (s.node v)).Nodup) (placedOnce : (placed (s.node w)).Nodup)
    (first : p ∈ (s.node w).puts) (second : q ∈ (s.node w).puts)
    (via : p.via = .clip v ∧ q.via = .clip v) (kept : p.accepted = true ∧ q.accepted = true)
    (before : Before p.p q.p (queued (s.node v))) :
    Before p.p q.p (placed (s.node w)) ∧ Before p.p q.p (queued (s.node w)) := by
  have idle := quiet.slaves w (.clip v)
  have crossed : putsVia (s.node w) (.clip v) = forwarded G (s.node v) v w := by
    have arrived := inv.arrived w (.clip v)
    rw [inv.crossed, idle, inFlight, quiet.links v w] at arrived
    simpa [unplaced] using arrived.symm
  have sent {x : Put V} (put : x ∈ (s.node w).puts) (from_ : x.via = .clip v) :
      ∃ b ∈ (s.node v).passed, b.p = x.p ∧ Forwards G v w b := by
    have came : x.p ∈ putsVia (s.node w) (.clip v) :=
      List.mem_map_of_mem (List.mem_filter.mpr ⟨put, by simp [from_]⟩)
    rw [crossed, forwarded] at came
    obtain ⟨b, passes, same⟩ := List.mem_map.mp came
    obtain ⟨passed, goes⟩ := List.mem_filter.mp passes
    exact ⟨b, passed, same, of_decide_eq_true goes⟩
  have placed_ : Before p.p q.p (placed (s.node w)) := by
    obtain ⟨b, passed, same, goes⟩ := sent first via.1
    obtain ⟨c, passed', same', goes'⟩ := sent second via.2
    have all : pushes (s.node v) = (s.node v).passed := by
      rw [pushes, quiet.queues v, List.append_nil]
    rw [queued, all] at queuedOnce before
    rw [← same, ← same'] at before ⊢
    have order := before_of_map queuedOnce passed passed' before
    have forwarded_ := (order.filter (p := fun b => decide (Forwards G v w b))
      (decide_eq_true goes) (decide_eq_true goes')).map (·.p)
    rw [← forwarded, ← crossed] at forwarded_
    exact forwarded_.sub (List.Sublist.map _ List.filter_sublist)
  refine ⟨placed_, ?_⟩
  have order := before_of_map placedOnce first second placed_
  have accepted := (order.filter (p := fun q => decide (q.via = .clip v) && q.accepted)
    (by simp [via.1, kept.1]) (by simp [via.2, kept.2])).map (·.p)
  have pushed := inv.pushed w (.clip v)
  rw [idle] at pushed
  simp only [unpushed, List.append_nil] at pushed
  rw [← acceptedVia, pushed] at accepted
  exact accepted.sub (List.Sublist.map _ List.filter_sublist)

theorem Ahead.everywhere (tree : G.IsTree) (reached : (flood G).Reach System.anyStep s)
    (quiet : Quiet s) (here : i ∈ s.issued) (there : j ∈ s.issued)
    (all : ∀ w, (∃ q ∈ (s.node w).puts, q.p = i.p ∧ q.accepted = true) ∧
      ∃ q ∈ (s.node w).puts, q.p = j.p ∧ q.accepted = true)
    (ahead : Ahead s i j) (n : Nat) (w : V) (far : G.dist j.node w = n) :
    Before i.p j.p (placed (s.node w)) ∧ Before i.p j.p (queued (s.node w)) := by
  have inv : Conserved G s := conserved_of_reach reached
  have routed := routed_of_reach tree reached
  induction n generalizing w with
  | zero =>
    obtain rfl : j.node = w := (tree.connected.dist_eq_zero_iff).mp far
    exact ahead
  | succ n ih =>
    have apart : w ≠ j.node := by
      rintro rfl
      rw [SimpleGraph.dist_self] at far
      omega
    obtain ⟨v, adj, closer⟩ := closer_exists (o := j.node) tree apart
    obtain ⟨placed_, queued_⟩ := ih v (by omega)
    have route {k : Issue V} (known : k ∈ s.issued) {x : V} {q : Put V}
        (put : q ∈ (s.node x).puts) (same : q.p = k.p) : Route G k x q.via := by
      obtain ⟨l, issued, equal, route⟩ := routed x _ _ (sent_of_put inv put)
      obtain rfl := issue_unique inv.numbered issued known (equal.trans same)
      exact route
    obtain ⟨⟨p, first, same, kept⟩, q, second, same', kept'⟩ := all w
    have via' : q.via = .clip v := (route there second same').unique tree ⟨adj, closer⟩
    by_cases via : p.via = .clip v
    · rw [← same, ← same'] at queued_ ⊢
      exact before_of_sent inv quiet (pushes_nodup tree inv routed v) (puts_nodup tree inv routed w)
        first second ⟨via, via'⟩ ⟨kept, kept'⟩ queued_
    · -- the first copy went the other way
      have back : G.dist i.node v = G.dist i.node w + 1 := by
        by_contra not_
        have further := further_of_not_closer (o := i.node) tree adj not_
        exact via ((route here first same).unique tree ⟨adj, further⟩)
      obtain ⟨⟨p', first', same'', _⟩, _⟩ := all v
      have via'' : p'.via = .clip w := (route here first' same'').unique tree ⟨adj.symm, back⟩
      have came : i.p ∈ putsVia (s.node v) (.clip w) :=
        same'' ▸ List.mem_map_of_mem (List.mem_filter.mpr ⟨first', by simp [via'']⟩)
      have came' : j.p ∈ putsVia (s.node w) (.clip v) :=
        same' ▸ List.mem_map_of_mem (List.mem_filter.mpr ⟨second, by simp [via']⟩)
      obtain ⟨order, later⟩ := passing_of_reach tree reached w v i.p came j.p came' placed_
      refine ⟨order, later ?_⟩
      obtain ⟨b, passed, equal, _⟩ := passed_of_accepted inv quiet second kept'
      rw [← same', ← equal]
      exact List.mem_map_of_mem (List.mem_append_left _ passed)

omit [DecidableEq V] in
theorem Ahead.not_last {q : Put V} (before : Before i.p j.p (placed (s.node w)))
    (once : (placed (s.node w)).Nodup) (landed : Lands j.p r)
    (kept : ∃ q ∈ (s.node w).puts, q.p = j.p ∧ q.accepted = true)
    (last : lastPut (s.node w) r = some q) : q.p ≠ i.p := by
  intro same
  obtain ⟨k, second, equal, yes⟩ := kept
  have mine := List.mem_of_getLast? last
  obtain ⟨first, held⟩ := List.mem_filter.mp mine
  have order : Before q k (s.node w).puts :=
    before_of_map (f := (·.p)) once first second (by rwa [same, equal])
  have taken := order.filter (p := fun q => q.accepted && decide (Lands q.p r)) held
    (by simp [yes, equal, landed])
  exact taken.not_last ((List.Nodup.of_map _ once).filter _) last

end Quiet

end DistributedClipboard.Network.Ties
