/- module: DistributedClipboard/Network/BrokenLinks
   source: src/src/interfaces/clipif.c, src/src/interfaces/appif.c, src/src/mem/clmem.c
   layer: theorem
   digest: Connections that break and clipboards that stop, and what the clipboards left agree on. -/

import DistributedClipboard.Network.Pastes
import Mathlib.Combinatorics.SimpleGraph.Star

set_option autoImplicit false
set_option relaxedAutoImplicit false

namespace DistributedClipboard.Network.BrokenLinks

open DistributedClipboard.Common
open DistributedClipboard.Lib.Transition
open DistributedClipboard.Mem.Clmem
open DistributedClipboard.Network.Conservation
open DistributedClipboard.Network.Convergence (held)
open DistributedClipboard.Network.Delivery
open DistributedClipboard.Network.Flood hiding State Label step
open DistributedClipboard.Network.Pastes (Known known_of_reach)
open DistributedClipboard.Network.Quiescence
open DistributedClipboard.Network.Routes
open DistributedClipboard.Network.Ties (put_of_pushed)
open DistributedClipboard.Utils.Packet

universe u

/-- The network, and the connections that carry nothing any more from their first end to their
second. -/
structure State (V : Type u) where
  net : Flood.State V
  broken : V → V → Bool

inductive Label (V : Type u)
  | move (a : Flood.Label V)
  | cut (u v : V)
  deriving DecidableEq, Repr

variable {V : Type u} [DecidableEq V]

def carries (s : State V) : Flood.Label V → Bool
  | .receive v u => !s.broken u v
  | _ => true

variable (G : SimpleGraph V) [DecidableRel G.Adj]

def step (s : State V) : Label V → Option (State V)
  | .move a => if carries s a then (Flood.step G s.net a).map fun net => { s with net } else none
  | .cut u v => some { s with broken := fun a w => s.broken a w || decide (a = u ∧ w = v) }

def network : System (State V) (Label V) where
  init := ⟨(flood G).init, fun _ _ => false⟩
  step := step G

section Runs

variable {G} {s s' : State V} {a : Flood.Label V}

theorem move_eq_some (edge : step G s (.move a) = some s') : carries s a = true ∧
    Flood.step G s.net a = some s'.net ∧ s'.broken = s.broken := by
  simp only [step, Option.ite_none_right_eq_some] at edge
  obtain ⟨carried, edge⟩ := edge
  obtain ⟨net, goes, rfl⟩ := Option.map_eq_some_iff.mp edge
  exact ⟨carried, goes, rfl⟩

theorem net_of_reach {ok : State V → Label V → Prop} (h : (network G).Reach ok s) :
    (flood G).Reach System.anyStep s.net := by
  have start : (flood G).Reach System.anyStep (network G).init.net := System.Path.refl _
  refine h.invariant (I := fun t => (flood G).Reach System.anyStep t.net) start
    fun t a t' reached _ edge => ?_
  cases a with
  | move a => exact reached.trans (.single trivial (move_eq_some edge).2.1)
  | cut u v =>
    cases edge
    exact reached

end Runs

section Neighbours

variable {G} {s : Flood.State V} {u v w : V} {r : Region} {p : Packet}

theorem neighbour_put (inv : Conserved G s) (adj : G.Adj u v) (queue : (s.node u).queue = [])
    (slaves : ∀ x, (s.node u).slave x = .idle) (idle : (s.node v).slave (.clip u) = .idle)
    (link : s.link u v = []) {q : Put V} (put : q ∈ (s.node u).puts) (yes : q.accepted = true)
    (sendable : q.p.sendable = true) : ∃ q' ∈ (s.node v).puts, q'.p = q.p := by
  by_cases back : q.via = .clip v
  · have came : q.p ∈ s.sent u (.clip v) := back ▸ sent_of_put inv put
    obtain ⟨b, passed, same, _⟩ := broadcast_of_sent inv came
    obtain ⟨q', put', same', _⟩ := put_of_pushed inv (List.mem_append_left _ passed)
    exact ⟨q', put', same'.trans same⟩
  · obtain ⟨b, passed, same, via⟩ := inv.passed_of_accepted (slaves q.via) queue put yes
    have sent : q.p ∈ s.sent v (.clip u) := by
      rw [inv.crossed, forwarded, ← same]
      refine List.mem_map_of_mem (List.mem_filter.mpr ⟨passed, decide_eq_true ⟨adj, ?_, ?_⟩⟩)
      · rwa [via]
      · rwa [same]
    obtain ⟨q', put', same', _⟩ := inv.put_of_sent idle link sent
    exact ⟨q', put', same'⟩

omit [DecidableEq V] in
theorem covered_of_put {n : Node V} (h : Stored n) {q : Put V} (put : q ∈ n.puts)
    (lands : Lands q.p r) : ∃ q' ∈ n.puts, q'.accepted = true ∧ Lands q'.p r ∧
      (n.store r).data = some q'.p.data ∧ (n.store r).updateCond = stamp q'.p ∧
      stamp q.p ≤ stamp q'.p := by
  have covered : ∃ q₁ ∈ n.puts, q₁.accepted = true ∧ Lands q₁.p r ∧ stamp q.p ≤ stamp q₁.p := by
    cases yes : q.accepted with
    | true => exact ⟨q, put, yes, lands, Nat.le_refl _⟩
    | false =>
      obtain ⟨q₁, put₁, yes₁, lands₁, later⟩ := h.rejected q put yes r lands
      exact ⟨q₁, put₁, yes₁, lands₁, Nat.le_of_lt later⟩
  obtain ⟨q₁, put₁, yes₁, lands₁, le₁⟩ := covered
  obtain ⟨r', lands', filled, le₂⟩ := h.accepted q₁ put₁ yes₁
  obtain rfl := lands'.unique lands₁
  obtain ⟨q', put', yes', landed, data, cond⟩ := h.origin r' filled
  exact ⟨q', put', yes', landed, data, cond, by omega⟩

end Neighbours

section Survivors

def Returns (S : Set V) (s : State V) (v : V) : Prop :=
  ∀ w, G.Adj v w → w ∈ S ∨ s.broken v w = true

/-- What the clipboards of `S` do of their own accord; the others have stopped. -/
def own (S : Set V) (s : State V) : Label V → Prop
  | .move (.broadcast v) => v ∈ S ∧ Returns G S s v
  | .move a => internal s.net a ∧ mover a ∈ S
  | .cut .. => False

def joined (S : Set V) (s : State V) : SimpleGraph V where
  Adj u v := G.Adj u v ∧ u ∈ S ∧ v ∈ S ∧ s.broken u v = false ∧ s.broken v u = false
  symm := ⟨fun _ _ ⟨adj, hu, hv, out, back⟩ => ⟨adj.symm, hv, hu, back, out⟩⟩
  loopless := ⟨fun _ loop => G.loopless.irrefl _ loop.1⟩

structure Rested (S : Set V) (s : State V) : Prop where
  queues : ∀ v ∈ S, (s.net.node v).queue = []
  slaves : ∀ v ∈ S, ∀ x, (s.net.node v).slave x = .idle
  links : ∀ u, ∀ v ∈ S, s.broken u v = false → s.net.link u v = []

def HoldsNewestOf (C : Set V) (s : Flood.State V) (v : V) (r : Region) : Prop :=
  match held s v r with
  | none => ∀ u ∈ C, ∀ q ∈ (s.node u).puts, ¬ Lands q.p r
  | some bytes => ∃ u ∈ C, ∃ q ∈ (s.node u).puts, Lands q.p r ∧ q.p.data = bytes ∧
      ∀ w ∈ C, ∀ q' ∈ (s.node w).puts, Lands q'.p r → stamp q'.p ≤ stamp q.p

def Distinct (s : Flood.State V) (r : Region) : Prop :=
  ∀ i ∈ s.issued, ∀ j ∈ s.issued, Lands i.p r → Lands j.p r → stamp i.p = stamp j.p →
    i.p.data = j.p.data

/-- What the clipboards of `S` come to: each copy that one of their applications has issued has been
put, and the clipboards that are still joined hold the newest of what any of them has put. -/
structure Recovered (S : Set V) (s t : State V) : Prop where
  issued : t.net.issued = s.net.issued
  broken : t.broken = s.broken
  placed : ∀ i ∈ s.net.issued, i.node ∈ S → ∃ q ∈ (t.net.node i.node).puts, q.p = i.p
  newest : ∀ v ∈ S, ∀ r, HoldsNewestOf { u | (joined G S t).Reachable u v } t.net v r
  agree : ∀ u v r, Distinct s.net r → (joined G S t).Reachable u v → held t.net u r = held t.net v r

structure Later (s t : State V) : Prop where
  reached : (flood G).Reach System.anyStep t.net
  issued : t.net.issued = s.net.issued
  broken : t.broken = s.broken

variable {G} {S : Set V} {s t : State V} {u v w : V} {r : Region}

omit [DecidableEq V] [DecidableRel G.Adj] in
theorem own_move {a : Flood.Label V} (mine : own G S s (.move a)) :
    internal s.net a ∧ mover a ∈ S := by
  cases a with
  | broadcast v => exact ⟨trivial, mine.1⟩
  | issue v k region data stamp => exact mine
  | receive v u => exact mine
  | put v x => exact mine
  | push v x => exact mine

theorem rested_of_stuck (returns : ∀ v ∈ S, Returns G S s v)
    (stuck : (network G).Stuck (own G S) s) : Rested S s := by
  have none_ (a : Flood.Label V) (mine : own G S s (.move a)) (carried : carries s a = true) :
      Flood.step G s.net a = none := by
    have still := stuck (.move a) mine
    simpa [network, step, carried] using still
  have slaves (v : V) (mine : v ∈ S) (x : Peer V) : (s.net.node v).slave x = .idle := by
    cases state : (s.net.node v).slave x with
    | idle => rfl
    | received p =>
      have none_ := none_ (.put v x) ⟨trivial, mine⟩ rfl
      simp [Flood.step, putStep, state] at none_
    | placed p =>
      have none_ := none_ (.push v x) ⟨trivial, mine⟩ rfl
      simp [Flood.step, pushStep, state] at none_
  refine ⟨fun v mine => ?_, slaves, fun u v mine whole => ?_⟩
  · cases queue : (s.net.node v).queue with
    | nil => rfl
    | cons b rest =>
      have none_ := none_ (.broadcast v) ⟨mine, returns v mine⟩ rfl
      simp [Flood.step, broadcastStep, queue] at none_
  · cases link : s.net.link u v with
    | nil => rfl
    | cons p rest =>
      have none_ := none_ (.receive v u) ⟨trivial, mine⟩ (by simp [carries, whole])
      simp [Flood.step, receiveStep, slaves v mine, link] at none_

section Rest

variable (inv : Conserved G s.net) (stored : ∀ v, Stored (s.net.node v)) (rested : Rested S s)
  (sizes : ∀ v, ∀ q ∈ (s.net.node v).puts, q.p.sendable = true)

include inv stored rested sizes

/-- What one clipboard has put, all that are joined to it have covered. By induction on the way from
one to the other. -/
theorem covered_of_reachable (path : (joined G S s).Reachable u v) {q : Put V}
    (put : q ∈ (s.net.node u).puts) (lands : Lands q.p r) :
    ∃ q' ∈ (s.net.node v).puts, Lands q'.p r ∧ ((s.net.node v).store r).data = some q'.p.data ∧
      ((s.net.node v).store r).updateCond = stamp q'.p ∧ stamp q.p ≤ stamp q'.p := by
  obtain ⟨walk⟩ := path
  induction walk generalizing q with
  | nil =>
    obtain ⟨q', put', _, rest⟩ := covered_of_put (stored _) put lands
    exact ⟨q', put', rest⟩
  | cons adj _ ih =>
    obtain ⟨adj, mine, other, out, _⟩ := adj
    obtain ⟨q₁, put₁, yes₁, lands₁, _, _, le₁⟩ := covered_of_put (stored _) put lands
    obtain ⟨q₂, put₂, same⟩ := neighbour_put inv adj (rested.queues _ mine) (rested.slaves _ mine)
      (rested.slaves _ other _) (rested.links _ _ other out) put₁ yes₁ (sizes _ _ put₁)
    obtain ⟨q', put', lands', data, cond, le₂⟩ := ih put₂ (same ▸ lands₁)
    rw [same] at le₂
    exact ⟨q', put', lands', data, cond, by omega⟩

theorem holdsNewestOf (v : V) (r : Region) :
    HoldsNewestOf { u | (joined G S s).Reachable u v } s.net v r := by
  have covered {u : V} (path : (joined G S s).Reachable u v) {q : Put V}
      (put : q ∈ (s.net.node u).puts) (lands : Lands q.p r) :=
    covered_of_reachable inv stored rested sizes path put lands
  unfold HoldsNewestOf
  cases data : held s.net v r with
  | none =>
    intro u path q put lands
    obtain ⟨q', _, _, filled, _⟩ := covered path put lands
    rw [held, filled] at data
    cases data
  | some bytes =>
    rw [held] at data
    obtain ⟨q, put, _, lands, same, cond⟩ := (stored v).origin r (by rw [data]; rfl)
    refine ⟨v, .refl v, q, put, lands, Option.some.inj (same.symm.trans data), ?_⟩
    intro w path q' put' lands'
    obtain ⟨q₁, _, _, _, cond₁, le⟩ := covered path put' lands'
    rw [← cond, cond₁]
    exact le

theorem held_eq (known : Known s.net) (distinct : Distinct s.net r)
    (path : (joined G S s).Reachable u v) : held s.net u r = held s.net v r := by
  have covered {a b : V} (path : (joined G S s).Reachable a b) {q : Put V}
      (put : q ∈ (s.net.node a).puts) (lands : Lands q.p r) :=
    covered_of_reachable inv stored rested sizes path put lands
  have issue {a : V} {q : Put V} (put : q ∈ (s.net.node a).puts) :=
    known a q.via q.p (sent_of_put inv put)
  have forth {a b : V} {bytes : List UInt8} (path : (joined G S s).Reachable a b)
      (data : held s.net a r = some bytes) : held s.net b r = some bytes := by
    rw [held] at data ⊢
    obtain ⟨q, put, _, lands, same, cond⟩ := (stored a).origin r (by rw [data]; rfl)
    obtain ⟨q₁, put₁, lands₁, data₁, cond₁, le₁⟩ := covered path put lands
    obtain ⟨q₂, put₂, lands₂, data₂, cond₂, le₂⟩ := covered path.symm put₁ lands₁
    obtain ⟨i, issued, mine⟩ := issue put
    obtain ⟨j, issued', yours⟩ := issue put₁
    have tie : stamp i.p = stamp j.p := by
      rw [mine, yours]
      omega
    have equal := distinct i issued j issued' (mine ▸ lands) (yours ▸ lands₁) tie
    rw [mine, yours] at equal
    rw [data₁, ← equal, ← same, data]
  cases data : held s.net u r with
  | some bytes => exact (forth path data).symm
  | none =>
    cases data' : held s.net v r with
    | none => rfl
    | some bytes =>
      rw [forth path.symm data'] at data
      cases data

end Rest

theorem Later.step [Fintype V] {t' : State V} {a : Label V} (known : Later G s t) (mine : own G S t a)
    (edge : step G t a = some t') : Later G s t' ∧ progress t'.net = progress t.net + 1 := by
  cases a with
  | cut u v => exact absurd mine id
  | move a =>
    obtain ⟨inner, _⟩ := own_move mine
    obtain ⟨_, goes, same⟩ := move_eq_some edge
    have issued := (issued_of_internal inner goes).trans known.issued
    have raised := progress_succ (conserved_of_reach known.reached) inner goes
    exact ⟨⟨known.reached.trans (.single trivial goes), issued, same.trans known.broken⟩, raised⟩

theorem Later.recovered (known : Later G s t) (rested : Rested S t)
    (sizes : ∀ i ∈ s.net.issued, i.p.data.length ≤ 2 ^ 31 - 11) : Recovered G S s t := by
  have inv : Conserved G t.net := conserved_of_reach known.reached
  have stored := stored_of_reach known.reached
  have copies := known_of_reach known.reached
  have sendable (v : V) (q : Put V) (put : q ∈ (t.net.node v).puts) : q.p.sendable = true := by
    obtain ⟨i, mine, same⟩ := copies v q.via q.p (sent_of_put inv put)
    have small := sizes i (known.issued ▸ mine)
    rw [← same, Packet.sendable_iff, packetDataSize]
    omega
  constructor
  case issued => exact known.issued
  case broken => exact known.broken
  case placed =>
    intro i mine here
    have small := sizes i mine
    have received : i.p.received = true := Packet.received_iff.mpr (by omega)
    have sent : i.p ∈ t.net.sent i.node (.app i.app) := by
      rw [inv.issued]
      refine List.mem_map_of_mem (List.mem_filter.mpr ⟨known.issued ▸ mine, ?_⟩)
      simp [received]
    obtain ⟨q, put, same, _⟩ := inv.put_of_sent (rested.slaves _ here _) rfl sent
    exact ⟨q, put, same⟩
  case newest =>
    intro v _ r
    exact holdsNewestOf inv stored rested sendable v r
  case agree =>
    intro u v r distinct path
    refine held_eq inv stored rested sendable copies ?_ path
    unfold Distinct
    rwa [known.issued]

def breakOff {V : Type} (u w : V) : List (Label V) :=
  [Label.move (.issue u firstApp 3 [1] 5), .move (.put u (.app firstApp)), .cut w u, .cut u w,
    .move (.issue w firstApp 3 [2] 7)]

end Survivors

end DistributedClipboard.Network.BrokenLinks
