/- module: DistributedClipboard/Network/Delivery
   source: src/src/interfaces/clipif.c, src/src/interfaces/appif.c, src/src/mem/clmem.c
   layer: theorem
   digest: When the network is quiet the newest copies have been accepted once by every clipboard. -/

import DistributedClipboard.Network.Routes

set_option autoImplicit false
set_option relaxedAutoImplicit false

namespace DistributedClipboard.Network.Delivery

open DistributedClipboard.Common
open DistributedClipboard.Lib.Transition
open DistributedClipboard.Lib.Tree
open DistributedClipboard.Mem.Clmem
open DistributedClipboard.Network.Conservation
open DistributedClipboard.Network.Flood
open DistributedClipboard.Network.Routes
open DistributedClipboard.Utils.Packet

universe u

/-- A copy to region `r` with something in it. -/
def Lands (p : Packet) (r : Region) : Prop := regionOf (p.region.toNat : Int) = some r ∧ p.data ≠ []

instance (p : Packet) (r : Region) : Decidable (Lands p r) := inferInstanceAs (Decidable (_ ∧ _))

/-- The copy's timestamp as a number. -/
def stamp (p : Packet) : Nat := p.recvAt.toNat

variable {V : Type u}

/-- What a clipboard's memory says of the calls of `mem_put` so far. -/
structure Stored (n : Node V) : Prop where
  rejected : ∀ q ∈ n.puts, q.accepted = false → ∀ r, Lands q.p r →
    ∃ q' ∈ n.puts, q'.accepted = true ∧ Lands q'.p r ∧ stamp q.p < stamp q'.p
  accepted : ∀ q ∈ n.puts, q.accepted = true → ∃ r, Lands q.p r ∧ (n.store r).data.isSome = true ∧
    stamp q.p ≤ (n.store r).updateCond
  origin : ∀ r, (n.store r).data.isSome = true → ∃ q ∈ n.puts, q.accepted = true ∧ Lands q.p r ∧
    (n.store r).data = some q.p.data ∧ (n.store r).updateCond = stamp q.p

section Stores

theorem Lands.unique {p : Packet} {r r' : Region} (h : Lands p r) (h' : Lands p r') : r = r' :=
  Option.some.inj (h.1.symm.trans h'.1)

theorem Stored.put {n n' : Node V} {p : Packet} {x : Peer V} (h : Stored n)
    (store : n'.store = (p.put n.store).2)
    (puts : n'.puts = n.puts ++ [⟨p, x, decide ((p.put n.store).1 ≠ 0)⟩]) : Stored n' := by
  have old {q : Put V} (mine : q ∈ n.puts) : q ∈ n'.puts := by
    rw [puts]
    exact List.mem_append_left _ mine
  rcases memPut_cases n.store p.region.toNat p.data p.recvAt.toNat with
    ⟨zero, same, newer⟩ | ⟨r, region, filled, olds, length, changed⟩
  · -- refused, and the memory is as it was
    have keeps : n'.store = n.store := store.trans same
    have refused : (p.put n.store).1 = 0 := zero
    refine ⟨fun q mine no r lands => ?_, fun q mine yes => ?_, fun r data => ?_⟩
    · rw [puts] at mine
      rcases List.mem_append.mp mine with before | now
      · obtain ⟨q', mine', rest⟩ := h.rejected q before no r lands
        exact ⟨q', old mine', rest⟩
      · obtain rfl := List.mem_singleton.mp now
        obtain ⟨held, later⟩ := newer r lands.1 lands.2
        obtain ⟨q', mine', yes, lands', _, cond⟩ := h.origin r held
        rw [cond] at later
        exact ⟨q', old mine', yes, lands', later⟩
    · rw [puts] at mine
      rw [keeps]
      rcases List.mem_append.mp mine with before | now
      · exact h.accepted q before yes
      · obtain rfl := List.mem_singleton.mp now
        simp [refused] at yes
    · rw [keeps] at data ⊢
      obtain ⟨q, mine, rest⟩ := h.origin r data
      exact ⟨q, old mine, rest⟩
  · have placed : n'.store = Function.update n.store r
        ⟨some p.data, p.data.length, p.recvAt.toNat, (n.store r).terminate⟩ := store.trans changed
    have lands : Lands p r := ⟨region, filled⟩
    have yes : decide ((p.put n.store).1 ≠ 0) = true := by
      have positive : (p.put n.store).1 = p.data.length := length
      rw [positive]
      simpa using filled
    have new : ⟨p, x, true⟩ ∈ n'.puts := by
      rw [puts, yes]
      exact List.mem_append_right _ (List.mem_singleton.mpr rfl)
    refine ⟨fun q mine no r' lands' => ?_, fun q mine accepted => ?_, fun r' data => ?_⟩
    · rw [puts, yes] at mine
      rcases List.mem_append.mp mine with before | now
      · obtain ⟨q', mine', rest⟩ := h.rejected q before no r' lands'
        exact ⟨q', old mine', rest⟩
      · obtain rfl := List.mem_singleton.mp now
        cases no
    · rw [puts, yes] at mine
      rw [placed]
      rcases List.mem_append.mp mine with before | now
      · obtain ⟨r', lands', held, cond⟩ := h.accepted q before accepted
        refine ⟨r', lands', ?_⟩
        by_cases here : r' = r
        · subst here
          rw [Function.update_self]
          exact ⟨rfl, cond.trans (olds held)⟩
        · rw [Function.update_of_ne here]
          exact ⟨held, cond⟩
      · obtain rfl := List.mem_singleton.mp now
        refine ⟨r, lands, ?_⟩
        rw [Function.update_self]
        exact ⟨rfl, Nat.le_refl _⟩
    · rw [placed] at data ⊢
      by_cases here : r' = r
      · subst here
        rw [Function.update_self]
        exact ⟨_, new, rfl, lands, rfl, rfl⟩
      · rw [Function.update_of_ne here] at data ⊢
        obtain ⟨q, mine, rest⟩ := h.origin r' data
        exact ⟨q, old mine, rest⟩

variable [DecidableEq V] {G : SimpleGraph V} [DecidableRel G.Adj] {s s' : State V}

theorem setNode_stored (h : ∀ w, Stored (s.node w)) {v : V} {n : Node V} (new : Stored n) (w : V) :
    Stored ((s.setNode v n).node w) := by
  by_cases here : w = v
  · subst here
    rw [setNode_self]
    exact new
  · rw [setNode_of_ne here]
    exact h w

theorem stored_step (h : ∀ w, Stored (s.node w)) (a : Label V)
    (edge : Flood.step G s a = some s') : ∀ w, Stored (s'.node w) := by
  cases a with
  | issue v k region data stamp =>
    simp only [Flood.step, issueStep] at edge
    split at edge
    · split at edge <;> cases edge
      · exact setNode_stored h ⟨(h v).rejected, (h v).accepted, (h v).origin⟩
      · exact h
    · cases edge
  | receive v u =>
    simp only [Flood.step, receiveStep] at edge
    split at edge
    · split at edge <;> cases edge
      · exact setNode_stored h ⟨(h v).rejected, (h v).accepted, (h v).origin⟩
      · exact h
    · cases edge
  | put v x =>
    simp only [Flood.step, putStep] at edge
    split at edge <;> cases edge
    exact setNode_stored h ((h v).put rfl rfl)
  | push v x =>
    simp only [Flood.step, pushStep] at edge
    split at edge <;> cases edge
    exact setNode_stored h ⟨(h v).rejected, (h v).accepted, (h v).origin⟩
  | broadcast v =>
    simp only [Flood.step, broadcastStep] at edge
    split at edge <;> cases edge
    exact setNode_stored h ⟨(h v).rejected, (h v).accepted, (h v).origin⟩

theorem stored_of_reach {ok : State V → Label V → Prop} (h : (flood G).Reach ok s) :
    ∀ w, Stored (s.node w) := by
  have start : ∀ w, Stored ((flood G).init.node w) := fun w =>
    ⟨fun q mine => absurd mine List.not_mem_nil, fun q mine => absurd mine List.not_mem_nil, nofun⟩
  exact h.invariant start fun _ a _ inv _ edge => stored_step inv a edge

end Stores

section Quiet

variable [DecidableEq V] {G : SimpleGraph V} [DecidableRel G.Adj] {s : State V} {v w : V}
  {x : Peer V} {p : Packet} {r : Region} {i : Issue V}

theorem put_of_sent (inv : Conserved G s) (quiet : Quiet s) (mine : p ∈ s.sent v x) :
    ∃ q ∈ (s.node v).puts, q.p = p ∧ q.via = x := by
  have flight : inFlight s v x = [] := by
    cases x with
    | app k => rfl
    | clip u => exact quiet.links u v
  exact inv.put_of_sent (quiet.slaves v x) flight mine

theorem passed_of_accepted (inv : Conserved G s) (quiet : Quiet s) {q : Put V}
    (put : q ∈ (s.node v).puts) (yes : q.accepted = true) :
    ∃ b ∈ (s.node v).passed, b.p = q.p ∧ b.fromPeer = q.via :=
  inv.passed_of_accepted (quiet.slaves v q.via) (quiet.queues v) put yes

/-- The copy carries the greatest timestamp of all copies issued to the region. -/
def Newest (s : State V) (i : Issue V) (r : Region) : Prop :=
  i ∈ s.issued ∧ Lands i.p r ∧ ∀ j ∈ s.issued, Lands j.p r → stamp j.p ≤ stamp i.p

theorem Newest.accepted (newest : Newest s i r) (inv : Conserved G s) (routed : Routed G s)
    (stored : Stored (s.node v)) {q : Put V} (put : q ∈ (s.node v).puts) (same : q.p = i.p) :
    q.accepted = true := by
  by_contra refused
  obtain ⟨q', put', _, lands, later⟩ :=
    stored.rejected q put (by simpa using refused) r (same ▸ newest.2.1)
  obtain ⟨j, issued, equal, _⟩ := routed v _ _ (sent_of_put inv put')
  have bound := newest.2.2 j issued (equal ▸ lands)
  rw [same, ← equal] at later
  omega

/-- A newest copy that can be received and sent has been accepted everywhere. By induction on the
distance from where it was issued. -/
theorem Newest.everywhere (tree : G.IsTree) (inv : Conserved G s) (routed : Routed G s)
    (stored : ∀ w, Stored (s.node w)) (quiet : Quiet s) (newest : Newest s i r)
    (received : i.p.received = true) (n : Nat) (v : V) (far : G.dist i.node v = n)
    (sendable : n ≠ 0 → i.p.sendable = true) :
    ∃ q ∈ (s.node v).puts, q.p = i.p ∧ q.accepted = true := by
  induction n generalizing v with
  | zero =>
    have here : i.node = v := (tree.connected.dist_eq_zero_iff).mp far
    have sent : i.p ∈ s.sent v (.app i.app) := by
      rw [inv.issued]
      refine List.mem_map_of_mem (List.mem_filter.mpr ⟨newest.1, ?_⟩)
      simp [here, received]
    obtain ⟨q, put, same, _⟩ := put_of_sent inv quiet sent
    exact ⟨q, put, same, newest.accepted inv routed (stored v) put same⟩
  | succ n ih =>
    have apart : v ≠ i.node := by
      rintro rfl
      rw [SimpleGraph.dist_self] at far
      omega
    obtain ⟨u, adj, closer⟩ := closer_exists (o := i.node) tree apart
    obtain ⟨q, put, same, yes⟩ := ih u (by omega) fun _ => sendable (Nat.succ_ne_zero n)
    obtain ⟨b, passed, equal, via⟩ := passed_of_accepted inv quiet put yes
    have outward : b.fromPeer ≠ .clip v := by
      intro back
      obtain ⟨j, issued, known, route⟩ := routed u _ _ (sent_of_put inv put)
      rw [← via, back] at route
      obtain rfl := issue_unique inv.numbered issued newest.1 (known.trans same)
      have further := route.2
      omega
    have sent : i.p ∈ s.sent v (.clip u) := by
      rw [inv.crossed, forwarded, ← same, ← equal]
      refine List.mem_map_of_mem (List.mem_filter.mpr ⟨passed, decide_eq_true ⟨adj, outward, ?_⟩⟩)
      rw [equal, same]
      exact sendable (Nat.succ_ne_zero n)
    obtain ⟨q', put', same', _⟩ := put_of_sent inv quiet sent
    exact ⟨q', put', same', newest.accepted inv routed (stored v) put' same'⟩

end Quiet

section Statements

variable [DecidableEq V]

/-- Every packet crosses each connection at most once, away from where its copy was issued, and is
put at most once in each clipboard. -/
structure OnceOutward (G : SimpleGraph V) (s : State V) : Prop where
  once : ∀ u v, (s.sent v (.clip u)).Nodup
  outward : ∀ u v p, p ∈ s.sent v (.clip u) → G.Adj u v ∧
    ∃ i ∈ s.issued, i.p = p ∧ G.dist i.node v = G.dist i.node u + 1
  putOnce : ∀ v, ((s.node v).puts.map (·.p)).Nodup

def newestStamp (s : State V) (r : Region) : Option Nat :=
  ((s.issued.filter fun i => decide (Lands i.p r)).map fun i => stamp i.p).max?

def acceptances (s : State V) (v : V) (p : Packet) : Nat :=
  (s.node v).puts.countP fun q => decide (q.p = p) && q.accepted

/-- Every clipboard holds the greatest timestamp issued to each region, and has accepted each copy
that carries it exactly once. -/
def NewestEverywhere (s : State V) : Prop :=
  ∀ r M, newestStamp s r = some M → ∀ v,
    (((s.node v).store r).data.isSome = true ∧ ((s.node v).store r).updateCond = M) ∧
      ∀ i ∈ s.issued, Lands i.p r → stamp i.p = M → acceptances s v i.p = 1

variable {G : SimpleGraph V} [DecidableRel G.Adj] {s : State V} {r : Region} {M : Nat} {v : V}

omit [DecidableEq V] in
theorem newestStamp_eq_some_iff : newestStamp s r = some M ↔
    (∃ i ∈ s.issued, Lands i.p r ∧ stamp i.p = M) ∧
      ∀ i ∈ s.issued, Lands i.p r → stamp i.p ≤ M := by
  rw [newestStamp, List.max?_eq_some_iff]
  simp only [List.mem_map, List.mem_filter, decide_eq_true_eq, and_assoc, forall_exists_index,
    and_imp]
  constructor
  · rintro ⟨carried, most⟩
    exact ⟨carried, fun i issued lands => most _ i issued lands rfl⟩
  · rintro ⟨carried, most⟩
    refine ⟨carried, fun b i issued lands same => ?_⟩
    rw [← same]
    exact most i issued lands

omit [DecidableEq V] in
theorem newest_iff {i : Issue V} :
    Newest s i r ↔ i ∈ s.issued ∧ Lands i.p r ∧ newestStamp s r = some (stamp i.p) := by
  rw [newestStamp_eq_some_iff]
  constructor
  · rintro ⟨issued, lands, most⟩
    exact ⟨issued, lands, ⟨i, issued, lands, rfl⟩, most⟩
  · rintro ⟨issued, lands, _, most⟩
    exact ⟨issued, lands, most⟩

omit [DecidableEq V] in
theorem acceptances_le_one (once : ((s.node v).puts.map (·.p)).Nodup) (p : Packet) :
    acceptances s v p ≤ 1 := by
  refine le_trans (List.countP_mono_left (q := fun q => decide (q.p = p)) fun q _ both => ?_) ?_
  · exact (Bool.and_eq_true _ _ ▸ both).1
  · have count := List.nodup_iff_count_le_one.mp once p
    rw [List.count_eq_countP, List.countP_map] at count
    exact count

omit [DecidableEq V] in
theorem acceptances_pos_iff {p : Packet} :
    0 < acceptances s v p ↔ ∃ q ∈ (s.node v).puts, q.p = p ∧ q.accepted = true := by
  rw [acceptances, List.countP_pos_iff]
  simp

theorem onceOutward_of_inv (tree : G.IsTree) (inv : Conserved G s) (routed : Routed G s) :
    OnceOutward G s where
  once u v := sent_nodup tree inv routed v (.clip u)
  outward u v p mine := by
    obtain ⟨i, issued, same, adj, further⟩ := routed v (.clip u) p mine
    exact ⟨adj, i, issued, same, further⟩
  putOnce v := puts_nodup tree inv routed v

theorem size_of_newest (inv : Conserved G s) (routed : Routed G s) (all : NewestEverywhere s)
    {i : Issue V} (newest : Newest s i r) :
    i.p.received = true ∧ (Nontrivial V → i.p.sendable = true) := by
  obtain ⟨issued, lands, greatest⟩ := newest_iff.mp newest
  have came (v : V) : ∃ x, i.p ∈ s.sent v x ∧ Route G i v x := by
    have once := (all r _ greatest v).2 i issued lands rfl
    obtain ⟨q, put, same, _⟩ := acceptances_pos_iff.mp (by rw [once]; exact Nat.one_pos)
    have sent := sent_of_put inv put
    obtain ⟨j, known, equal, route⟩ := routed v _ _ sent
    obtain rfl := issue_unique inv.numbered known issued (equal.trans same)
    exact ⟨q.via, same ▸ sent, route⟩
  constructor
  · obtain ⟨x, sent, route⟩ := came i.node
    cases x with
    | clip u => exact absurd route.2 (not_closer_self u)
    | app k =>
      rw [inv.issued, issuedBy, List.mem_map] at sent
      obtain ⟨j, passes, same⟩ := sent
      have received := (Bool.and_eq_true _ _ ▸ (List.mem_filter.mp passes).2).2
      rw [← same]
      exact received
  · intro several
    obtain ⟨v, apart⟩ := exists_ne i.node
    obtain ⟨x, sent, route⟩ := came v
    cases x with
    | app k => exact absurd route.1.symm apart
    | clip u =>
      obtain ⟨b, _, same, goes⟩ := broadcast_of_sent inv sent
      rw [← same]
      exact goes.2.2

theorem newest_everywhere (tree : G.IsTree) (inv : Conserved G s) (routed : Routed G s)
    (stored : ∀ w, Stored (s.node w)) (quiet : Quiet s)
    (sizes : ∀ i r, Newest s i r → i.p.received = true ∧ (Nontrivial V → i.p.sendable = true)) :
    NewestEverywhere s := by
  intro r M greatest v
  have reaches (i : Issue V) (newest : Newest s i r) :
      ∃ q ∈ (s.node v).puts, q.p = i.p ∧ q.accepted = true := by
    obtain ⟨received, sendable⟩ := sizes i r newest
    refine newest.everywhere tree inv routed stored quiet received _ v rfl fun far => sendable ?_
    refine ⟨i.node, v, ?_⟩
    rintro rfl
    exact far SimpleGraph.dist_self
  obtain ⟨⟨i, issued, lands, rfl⟩, most⟩ := newestStamp_eq_some_iff.mp greatest
  refine ⟨?_, fun j known lands' same => ?_⟩
  · obtain ⟨q, put, same, yes⟩ := reaches i ⟨issued, lands, most⟩
    obtain ⟨r', lands', held, least⟩ := (stored v).accepted q put yes
    obtain rfl : r' = r := lands'.unique (same ▸ lands)
    refine ⟨held, Nat.le_antisymm ?_ (same ▸ least)⟩
    obtain ⟨q', put', _, lands'', _, cond⟩ := (stored v).origin r' held
    obtain ⟨j, known, equal, _⟩ := routed v _ _ (sent_of_put inv put')
    rw [cond, ← equal]
    exact most j known (equal ▸ lands'')
  · have newest : Newest s j r := ⟨known, lands', fun l hl hl' => same ▸ most l hl hl'⟩
    have some := acceptances_pos_iff.mpr (reaches j newest)
    have atMost := acceptances_le_one (puts_nodup tree inv routed v) j.p
    omega

end Statements

section Flood

variable [DecidableEq V] {G : SimpleGraph V} [DecidableRel G.Adj] {s : State V}

/-- In every run over a tree the packets flood outwards once, and when the network is quiet the
newest copies have reached everybody exactly if they are small enough for the frames' `int size`. -/
theorem flood_delivers_iff (tree : G.IsTree) (h : (flood G).Reach System.anyStep s) :
    OnceOutward G s ∧ (Quiet s → (NewestEverywhere s ↔ ∀ i r, Newest s i r →
      i.p.data.length < 2 ^ 31 ∧ (Nontrivial V → i.p.data.length ≤ 2 ^ 31 - 11))) := by
  have inv : Conserved G s := conserved_of_reach h
  have routed := routed_of_reach tree h
  have stored := stored_of_reach h
  refine ⟨onceOutward_of_inv tree inv routed, fun quiet => ⟨fun all i r newest => ?_, fun sizes => ?_⟩⟩
  · obtain ⟨received, sendable⟩ := size_of_newest inv routed all newest
    refine ⟨Packet.received_iff.mp received, fun several => ?_⟩
    have small := Packet.sendable_iff.mp (sendable several)
    rw [packetDataSize] at small
    omega
  · refine newest_everywhere tree inv routed stored quiet fun i r newest => ?_
    obtain ⟨received, sendable⟩ := sizes i r newest
    refine ⟨Packet.received_iff.mpr received, fun several => Packet.sendable_iff.mpr ?_⟩
    have small := sendable several
    rw [packetDataSize]
    omega

end Flood

section Pair

theorem pair_isTree : (⊤ : SimpleGraph (Fin 2)).IsTree :=
  ⟨SimpleGraph.connected_top, .of_card_le_two (by simp)⟩

def exchange {V : Type u} (v w : V) (first second : UInt32) : List (Label V) :=
  [.issue v firstApp 3 [1] first, .issue w firstApp 3 [2] second, .put v (.app firstApp),
    .put w (.app firstApp), .push v (.app firstApp), .push w (.app firstApp), .broadcast v,
    .broadcast w, .receive w v, .receive v w, .put w (.clip v), .put v (.clip w),
    .push v (.clip w), .broadcast v]

theorem flood_delivers_iff_crossing : ∃ s : State (Fin 2),
    (flood ⊤).Reach System.anyStep s ∧ Quiet s ∧ newestStamp s ⟨3, by decide⟩ = some 7 ∧
      OnceOutward ⊤ s ∧ NewestEverywhere s := by
  have reached : ∃ s : State (Fin 2), (flood ⊤).Reach System.anyStep s ∧
      decide (Quiet s ∧ (∀ i ∈ s.issued, i.p.data.length ≤ 5) ∧
        newestStamp s ⟨3, by decide⟩ = some 7) = true :=
    System.reach_of_run _ true (exchange 0 1 5 7) (by simp [System.anyStep]) (by decide +kernel)
  obtain ⟨s, reached, seen⟩ := reached
  obtain ⟨quiet, small, newest⟩ := of_decide_eq_true seen
  obtain ⟨outward, everywhere⟩ := flood_delivers_iff pair_isTree reached
  refine ⟨s, reached, quiet, newest, outward, (everywhere quiet).mpr fun i r carried => ?_⟩
  have five := small i carried.1
  exact ⟨by omega, fun _ => by omega⟩

variable {V : Type u} [DecidableEq V] {G : SimpleGraph V} [DecidableRel G.Adj]

theorem big_copy_stays (v : V) (data : List UInt8) (received : data.length < 2 ^ 31)
    (big : 2 ^ 31 - 11 < data.length) : ∃ s, (flood G).Reach System.anyStep s ∧ Quiet s ∧
      s.issued = [⟨v, firstApp, ⟨0, 0, data, 5⟩⟩] := by
  have filled : data ≠ [] := by
    rintro rfl
    simp at big
  have whole : Packet.received ⟨0, 0, data, 5⟩ = true := Packet.received_iff.mpr received
  have none_ : Packet.sendable ⟨0, 0, data, 5⟩ = false := by
    rw [Bool.eq_false_iff, Ne, Packet.sendable_iff, packetDataSize]
    show ¬ 10 + data.length < 2 ^ 31
    omega
  have unsigned : data.length < 4294967296 := by omega
  have placed : (Packet.put memInit ⟨0, 0, data, 5⟩).1 = data.length := by
    simp [Packet.put, memPut, memInit, regionOf, nRegions, filled]
  have run : ∃ s, (flood G).run (flood G).init [.issue v firstApp 0 data 5, .put v (.app firstApp),
      .push v (.app firstApp), .broadcast v] = some s ∧ Quiet s ∧
      s.issued = [⟨v, firstApp, ⟨0, 0, data, 5⟩⟩] := by
    simp only [System.run, flood, Flood.step, issueStep, putStep, pushStep, broadcastStep, nodeInit,
      State.setSlave, State.setNode, Forwards]
    simp [whole, none_, unsigned, placed, filled]
    refine ⟨fun w => ?_, fun _ _ => rfl, fun w x => ?_⟩
    · by_cases here : w = v <;> simp [here]
    · by_cases here : w = v <;> simp [here]
  obtain ⟨s, edges, quiet, issued⟩ := run
  exact ⟨s, System.path_of_run _ (fun _ _ _ => trivial) edges, quiet, issued⟩

theorem big_copy_stays_alone [Nontrivial V] (tree : G.IsTree) (v : V) (data : List UInt8)
    (received : data.length < 2 ^ 31) (big : 2 ^ 31 - 11 < data.length) :
    ∃ s, (flood G).Reach System.anyStep s ∧ Quiet s ∧ ¬ NewestEverywhere s := by
  obtain ⟨s, reached, quiet, issued⟩ := big_copy_stays (G := G) v data received big
  refine ⟨s, reached, quiet, fun all => ?_⟩
  have filled : data ≠ [] := by
    rintro rfl
    simp at big
  have newest : Newest s ⟨v, firstApp, ⟨0, 0, data, 5⟩⟩ firstRegion := by
    refine ⟨?_, ⟨regionOf_val firstRegion, filled⟩, fun j known _ => ?_⟩
    · rw [issued]
      exact List.mem_singleton_self _
    · rw [issued] at known
      rw [List.mem_singleton.mp known]
  obtain ⟨_, sendable⟩ :=
    size_of_newest (conserved_of_reach reached) (routed_of_reach tree reached) all newest
  have small : 10 + data.length < 2 ^ 31 := Packet.sendable_iff.mp (sendable inferInstance)
  omega

/-- A copy of 2^31 - 10 bytes is kept where it was issued and never gets to the other clipboard. -/
theorem big_copy_missed : ∃ s : State (Fin 2), (flood ⊤).Reach System.anyStep s ∧ Quiet s ∧
    ¬ NewestEverywhere s := by
  apply big_copy_stays_alone pair_isTree 0 (List.replicate (2 ^ 31 - 10) 0)
  · rw [List.length_replicate]
    omega
  · rw [List.length_replicate]
    omega

end Pair

end DistributedClipboard.Network.Delivery
