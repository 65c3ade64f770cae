/- module: DistributedClipboard/Network/Convergence
   source: src/src/interfaces/clipif.c, src/src/interfaces/appif.c, src/src/mem/clmem.c
   layer: theorem
   digest: What the memories of a quiet network hold. -/

import DistributedClipboard.Network.Ties

set_option autoImplicit false
set_option relaxedAutoImplicit false

namespace DistributedClipboard.Network.Convergence

open DistributedClipboard.Common
open DistributedClipboard.Lib.Precedence (Before)
open DistributedClipboard.Lib.Transition
open DistributedClipboard.Mem.Clmem
open DistributedClipboard.Network.Conservation
open DistributedClipboard.Network.Delivery
open DistributedClipboard.Network.Flood
open DistributedClipboard.Network.Routes
open DistributedClipboard.Network.Ties
open DistributedClipboard.Utils.Packet

universe u

variable {V : Type u}

/-- The bytes a clipboard has in a region. -/
def held (s : State V) (v : V) (r : Region) : Option (List UInt8) := ((s.node v).store r).data

/-- Neither copy was there before the other one at the other one's clipboard. -/
def Cross (s : State V) (i j : Issue V) : Prop := ¬ Ahead s i j ∧ ¬ Ahead s j i

/-- No two copies with different bytes that both carry the greatest timestamp of the region cross. -/
def Uncrossed (s : State V) (r : Region) : Prop :=
  ∀ i j, Newest s i r → Newest s j r → i.p.data ≠ j.p.data → ¬ Cross s i j

/-- The clipboard has the bytes of a copy that carries the greatest timestamp, if there is any
copy to the region. -/
def HoldsNewest (s : State V) (v : V) (r : Region) : Prop :=
  match held s v r with
  | none => ∀ i ∈ s.issued, ¬ Lands i.p r
  | some bytes => ∃ i, Newest s i r ∧ i.p.data = bytes

section Agreement

variable {s : State V} {r : Region}

theorem exists_newest {i : Issue V} (issued : i ∈ s.issued) (lands : Lands i.p r) :
    ∃ j, Newest s j r := by
  cases greatest : newestStamp s r with
  | none =>
    rw [newestStamp, List.max?_eq_none_iff, List.map_eq_nil_iff, List.filter_eq_nil_iff] at greatest
    exact absurd (decide_eq_true lands) (greatest i issued)
  | some M =>
    obtain ⟨⟨j, known, lands', carries⟩, most⟩ := newestStamp_eq_some_iff.mp greatest
    refine ⟨j, known, lands', fun k issued' lands'' => ?_⟩
    rw [carries]
    exact most k issued' lands''

end Agreement

section Quiet

variable [DecidableEq V] {G : SimpleGraph V} [DecidableRel G.Adj] {s : State V}

omit [DecidableEq V] in
theorem newest_accepted (everywhere : NewestEverywhere s) {i : Issue V} {r : Region}
    (newest : Newest s i r) (v : V) : ∃ q ∈ (s.node v).puts, q.p = i.p ∧ q.accepted = true := by
  obtain ⟨issued, lands, greatest⟩ := newest_iff.mp newest
  have once := (everywhere r _ greatest v).2 i issued lands rfl
  exact acceptances_pos_iff.mp (by rw [once]; exact Nat.one_pos)

theorem lastPut_newest (tree : G.IsTree) (h : (flood G).Reach System.anyStep s)
    (everywhere : NewestEverywhere s) {v : V} {r : Region} {q : Put V}
    (last : lastPut (s.node v) r = some q) : ∃ i, Newest s i r ∧ i.p = q.p := by
  have inv : Conserved G s := conserved_of_reach h
  obtain ⟨put, held⟩ := List.mem_filter.mp (List.mem_of_getLast? last)
  have lands : Lands q.p r := by simpa using (Bool.and_eq_true_iff.mp held).2
  obtain ⟨i, issued, equal, _⟩ := routed_of_reach tree h v _ _ (sent_of_put inv put)
  obtain ⟨j, newest⟩ := exists_newest issued (equal ▸ lands)
  have greatest : newestStamp s r = some (stamp j.p) :=
    newestStamp_eq_some_iff.mpr ⟨⟨j, newest.1, newest.2.1, rfl⟩, newest.2.2⟩
  obtain ⟨⟨_, most⟩, _⟩ := everywhere r _ greatest v
  have cond := (kept_of_reach h v r).2 q last
  refine ⟨i, ⟨issued, equal ▸ lands, fun k known lands' => ?_⟩, equal⟩
  rw [equal, ← cond, most]
  exact newest.2.2 k known lands'

theorem everywhere_of_quiet (tree : G.IsTree) (h : (flood G).Reach System.anyStep s)
    (quiet : Quiet s) (sizes : ∀ i ∈ s.issued, i.p.data.length ≤ 2 ^ 31 - 11) :
    NewestEverywhere s := by
  apply newest_everywhere tree (conserved_of_reach h) (routed_of_reach tree h)
    (stored_of_reach h) quiet
  intro i r newest
  have small := sizes i newest.1
  refine ⟨Packet.received_iff.mpr (by omega), fun _ => Packet.sendable_iff.mpr ?_⟩
  rw [packetDataSize]
  omega

theorem held_of_lastPut (h : (flood G).Reach System.anyStep s) {v : V} {r : Region} {q : Put V}
    (last : lastPut (s.node v) r = some q) : held s v r = some q.p.data := by
  rw [held, (kept_of_reach h v r).1, last]
  rfl

theorem held_of_lastPut_none (h : (flood G).Reach System.anyStep s) {v : V} {r : Region}
    (last : lastPut (s.node v) r = none) : held s v r = none := by
  rw [held, (kept_of_reach h v r).1, last]
  rfl

omit [DecidableEq V] in
theorem not_lands_of_lastPut_none (everywhere : NewestEverywhere s) {v : V} {r : Region}
    (last : lastPut (s.node v) r = none) {i : Issue V} (issued : i ∈ s.issued) :
    ¬ Lands i.p r := by
  intro lands
  obtain ⟨j, newest⟩ := exists_newest issued lands
  obtain ⟨q, put, same, yes⟩ := newest_accepted everywhere newest v
  rw [lastPut, List.getLast?_eq_none_iff, List.filter_eq_nil_iff] at last
  exact last q put (by simp [yes, same, newest.2.1])

theorem holdsNewest_of_quiet (tree : G.IsTree) (h : (flood G).Reach System.anyStep s)
    (everywhere : NewestEverywhere s) (v : V) (r : Region) : HoldsNewest s v r := by
  rw [HoldsNewest]
  cases last : lastPut (s.node v) r with
  | none =>
    rw [held_of_lastPut_none h last]
    exact fun i issued => not_lands_of_lastPut_none everywhere last issued
  | some q =>
    rw [held_of_lastPut h last]
    obtain ⟨i, newest, same⟩ := lastPut_newest tree h everywhere last
    exact ⟨i, newest, congrArg Packet.data same⟩

theorem agree_of_uncrossed (tree : G.IsTree) (h : (flood G).Reach System.anyStep s)
    (quiet : Quiet s) (everywhere : NewestEverywhere s) {r : Region} (uncrossed : Uncrossed s r)
    (v w : V) : held s v r = held s w r := by
  have inv : Conserved G s := conserved_of_reach h
  have routed := routed_of_reach tree h
  cases here : lastPut (s.node v) r with
  | none =>
    cases there : lastPut (s.node w) r with
    | none => rw [held_of_lastPut_none h here, held_of_lastPut_none h there]
    | some q =>
      obtain ⟨i, newest, _⟩ := lastPut_newest tree h everywhere there
      exact absurd newest.2.1 (not_lands_of_lastPut_none everywhere here newest.1)
  | some p =>
    obtain ⟨i, newest, same⟩ := lastPut_newest tree h everywhere here
    cases there : lastPut (s.node w) r with
    | none => exact absurd newest.2.1 (not_lands_of_lastPut_none everywhere there newest.1)
    | some q =>
      obtain ⟨j, newest', same'⟩ := lastPut_newest tree h everywhere there
      rw [held_of_lastPut h here, held_of_lastPut h there, ← same, ← same']
      by_contra differ
      have both (x : V) := And.intro (newest_accepted everywhere newest x)
        (newest_accepted everywhere newest' x)
      have once (x : V) := puts_nodup tree inv routed x
      have crossing := uncrossed i j newest newest' fun equal => differ (by rw [equal])
      rw [Cross, not_and_or, not_not, not_not] at crossing
      rcases crossing with ahead | ahead
      · have order := (ahead.everywhere tree h quiet newest.1 newest'.1 both _ v rfl).1
        exact Ahead.not_last order (once v) newest'.2.1 (both v).2 here same.symm
      · have order := (ahead.everywhere tree h quiet newest'.1 newest.1
          (fun x => (both x).symm) _ w rfl).1
        exact Ahead.not_last order (once w) newest.2.1 (both w).1 there same'.symm

/-- When the network is quiet each clipboard holds in each region what some copy with the greatest
timestamp carries, and all hold the same where no two such copies with different bytes cross. -/
theorem quiet_converges (tree : G.IsTree) (h : (flood G).Reach System.anyStep s) (quiet : Quiet s)
    (sizes : ∀ i ∈ s.issued, i.p.data.length ≤ 2 ^ 31 - 11) (r : Region) :
    (∀ v, HoldsNewest s v r) ∧ (Uncrossed s r → ∀ v w, held s v r = held s w r) := by
  have everywhere := everywhere_of_quiet tree h quiet sizes
  exact ⟨fun v => holdsNewest_of_quiet tree h everywhere v r,
    fun uncrossed => agree_of_uncrossed tree h quiet everywhere uncrossed⟩

end Quiet

section Pair

private def inTurn {V : Type u} (v w : V) : List (Label V) :=
  [.issue v firstApp 3 [1] 5, .put v (.app firstApp), .push v (.app firstApp), .broadcast v,
    .receive w v, .put w (.clip v), .push w (.clip v), .issue w firstApp 3 [2] 5,
    .put w (.app firstApp), .push w (.app firstApp), .broadcast w, .broadcast w, .receive v w,
    .put v (.clip w), .push v (.clip w), .broadcast v]

theorem quiet_converges_inTurn : ∃ s : State (Fin 2), (flood ⊤).Reach System.anyStep s ∧
    Quiet s ∧ s.issued.map (fun i => i.p.recvAt) = [5, 5] ∧
    held s 0 ⟨3, by decide⟩ = some [2] ∧ held s 1 ⟨3, by decide⟩ = some [2] := by
  have reached : ∃ s : State (Fin 2), (flood ⊤).Reach System.anyStep s ∧
      decide (Quiet s ∧ (∀ i ∈ s.issued, i.p.data.length ≤ 5) ∧
        s.issued.map (fun i => i.p.recvAt) = [5, 5] ∧ held s 0 ⟨3, by decide⟩ = some [2] ∧
        ∀ i ∈ s.issued, ∀ j ∈ s.issued, i.p.data ≠ j.p.data →
          (Before i.p j.p (placed (s.node j.node)) ∧ Before i.p j.p (queued (s.node j.node))) ∨
          Before j.p i.p (placed (s.node i.node)) ∧ Before j.p i.p (queued (s.node i.node))) =
        true :=
    System.reach_of_run _ true (inTurn 0 1) (by simp [System.anyStep]) (by decide +kernel)
  obtain ⟨s, reached, seen⟩ := reached
  obtain ⟨quiet, small, stamps, first, ordered⟩ := of_decide_eq_true seen
  obtain ⟨_, agree⟩ := quiet_converges pair_isTree reached quiet
    (fun i issued => (small i issued).trans (by omega)) ⟨3, by decide⟩
  refine ⟨s, reached, quiet, stamps, first, ?_⟩
  rw [← first]
  refine agree (fun i j mine yours differ crossing => ?_) 1 0
  exact (ordered i mine.1 j yours.1 differ).elim crossing.1 crossing.2

/-- With equal timestamps each clipboard ends with the bytes of the other. -/
theorem tie_diverges : ∃ s : State (Fin 2), (flood ⊤).Reach System.anyStep s ∧ Quiet s ∧
    (∀ i ∈ s.issued, i.p.data.length ≤ 2 ^ 31 - 11) ∧
    held s 0 ⟨3, by decide⟩ ≠ held s 1 ⟨3, by decide⟩ := by
  have reached : ∃ s : State (Fin 2), (flood ⊤).Reach System.anyStep s ∧
      decide (Quiet s ∧ (∀ i ∈ s.issued, i.p.data.length ≤ 5) ∧
        held s 0 ⟨3, by decide⟩ = some [2] ∧ held s 1 ⟨3, by decide⟩ = some [1]) = true :=
    System.reach_of_run _ true (exchange 0 1 5 5 ++ [.push 1 (.clip 0), .broadcast 1])
      (by simp [System.anyStep]) (by decide +kernel)
  obtain ⟨s, reached, seen⟩ := reached
  obtain ⟨quiet, small, first, second⟩ := of_decide_eq_true seen
  refine ⟨s, reached, quiet, fun i issued => (small i issued).trans (by omega), ?_⟩
  rw [first, second]
  decide

end Pair

end DistributedClipboard.Network.Convergence
