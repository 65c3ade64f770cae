/- module: DistributedClipboard/Network/LastCopy
   source: src/src/interfaces/clipif.c, src/src/interfaces/appif.c, src/src/utils/time.c,
     src/src/mem/clmem.c, src/Library/client_api.c
   layer: theorem
   digest: Copies stamped by clocks that are kept near: the last one in time is the one all get. -/

import DistributedClipboard.Network.Pastes
import DistributedClipboard.Network.SyncWaves

set_option autoImplicit false
set_option relaxedAutoImplicit false

namespace DistributedClipboard.Network.LastCopy

open DistributedClipboard.Common
open DistributedClipboard.Interfaces.AppSession (FitsFrame)
open DistributedClipboard.Lib.Rooted
open DistributedClipboard.Lib.Transition
open DistributedClipboard.Mem.Clmem
open DistributedClipboard.Network.Conservation
open DistributedClipboard.Network.Delivery
open DistributedClipboard.Network.Flood hiding State Label step
open DistributedClipboard.Network.Pastes (PasteGives pastesNewest_of_quiet)
open DistributedClipboard.Network.Quiescence
open DistributedClipboard.Network.SyncWaves (waves steady Started Near apart synced_of_reach line lineClocks early)
open DistributedClipboard.Utils.Time

universe u

/-- The clipboards with their clocks. When a copy was stamped is a ghost. -/
structure State (V : Type u) where
  clocks : SyncWaves.State V
  net : Flood.State V
  copied : Nat → Nat

inductive Label (V : Type u)
  | clock (a : SyncWaves.Label V)
  | copy (v : V) (k : Fin maxApps) (region : UInt8) (data : List UInt8)
  | move (a : Flood.Label V)

variable {V : Type u} [DecidableEq V] (h : Hierarchy V) (parentDelay : V → UInt32)

/-- A clock goes on or is set; an application copies, and its slave reads the clock; or a clipboard
does something of its own accord. -/
def step (s : State V) : Label V → Option (State V)
  | .clock a => (SyncWaves.step h parentDelay s.clocks a).map fun clocks => { s with clocks := clocks }
  | .copy v k region data =>
    (issueStep s.net v k region data (timeMNow (s.clocks.clock v))).map fun net =>
      { s with net := net, copied := Function.update s.copied s.net.issued.length (s.clocks.seconds h.root) }
  | .move (.issue ..) => none
  | .move a => (Flood.step h.graph s.net a).map fun net => { s with net := net }

/-- The clipboards of a tree, connected and empty. -/
def clipboards (clocks : V → Clock) (start : V → Nat) : System (State V) (Label V) where
  init := ⟨(waves h parentDelay clocks start).init, (flood h.graph).init, fun _ => 0⟩
  step := step h parentDelay

/-- The clocks are kept as near as the delays of the connections are known. -/
def timely (error skew : Nat) (s : State V) : Label V → Prop
  | .clock a => steady h parentDelay error skew s.clocks a
  | _ => True

instance [Fintype V] (error skew : Nat) (s : State V) :
    (a : Label V) → Decidable (timely h parentDelay error skew s a)
  | .clock a => inferInstanceAs (Decidable (steady h parentDelay error skew s.clocks a))
  | .copy .. | .move _ => inferInstanceAs (Decidable True)

variable {h parentDelay} {error skew : Nat} {start : V → Nat} {clocks : V → Clock} {s s' : State V}

theorem step_cases {a : Label V} (edge : step h parentDelay s a = some s') :
    (∃ b, a = .clock b ∧ SyncWaves.step h parentDelay s.clocks b = some s'.clocks ∧
      s'.net = s.net ∧ s'.copied = s.copied) ∨
    (∃ v k region data, issueStep s.net v k region data (timeMNow (s.clocks.clock v)) = some s'.net ∧
      s'.clocks = s.clocks ∧
      s'.copied = Function.update s.copied s.net.issued.length (s.clocks.seconds h.root)) ∨
    ∃ b, internal s.net b ∧ Flood.step h.graph s.net b = some s'.net ∧
      s'.clocks = s.clocks ∧ s'.copied = s.copied := by
  cases a with
  | clock b =>
    obtain ⟨c, goes, rfl⟩ := Option.map_eq_some_iff.mp edge
    exact .inl ⟨b, rfl, goes, rfl, rfl⟩
  | copy v k region data =>
    obtain ⟨net, goes, rfl⟩ := Option.map_eq_some_iff.mp edge
    exact .inr (.inl ⟨v, k, region, data, goes, rfl, rfl⟩)
  | move b =>
    refine .inr (.inr ⟨b, ?_⟩)
    cases b with
    | issue => cases edge
    | receive | put | push | broadcast =>
      obtain ⟨net, goes, rfl⟩ := Option.map_eq_some_iff.mp edge
      exact ⟨trivial, goes, rfl, rfl⟩

structure Stamped (h : Hierarchy V) (parentDelay : V → UInt32) (clocks : V → Clock)
    (start : V → Nat) (error skew : Nat) (s : State V) : Prop where
  network : (flood h.graph).Reach System.anyStep s.net
  times : (waves h parentDelay clocks start).Reach (steady h parentDelay error skew) s.clocks
  stamps : ∀ i ∈ s.net.issued,
    Near (apart h error skew i.node) (s.copied i.p.id) i.p.recvAt

theorem Stamped.step {a : Label V} (started : Started h error skew clocks start)
    (known : Stamped h parentDelay clocks start error skew s) (guard : timely h parentDelay error skew s a)
    (edge : step h parentDelay s a = some s') : Stamped h parentDelay clocks start error skew s' := by
  rcases step_cases edge with ⟨b, rfl, goes, net, copied⟩ |
    ⟨v, k, region, data, goes, same, copied⟩ | ⟨b, own, goes, same, copied⟩
  · refine ⟨net ▸ known.network, known.times.trans (.single guard goes), ?_⟩
    rw [net, copied]
    exact known.stamps
  · have moved : (flood h.graph).Path System.anyStep s.net s'.net :=
      .single (a := .issue v k region data (timeMNow (s.clocks.clock v))) trivial goes
    refine ⟨known.network.trans moved, same ▸ known.times, fun i mine => ?_⟩
    rw [issued_of_issue goes] at mine
    rw [copied]
    rcases List.mem_append.mp mine with old | new
    · have numbered := (conserved_of_reach known.network).numbered
      have earlier : i.p.id ∈ List.range s.net.issued.length := by
        rw [← numbered]
        exact List.mem_map_of_mem old
      rw [Function.update_of_ne (Nat.ne_of_lt (List.mem_range.mp earlier))]
      exact known.stamps i old
    · obtain rfl := List.mem_singleton.mp new
      rw [Function.update_self]
      exact (synced_of_reach started known.times).near v
  · refine ⟨known.network.trans (.single trivial goes), same ▸ known.times, ?_⟩
    rw [issued_of_internal own goes, copied]
    exact known.stamps

theorem stamped_of_reach (started : Started h error skew clocks start)
    (reach : (clipboards h parentDelay clocks start).Reach (timely h parentDelay error skew) s) :
    Stamped h parentDelay clocks start error skew s := by
  have empty : Stamped h parentDelay clocks start error skew
      (clipboards h parentDelay clocks start).init :=
    ⟨.refl _, .refl _, fun i mine => absurd mine List.not_mem_nil⟩
  exact reach.invariant empty fun _ _ _ known guard edge => known.step started guard edge

/-- The copy was made last of those to its region, by more whole seconds of the root's machine than the
clocks of the two clipboards may be apart. -/
def MadeLast (h : Hierarchy V) (error skew : Nat) (s : State V) (i : Issue V) (r : Region) : Prop :=
  i ∈ s.net.issued ∧ Lands i.p r ∧ ∀ j ∈ s.net.issued, Lands j.p r → j ≠ i →
    s.copied j.p.id + apart h error skew j.node + apart h error skew i.node < s.copied i.p.id

omit [DecidableEq V] in
theorem MadeLast.newest [DecidableEq V] {i j : Issue V} {r : Region} (last : MadeLast h error skew s i r)
    (known : Stamped h parentDelay clocks start error skew s) (newest : Newest s.net j r) : j = i := by
  obtain ⟨mine, lands, later⟩ := last
  by_contra other
  obtain ⟨_, before⟩ := known.stamps j newest.1
  obtain ⟨after, _⟩ := known.stamps i mine
  have apart := later j newest.1 newest.2.1 other
  have most : i.p.recvAt.toNat ≤ j.p.recvAt.toNat := newest.2.2 i mine lands
  omega

section Line

def lineCopies {V : Type} [DecidableEq V] (u w : V) : List (Label V) :=
  [Label.copy u firstApp 3 [1], .clock (.pass (early 8 w)), .copy w firstApp 3 [2]]

end Line

end DistributedClipboard.Network.LastCopy
