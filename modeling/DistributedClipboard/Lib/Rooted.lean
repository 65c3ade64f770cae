/- module: DistributedClipboard/Lib/Rooted
   layer: library
   digest: Vertices that each have one parent, but for a root, and the tree that they are. -/

import Mathlib.Combinatorics.SimpleGraph.Acyclic

set_option autoImplicit false
set_option relaxedAutoImplicit false

namespace DistributedClipboard.Lib.Rooted

universe u

structure Hierarchy (V : Type u) where
  root : V
  parent : V → Option V
  depth : V → Nat
  depth_root : depth root = 0
  top : ∀ v, parent v = none → v = root
  below : ∀ v u, parent v = some u → depth v = depth u + 1

namespace Hierarchy

variable {V : Type u} (h : Hierarchy V) {u v w x y : V}

/-- A vertex and its parent are neighbours. -/
def graph : SimpleGraph V where
  Adj u v := h.parent v = some u ∨ h.parent u = some v
  symm := ⟨fun _ _ adj => adj.symm⟩
  loopless := ⟨fun v loop => by
    have deeper := h.below v v (loop.elim id id)
    omega⟩

instance [DecidableEq V] : DecidableRel h.graph.Adj := fun u v =>
  inferInstanceAs (Decidable (h.parent v = some u ∨ h.parent u = some v))

theorem reachable_root (v : V) : h.graph.Reachable v h.root := by
  induction depth : h.depth v using Nat.strongRecOn generalizing v with
  | ind n ih =>
    cases parent : h.parent v with
    | none =>
      rw [h.top v parent]
    | some u =>
      have level := h.below v u parent
      have up : h.graph.Adj v u := .inr parent
      exact up.reachable.trans (ih (h.depth u) (by omega) u rfl)

theorem connected : h.graph.Connected where
  preconnected u v := (h.reachable_root u).trans (h.reachable_root v).symm
  nonempty := ⟨h.root⟩

inductive Under (v : V) : V → Prop
  | self : Under v v
  | child {w x : V} (under : Under v w) (parent : h.parent x = some w) : Under v x

variable {h}

theorem Under.depth_le (under : h.Under v w) : h.depth v ≤ h.depth w := by
  induction under with
  | self => exact Nat.le_refl _
  | child _ parent ih =>
    have level := h.below _ _ parent
    omega

theorem Under.step (up : h.parent v = some u) (under : h.Under v x)
    (adj : (h.graph.deleteEdges {s(v, u)}).Adj x y) : h.Under v y := by
  obtain ⟨edge, other⟩ := SimpleGraph.deleteEdges_adj.mp adj
  rcases edge with down | parent
  · exact under.child down
  · cases under with
    | self =>
      obtain rfl : u = y := Option.some.inj (up.symm.trans parent)
      exact absurd rfl other
    | child under parent' =>
      obtain rfl := Option.some.inj (parent'.symm.trans parent)
      exact under

theorem isBridge_parent (up : h.parent v = some u) : h.graph.IsBridge s(v, u) := by
  rw [SimpleGraph.isBridge_iff]
  intro around
  have under : h.Under v u := by
    obtain ⟨walk⟩ := around
    have all {x y : V} (walk : (h.graph.deleteEdges {s(v, u)}).Walk x y) (start : h.Under v x) :
        h.Under v y := by
      induction walk with
      | nil => exact start
      | cons adj _ ih => exact ih (start.step up adj)
    exact all walk .self
  have deeper := under.depth_le
  have level := h.below v u up
  omega

theorem isTree : h.graph.IsTree where
  connected := h.connected
  isAcyclic := by
    refine SimpleGraph.isAcyclic_iff_forall_adj_isBridge.mpr fun v w adj => ?_
    rcases adj with up | up
    · rw [Sym2.eq_swap]
      exact isBridge_parent up
    · exact isBridge_parent up

end Hierarchy

end DistributedClipboard.Lib.Rooted
