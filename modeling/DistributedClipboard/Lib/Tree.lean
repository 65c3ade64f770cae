/- module: DistributedClipboard/Lib/Tree
   layer: library
   digest: Distances from one vertex of a tree: every other vertex has one neighbour that is closer. -/

import Mathlib.Combinatorics.SimpleGraph.Acyclic

set_option autoImplicit false
set_option relaxedAutoImplicit false

namespace DistributedClipboard.Lib.Tree

universe u

variable {V : Type u} {G : SimpleGraph V} {o u v w : V}

theorem closer_unique (tree : G.IsTree) (hu : G.Adj u v) (hw : G.Adj w v)
    (du : G.dist o v = G.dist o u + 1) (dw : G.dist o v = G.dist o w + 1) : u = w := by
  obtain ⟨p, hp⟩ := tree.connected.exists_walk_length_eq_dist o u
  obtain ⟨q, hq⟩ := tree.connected.exists_walk_length_eq_dist o w
  have first : (p.concat hu).IsPath :=
    (p.concat hu).isPath_of_length_eq_dist (by rw [p.length_concat, hp, du])
  have second : (q.concat hw).IsPath :=
    (q.concat hw).isPath_of_length_eq_dist (by rw [q.length_concat, hq, dw])
  have same : p.concat hu = q.concat hw := (tree.existsUnique_path o v).unique first second
  have last := congrArg SimpleGraph.Walk.penultimate same
  simpa using last

theorem closer_exists (tree : G.IsTree) (ne : v ≠ o) :
    ∃ u, G.Adj u v ∧ G.dist o v = G.dist o u + 1 := by
  obtain ⟨p, hp⟩ := tree.connected.exists_walk_length_eq_dist v o
  cases p with
  | nil => exact absurd rfl ne
  | cons adj p =>
    rename_i u
    refine ⟨u, adj.symm, ?_⟩
    have bound : G.dist u o ≤ p.length := G.dist_le p
    have long : p.length + 1 = G.dist v o := by simpa using hp
    rcases tree.dist_eq_dist_add_one_of_adj o adj with far | near
    · exact far
    · rw [G.dist_comm (u := v)] at long
      rw [G.dist_comm (u := u)] at bound
      omega

theorem further_of_not_closer (tree : G.IsTree) (adj : G.Adj v w)
    (notCloser : G.dist o v ≠ G.dist o w + 1) : G.dist o w = G.dist o v + 1 :=
  (tree.dist_eq_dist_add_one_of_adj o adj).resolve_left notCloser

theorem not_closer_self (u : V) : G.dist o o ≠ G.dist o u + 1 := by
  rw [SimpleGraph.dist_self]
  omega

end DistributedClipboard.Lib.Tree
