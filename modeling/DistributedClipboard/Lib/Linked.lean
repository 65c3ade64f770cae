/- module: DistributedClipboard/Lib/Linked
   layer: library
   digest: Singly linked chains of cells in a heap, and the list each of them holds. -/

import Mathlib.Data.List.Nodup
import Mathlib.Logic.Function.Basic

set_option autoImplicit false
set_option relaxedAutoImplicit false

namespace DistributedClipboard.Lib.Linked

universe u v

structure Cell (A : Type u) (D : Type v) where
  next : Option A
  data : D
  deriving DecidableEq, Repr

variable {A : Type u} {D : Type v}

inductive Chain (heap : A → Option (Cell A D)) : Option A → List (A × D) → Prop
  | nil : Chain heap none []
  | cons {a : A} {d : D} {next : Option A} {l : List (A × D)} (cell : heap a = some ⟨next, d⟩)
      (rest : Chain heap next l) : Chain heap (some a) ((a, d) :: l)

namespace Chain

variable {heap : A → Option (Cell A D)} {p : Option A} {l l' : List (A × D)} {a b : A} {d e : D}

theorem nil_iff (h : Chain heap p l) : p = none ↔ l = [] := by
  cases h with
  | nil => simp
  | cons _ _ => simp

theorem live (h : Chain heap p l) (mem : (a, d) ∈ l) : ∃ next, heap a = some ⟨next, d⟩ := by
  induction h with
  | nil => exact absurd mem List.not_mem_nil
  | cons cell _ ih =>
    rcases List.mem_cons.mp mem with eq | mem
    · cases eq
      exact ⟨_, cell⟩
    · exact ih mem

theorem live_fst (h : Chain heap p l) (mem : a ∈ l.map Prod.fst) : heap a ≠ none := by
  obtain ⟨⟨a, d⟩, member, rfl⟩ := List.mem_map.mp mem
  obtain ⟨next, cell⟩ := h.live member
  rw [cell]
  simp

section Update

variable [DecidableEq A]

theorem frame (h : Chain heap p l) (outside : b ∉ l.map Prod.fst) (c : Option (Cell A D)) :
    Chain (Function.update heap b c) p l := by
  induction h with
  | nil => exact .nil
  | @cons a d next l cell _ ih =>
    simp only [List.map_cons, List.mem_cons, not_or] at outside
    refine .cons ?_ (ih outside.2)
    rw [Function.update_of_ne (Ne.symm outside.1), cell]

/-- Linking a cell behind the last one of a chain. By induction on the chain: only the last cell is
written. -/
theorem link (h : Chain heap p (l ++ [(a, d)])) (new : heap b = some ⟨none, e⟩)
    (nodup : ((l ++ [(a, d)]).map Prod.fst).Nodup)
    (outside : b ∉ (l ++ [(a, d)]).map Prod.fst) :
    Chain (Function.update heap a (some ⟨some b, d⟩)) p (l ++ [(a, d)] ++ [(b, e)]) := by
  induction l generalizing p with
  | nil =>
    cases h with
    | cons cell rest =>
      have other : b ≠ a := by simpa using outside
      refine .cons (Function.update_self ..) (.cons ?_ .nil)
      rw [Function.update_of_ne other, new]
  | cons x l ih =>
    obtain ⟨c, f⟩ := x
    cases h with
    | cons cell rest =>
      rw [List.cons_append, List.map_cons, List.nodup_cons] at nodup
      rw [List.cons_append, List.map_cons, List.mem_cons, not_or] at outside
      refine .cons ?_ (ih rest nodup.2 outside.2)
      have other : c ≠ a := by
        intro eq
        refine nodup.1 (List.mem_map.mpr ⟨(a, d), ?_, eq.symm⟩)
        simp
      rw [Function.update_of_ne other, cell]

end Update

theorem front (h : Chain heap (some a) l) :
    ∃ d next rest, heap a = some ⟨next, d⟩ ∧ Chain heap next rest ∧ l = (a, d) :: rest := by
  cases h with
  | cons cell rest => exact ⟨_, _, _, cell, rest, rfl⟩

end Chain

end DistributedClipboard.Lib.Linked
