/- module: DistributedClipboard/Lib/Precedence
   layer: library
   digest: One element of a list comes before another. -/

import Mathlib.Data.List.Basic
import Mathlib.Data.List.Nodup

set_option autoImplicit false
set_option relaxedAutoImplicit false

namespace DistributedClipboard.Lib.Precedence

universe u v

variable {α : Type u} {β : Type v} {a b c : α} {l m : List α}

/-- The element `a` comes before the element `b` in the list. -/
def Before (a b : α) (l : List α) : Prop := [a, b].Sublist l

instance [DecidableEq α] (a b : α) (l : List α) : Decidable (Before a b l) :=
  inferInstanceAs (Decidable ([a, b].Sublist l))

theorem Before.left (h : Before a b l) : a ∈ l := h.subset (by simp)

theorem Before.right (h : Before a b l) : b ∈ l := h.subset (by simp)

theorem Before.sub (h : Before a b l) (part : l.Sublist m) : Before a b m := h.trans part

theorem Before.append (h : Before a b l) (m : List α) : Before a b (l ++ m) :=
  h.sub (List.sublist_append_left l m)

theorem before_of_mem (first : a ∈ l) (second : b ∈ m) : Before a b (l ++ m) :=
  (List.singleton_sublist.mpr first).append (List.singleton_sublist.mpr second)

theorem before_concat : Before a b (l ++ [c]) ↔ Before a b l ∨ a ∈ l ∧ b = c := by
  constructor
  · intro h
    obtain ⟨front, back, split, first, second⟩ := List.sublist_append_iff.mp h
    cases front with
    | nil =>
      have long := second.length_le
      rw [List.nil_append] at split
      rw [← split] at long
      simp at long
    | cons x front =>
      cases front with
      | nil =>
        obtain ⟨rfl, rfl⟩ := List.cons.inj split
        exact .inr ⟨first.subset (by simp), List.mem_singleton.mp (second.subset (by simp))⟩
      | cons y front =>
        obtain ⟨rfl, others⟩ := List.cons.inj split
        obtain ⟨rfl, _⟩ := List.cons.inj (show [b] = y :: (front ++ back) from others)
        exact .inl ((List.sublist_append_left [a, b] front).trans first)
  · rintro (h | ⟨first, rfl⟩)
    · exact h.append [c]
    · exact before_of_mem first (List.mem_singleton_self b)

theorem Before.map (h : Before a b l) (f : α → β) : Before (f a) (f b) (l.map f) :=
  List.Sublist.map f h

theorem Before.filter (h : Before a b l) {p : α → Bool} (first : p a = true) (second : p b = true) :
    Before a b (l.filter p) := by
  have kept := List.Sublist.filter p h
  rwa [List.filter_cons_of_pos first, List.filter_cons_of_pos second, List.filter_nil] at kept

theorem before_of_map {f : α → β} (distinct : (l.map f).Nodup) (first : a ∈ l) (second : b ∈ l)
    (h : Before (f a) (f b) (l.map f)) : Before a b l := by
  obtain ⟨pair, part, same⟩ := List.sublist_map_iff.mp h
  have only {x y : α} (mine : x ∈ l) (yours : y ∈ l) (equal : f x = f y) : x = y :=
    List.inj_on_of_nodup_map distinct mine yours equal
  obtain ⟨x, rest, rfl, equal, others⟩ := List.map_eq_cons_iff.mp same.symm
  obtain ⟨y, none_, rfl, equal', rest'⟩ := List.map_eq_cons_iff.mp others
  obtain rfl := List.map_eq_nil_iff.mp rest'
  obtain rfl := only (part.subset (by simp)) first equal
  obtain rfl := only (part.subset (by simp)) second equal'
  exact part

theorem Before.not_last (h : Before a b l) (distinct : l.Nodup) : l.getLast? ≠ some a := by
  intro last
  obtain ⟨front, rfl⟩ := List.getLast?_eq_some_iff.mp last
  have absent : a ∉ front := by
    intro mine
    exact (List.nodup_append.mp distinct).2.2 a mine a (List.mem_singleton_self a) rfl
  rcases before_concat.mp h with before | ⟨mine, _⟩
  · exact absent before.left
  · exact absent mine

end DistributedClipboard.Lib.Precedence
