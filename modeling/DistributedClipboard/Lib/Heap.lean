/- module: DistributedClipboard/Lib/Heap
   layer: library
   digest: The live cells of a heap that is written one cell at a time, counted. -/

import Mathlib.Data.Finset.Card

set_option autoImplicit false
set_option relaxedAutoImplicit false

namespace DistributedClipboard.Lib.Heap

universe u v

variable {α : Type u} {β : Type v}

def Live (heap : α → Option β) (live : Finset α) : Prop := ∀ a, a ∈ live ↔ heap a ≠ none

theorem live_empty : Live (fun _ : α => (none : Option β)) ∅ := fun a => by simp

variable {heap : α → Option β} {live : Finset α} {a : α} {c : β}

variable [DecidableEq α]

theorem Live.malloc (h : Live heap live) (fresh : heap a = none) :
    Live (Function.update heap a (some c)) (insert a live) ∧
      (insert a live).card = live.card + 1 := by
  have new : a ∉ live := fun old => (h a).mp old fresh
  refine ⟨fun b => ?_, Finset.card_insert_of_notMem new⟩
  by_cases same : b = a
  · subst same
    simp
  · rw [Finset.mem_insert, Function.update_of_ne same, ← h b]
    simp [same]

theorem Live.write (h : Live heap live) (some_ : heap a ≠ none) :
    Live (Function.update heap a (some c)) live := by
  intro b
  by_cases same : b = a
  · subst same
    simp [(h b).mpr some_]
  · rw [Function.update_of_ne same]
    exact h b

theorem Live.free (h : Live heap live) (some_ : heap a ≠ none) :
    Live (Function.update heap a none) (live.erase a) ∧ (live.erase a).card + 1 = live.card := by
  refine ⟨fun b => ?_, Finset.card_erase_add_one ((h a).mpr some_)⟩
  by_cases same : b = a
  · subst same
    simp
  · rw [Finset.mem_erase, Function.update_of_ne same, ← h b]
    simp [same]

end DistributedClipboard.Lib.Heap
