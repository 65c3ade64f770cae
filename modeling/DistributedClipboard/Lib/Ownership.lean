/- module: DistributedClipboard/Lib/Ownership
   layer: library
   digest: Cells that are live and have one owner each, under allocation, writes, handing over and free. -/

import Mathlib.Logic.Function.Basic

set_option autoImplicit false
set_option relaxedAutoImplicit false

namespace DistributedClipboard.Lib.Ownership

universe u v w

variable {A : Type u} {V : Type v} {O : Type w}

structure Owned (store : A → Option V) (owns : O → A → Prop) : Prop where
  live : ∀ o a, owns o a → store a ≠ none
  unique : ∀ o p a, owns o a → owns p a → o = p

variable {store : A → Option V} {owns owns' : O → A → Prop} {o p : O} {a b : A} {v : V}

theorem Owned.apart (h : Owned store owns) (mine : owns o a) (theirs : owns p b) (other : p ≠ o) :
    b ≠ a := by
  rintro rfl
  exact other (h.unique p o b theirs mine)

theorem Owned.fresh (h : Owned store owns) (dead : store a = none) (mine : owns o b) : b ≠ a := by
  rintro rfl
  exact h.live o b mine dead

theorem Owned.shrink (h : Owned store owns) (fewer : ∀ p b, owns' p b → owns p b) :
    Owned store owns' := by
  constructor
  · intro p b mine
    exact h.live p b (fewer p b mine)
  · intro p q b mine theirs
    exact h.unique p q b (fewer p b mine) (fewer q b theirs)

theorem Owned.handOver (h : Owned store owns) (mine : owns o a)
    (moved : ∀ q b, owns' q b → owns q b ∧ b ≠ a ∨ q = p ∧ b = a) : Owned store owns' := by
  constructor
  · intro q b theirs
    obtain ⟨before, -⟩ | ⟨-, rfl⟩ := moved q b theirs
    · exact h.live q b before
    · exact h.live o b mine
  · intro q r b first second
    obtain ⟨before, other⟩ | ⟨rfl, rfl⟩ := moved q b first
    · obtain ⟨before', -⟩ | ⟨-, now⟩ := moved r b second
      · exact h.unique q r b before before'
      · exact absurd now other
    · obtain ⟨-, other⟩ | ⟨rfl, -⟩ := moved r _ second
      · exact absurd rfl other
      · rfl

variable [DecidableEq A]

theorem Owned.alloc (h : Owned store owns) (dead : store a = none)
    (more : ∀ p b, owns' p b → owns p b ∨ p = o ∧ b = a) :
    Owned (Function.update store a (some v)) owns' := by
  constructor
  · intro p b mine
    obtain before | ⟨-, rfl⟩ := more p b mine
    · rw [Function.update_of_ne (h.fresh dead before)]
      exact h.live p b before
    · rw [Function.update_self]
      exact Option.some_ne_none v
  · intro p q b mine theirs
    obtain before | ⟨rfl, rfl⟩ := more p b mine
    · obtain before' | ⟨-, now⟩ := more q b theirs
      · exact h.unique p q b before before'
      · exact absurd now (h.fresh dead before)
    · obtain before' | ⟨rfl, -⟩ := more q _ theirs
      · exact absurd rfl (h.fresh dead before')
      · rfl

theorem Owned.write (h : Owned store owns) : Owned (Function.update store a (some v)) owns := by
  refine ⟨fun p b mine => ?_, h.unique⟩
  by_cases same : b = a
  · subst same
    rw [Function.update_self]
    exact Option.some_ne_none v
  · rw [Function.update_of_ne same]
    exact h.live p b mine

theorem Owned.free (h : Owned store owns) (rest : ∀ p b, owns' p b → owns p b ∧ b ≠ a) :
    Owned (Function.update store a none) owns' := by
  have smaller := h.shrink fun p b mine => (rest p b mine).1
  refine ⟨fun p b mine => ?_, smaller.unique⟩
  rw [Function.update_of_ne (rest p b mine).2]
  exact smaller.live p b mine

end DistributedClipboard.Lib.Ownership
