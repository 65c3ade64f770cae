/- module: DistributedClipboard/Lib/Mutex
   layer: library
   digest: A mutex, named by its holder, against what every thread thinks it holds. -/

import Mathlib.Logic.Function.Basic

set_option autoImplicit false
set_option relaxedAutoImplicit false

namespace DistributedClipboard.Lib.Mutex

universe u

variable {T : Type u} {holds holds' : T → Bool} {m : Option T} {t u : T}

def Held (holds : T → Bool) (m : Option T) : Prop := ∀ t, holds t = true ↔ m = some t

theorem Held.unique (h : Held holds m) (ht : holds t = true) (hu : holds u = true) : t = u :=
  Option.some.inj (((h t).mp ht).symm.trans ((h u).mp hu))

theorem Held.free (h : Held holds none) (t : T) : holds t = false := by
  by_contra held
  have := (h t).mp (by simpa using held)
  cases this

theorem Held.same (h : Held holds m) (same : ∀ t, holds' t = holds t) : Held holds' m := by
  intro t
  rw [same t]
  exact h t

theorem Held.take (h : Held holds none) (mine : holds' t = true)
    (others : ∀ u, u ≠ t → holds' u = holds u) : Held holds' (some t) := by
  intro u
  by_cases eq : u = t
  · subst eq
    simp [mine]
  · have free := h.free u
    simp [others u eq, free, Ne.symm eq]

theorem Held.release (h : Held holds m) (held : holds t = true) (mine : holds' t = false)
    (others : ∀ u, u ≠ t → holds' u = holds u) : Held holds' none := by
  intro u
  by_cases eq : u = t
  · subst eq
    simp [mine]
  · have single : holds u ≠ true := fun hu => eq (h.unique hu held)
    simp [others u eq, single]

inductive Change (t : T) (before after : Bool) (m m' : Option T) : Prop
  | same (holds : after = before) (mutex : m' = m)
  | take (free : m = none) (holds : after = true) (mutex : m' = some t)
  | release (held : before = true) (holds : after = false) (mutex : m' = none)

theorem Held.change {m' : Option T} (h : Held holds m)
    (others : ∀ u, u ≠ t → holds' u = holds u) (mine : Change t (holds t) (holds' t) m m') :
    Held holds' m' := by
  cases mine with
  | same keeps mutex =>
    subst mutex
    refine h.same fun u => ?_
    by_cases eq : u = t
    · subst eq
      exact keeps
    · exact others u eq
  | take free now mutex =>
    subst mutex
    exact (free ▸ h : Held holds none).take now others
  | release held now mutex =>
    subst mutex
    exact h.release held now others

end DistributedClipboard.Lib.Mutex
