/- module: DistributedClipboard/Lib/Descriptors
   layer: library
   digest: Objects that are opened and closed through numbers that are handed out again. -/

import Mathlib.Data.List.Nodup
import Mathlib.Logic.Function.Basic

set_option autoImplicit false
set_option relaxedAutoImplicit false

namespace DistributedClipboard.Lib.Descriptors

universe u v

variable {F : Type u} {O : Type v}

/-- A call that closes a descriptor: the object it is meant for, and what the descriptor was open
to. -/
structure Closing (O : Type v) where
  meant : O
  found : Option O
  deriving DecidableEq, Repr

/-- Every call has closed what it was meant for, nothing was closed twice, and what was closed is
not open. -/
structure ClosedOnce (denotes : F → Option O) (log : List (Closing O)) : Prop where
  sound : ∀ e ∈ log, e.found = some e.meant
  once : (log.map Closing.meant).Nodup
  gone : ∀ e ∈ log, ∀ f, denotes f ≠ some e.meant
  single : ∀ f g o, denotes f = some o → denotes g = some o → f = g

variable {denotes : F → Option O} {log : List (Closing O)} {f g : F} {o p : O}

theorem ClosedOnce.init (none : ∀ f, denotes f = none) : ClosedOnce denotes [] := by
  constructor
  · intro e member
    cases member
  · exact List.nodup_nil
  · intro e member
    cases member
  · intro f g o mine
    rw [none f] at mine
    cases mine

variable [DecidableEq F]

theorem update_keeps (mine : denotes f = some o) (there : denotes g = some p) (other : p ≠ o) :
    Function.update denotes f none g = some p := by
  have apart : g ≠ f := by
    rintro rfl
    rw [mine] at there
    exact other (Option.some.inj there).symm
  rw [Function.update_of_ne apart]
  exact there

theorem of_update_none (there : Function.update denotes f none g = some p) :
    denotes g = some p := by
  by_cases same : g = f
  · subst same
    rw [Function.update_self] at there
    cases there
  · rwa [Function.update_of_ne same] at there

theorem ClosedOnce.open (h : ClosedOnce denotes log) (fresh : ∀ g, denotes g ≠ some o)
    (unused : ∀ e ∈ log, e.meant ≠ o) : ClosedOnce (Function.update denotes f (some o)) log := by
  have back : ∀ g p, p ≠ o → Function.update denotes f (some o) g = some p →
      denotes g = some p := by
    intro g p other there
    by_cases same : g = f
    · subst same
      rw [Function.update_self] at there
      exact absurd (Option.some.inj there).symm other
    · rwa [Function.update_of_ne same] at there
  have only : ∀ g, Function.update denotes f (some o) g = some o → g = f := by
    intro g there
    by_contra other
    rw [Function.update_of_ne other] at there
    exact fresh g there
  refine ⟨h.sound, h.once, ?_, ?_⟩
  · intro e member g there
    exact h.gone e member g (back g e.meant (unused e member) there)
  · intro g g' p first second
    by_cases same : p = o
    · subst same
      rw [only g first, only g' second]
    · exact h.single g g' p (back g p same first) (back g' p same second)

theorem ClosedOnce.close (h : ClosedOnce denotes log) (mine : denotes f = some o) :
    ClosedOnce (Function.update denotes f none) (log ++ [⟨o, denotes f⟩]) := by
  have unused : ∀ e ∈ log, e.meant ≠ o := by
    rintro e member rfl
    exact h.gone e member f mine
  constructor
  · intro e member
    obtain before | rfl := List.mem_append.mp member |>.imp_right List.mem_singleton.mp
    · exact h.sound e before
    · exact mine
  · rw [List.map_append, List.nodup_append]
    refine ⟨h.once, List.nodup_singleton _, ?_⟩
    rintro p before _ last rfl
    obtain ⟨e, member, rfl⟩ := List.mem_map.mp before
    exact unused e member (List.mem_singleton.mp last)
  · intro e member g there
    have before := of_update_none there
    obtain old | rfl := List.mem_append.mp member |>.imp_right List.mem_singleton.mp
    · exact h.gone e old g before
    · obtain rfl := h.single g f _ before mine
      rw [Function.update_self] at there
      cases there
  · intro g g' p first second
    exact h.single g g' p (of_update_none first) (of_update_none second)

end DistributedClipboard.Lib.Descriptors
