/- module: DistributedClipboard/Lib/Discipline
   layer: library
   digest: Straight-line programs that lock and unlock, and a check of what they lock. -/

import Mathlib.Data.List.Basic
import Mathlib.Logic.Function.Basic

set_option autoImplicit false
set_option relaxedAutoImplicit false

namespace DistributedClipboard.Lib.Discipline

universe u v w

inductive Statement (M : Type u) (E : Type v)
  | lock (m : M)
  | unlock (m : M)
  | act (e : E)
  deriving DecidableEq, Repr

variable {M : Type u} {E : Type v} {T : Type w} [DecidableEq M]

def Disciplined : List M → List (Statement M E) → Prop
  | held, [] => held = []
  | held, .lock m :: rest => m ∉ held ∧ Disciplined (m :: held) rest
  | held, .unlock m :: rest => m ∈ held ∧ Disciplined (held.filter (· ≠ m)) rest
  | held, .act _ :: rest => Disciplined held rest

def Owns (holder : M → Option T) (t : T) (held : List M) : Prop := ∀ m, holder m = some t ↔ m ∈ held

variable {holder : M → Option T} {t u : T} {held : List M} {m : M}

theorem Owns.lock (h : Owns holder t held) :
    Owns (Function.update holder m (some t)) t (m :: held) := by
  intro n
  by_cases same : n = m
  · subst same
    simp
  · rw [Function.update_of_ne same, h n, List.mem_cons]
    exact ⟨.inr, fun either => either.resolve_left same⟩

theorem Owns.unlock (h : Owns holder t held) :
    Owns (Function.update holder m none) t (held.filter (· ≠ m)) := by
  intro n
  by_cases same : n = m
  · subst same
    simp
  · rw [Function.update_of_ne same, h n, List.mem_filter]
    simp [same]

theorem Owns.other {o : Option T} (h : Owns holder u held) (before : holder m ≠ some u)
    (after : o ≠ some u) : Owns (Function.update holder m o) u held := by
  intro n
  by_cases same : n = m
  · subst same
    rw [Function.update_self]
    exact ⟨fun now => absurd now after, fun mine => absurd ((h n).mpr mine) before⟩
  · rw [Function.update_of_ne same]
    exact h n

end DistributedClipboard.Lib.Discipline
