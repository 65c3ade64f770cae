/- module: DistributedClipboard/Lib/Termination
   layer: library
   digest: Guarded runs with their length, and the rule of a measure that every step lowers. -/

import DistributedClipboard.Lib.Transition

set_option autoImplicit false
set_option relaxedAutoImplicit false

namespace DistributedClipboard.Lib.Transition

universe u v

namespace System

variable {σ : Type u} {α : Type v}

inductive Steps (M : System σ α) (ok : σ → α → Prop) : Nat → σ → σ → Prop
  | refl (s : σ) : Steps M ok 0 s s
  | tail {n : Nat} {s t u : σ} : Steps M ok n s t → M.Edge ok t u → Steps M ok (n + 1) s u

def Stuck (M : System σ α) (ok : σ → α → Prop) (s : σ) : Prop := ∀ a, ok s a → M.step s a = none

/-- From `s` no guarded run is longer than the bound, whatever the order of its steps; each can be
continued until nothing more can happen, and then the goal holds. -/
structure Settles (M : System σ α) (ok : σ → α → Prop) (bound : Nat) (goal : σ → Prop) (s : σ) :
    Prop where
  short : ∀ n t, M.Steps ok n s t → n ≤ bound
  ends : ∀ n t, M.Steps ok n s t → ∃ m u, M.Steps ok m t u ∧ M.Stuck ok u
  done : ∀ n t, M.Steps ok n s t → M.Stuck ok t → goal t

variable {M : System σ α} {ok : σ → α → Prop} {n m : Nat} {s t u : σ}

theorem Steps.path (h : M.Steps ok n s t) : M.Path ok s t := by
  induction h with
  | refl s => exact .refl s
  | tail _ edge ih => exact Relation.ReflTransGen.tail ih edge

theorem Steps.head (edge : M.Edge ok s t) (h : M.Steps ok n t u) : M.Steps ok (n + 1) s u := by
  induction h with
  | refl t => exact .tail (.refl s) edge
  | tail _ last ih => exact .tail (ih edge) last

theorem Steps.descend {I : σ → Prop} {μ : σ → Nat}
    (lower : ∀ s a t, I s → ok s a → M.step s a = some t → I t ∧ μ t < μ s)
    (h : M.Steps ok n s t) (start : I s) : I t ∧ μ t + n ≤ μ s := by
  induction h with
  | refl s => exact ⟨start, Nat.le_refl _⟩
  | tail _ edge ih =>
    obtain ⟨a, guard, edge⟩ := edge
    obtain ⟨inv, fallen⟩ := ih start
    obtain ⟨keeps, less⟩ := lower _ a _ inv guard edge
    exact ⟨keeps, by omega⟩

theorem exists_stuck {I : σ → Prop} (μ : σ → Nat)
    (lower : ∀ s a t, I s → ok s a → M.step s a = some t → I t ∧ μ t < μ s) (s : σ) (start : I s) :
    ∃ m u, M.Steps ok m s u ∧ M.Stuck ok u := by
  induction hμ : μ s using Nat.strongRecOn generalizing s with
  | ind k ih =>
    by_cases stuck : M.Stuck ok s
    · exact ⟨0, s, .refl s, stuck⟩
    · obtain ⟨a, able⟩ := Classical.not_forall.mp stuck
      obtain ⟨guard, enabled⟩ := Classical.not_imp.mp able
      obtain ⟨t, edge⟩ := Option.ne_none_iff_exists'.mp enabled
      obtain ⟨keeps, less⟩ := lower s a t start guard edge
      obtain ⟨m, u, steps, ended⟩ := ih (μ t) (hμ ▸ less) t keeps rfl
      exact ⟨m + 1, u, steps.head ⟨a, guard, edge⟩, ended⟩

theorem settles_of_descent {I goal : σ → Prop} (μ : σ → Nat)
    (lower : ∀ s a t, I s → ok s a → M.step s a = some t → I t ∧ μ t < μ s)
    (done : ∀ s, I s → M.Stuck ok s → goal s) (start : I s) : M.Settles ok (μ s) goal s where
  short n t steps := by
    have fallen := (steps.descend lower start).2
    omega
  ends n t steps := exists_stuck μ lower t (steps.descend lower start).1
  done n t steps stuck := done t (steps.descend lower start).1 stuck

theorem Settles.mono {bound bound' : Nat} {goal goal' : σ → Prop} (h : M.Settles ok bound goal s)
    (le : bound ≤ bound') (weaker : ∀ t, goal t → goal' t) : M.Settles ok bound' goal' s :=
  ⟨fun n t steps => Nat.le_trans (h.short n t steps) le, h.ends,
    fun n t steps stuck => weaker t (h.done n t steps stuck)⟩

end System

end DistributedClipboard.Lib.Transition
