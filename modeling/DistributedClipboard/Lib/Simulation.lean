/- module: DistributedClipboard/Lib/Simulation
   layer: library
   digest: One system that does in many steps what another does in one: its runs, and how they end. -/

import DistributedClipboard.Lib.Termination

set_option autoImplicit false
set_option relaxedAutoImplicit false

namespace DistributedClipboard.Lib.Transition

universe u v w z

namespace System

variable {σ : Type u} {α : Type v} {τ : Type w} {β : Type z} {C : System σ α} {A : System τ β}
  {ok : σ → α → Prop} {okA : τ → β → Prop} {R : σ → τ → Prop}

def Simulates (C : System σ α) (ok : σ → α → Prop) (A : System τ β) (okA : τ → β → Prop)
    (R : σ → τ → Prop) : Prop :=
  ∀ s a s' t, R s t → ok s a → C.step s a = some s' →
    R s' t ∨ ∃ b t', okA t b ∧ A.step t b = some t' ∧ R s' t'

theorem Simulates.reach (sim : Simulates C ok A okA R) (start : R C.init A.init) {s : σ}
    (h : C.Reach ok s) : ∃ t, A.Reach okA t ∧ R s t := by
  refine h.invariant (I := fun s => ∃ t, A.Reach okA t ∧ R s t) ⟨A.init, .refl _, start⟩ ?_
  intro s a s' known guard edge
  obtain ⟨t, reached, related⟩ := known
  rcases sim s a s' t related guard edge with stays | ⟨b, t', guard', edge', related'⟩
  · exact ⟨t, reached, stays⟩
  · exact ⟨t', reached.trans (.single guard' edge'), related'⟩

theorem Path.followed {I : σ → Prop} {view : σ → τ}
    (follows : ∀ s a s', I s → ok s a → C.step s a = some s' →
      I s' ∧ (view s' = view s ∨ ∃ b, okA (view s) b ∧ A.step (view s) b = some (view s')))
    {s s' : σ} (h : C.Path ok s s') (start : I s) : I s' ∧ A.Path okA (view s) (view s') := by
  refine h.invariant (I := fun m => I m ∧ A.Path okA (view s) (view m)) ?_ ⟨start, .refl _⟩
  intro m a m' known guard edge
  obtain ⟨here, path⟩ := known
  obtain ⟨next, same | ⟨b, guard', edge'⟩⟩ := follows m a m' here guard edge
  · exact ⟨next, same ▸ path⟩
  · exact ⟨next, path.trans (.single guard' edge')⟩

section Bounded

variable {s t : σ} {n bound : Nat}

theorem ends_of_short (short : ∀ n t, C.Steps ok n s t → n ≤ bound) (steps : C.Steps ok n s t) :
    ∃ m u, C.Steps ok m t u ∧ C.Stuck ok u := by
  induction left : bound - n using Nat.strongRecOn generalizing n t with
  | ind k ih =>
    by_cases stuck : C.Stuck ok t
    · exact ⟨0, t, .refl t, stuck⟩
    · obtain ⟨a, able⟩ := Classical.not_forall.mp stuck
      obtain ⟨guard, enabled⟩ := Classical.not_imp.mp able
      obtain ⟨u, edge⟩ := Option.ne_none_iff_exists'.mp enabled
      have longer : C.Steps ok (n + 1) s u := .tail steps ⟨a, guard, edge⟩
      have fits := short _ _ longer
      obtain ⟨m, z, goesOn, ended⟩ := ih (bound - (n + 1)) (by omega) longer rfl
      exact ⟨m + 1, z, goesOn.head ⟨a, guard, edge⟩, ended⟩

variable (rank : σ → Nat) {k : Nat}

def Ranked (C : System σ α) (ok : σ → α → Prop) (A : System τ β) (okA : τ → β → Prop)
    (R : σ → τ → Prop) (rank : σ → Nat) (k : Nat) : Prop :=
  ∀ s a s' t, R s t → ok s a → C.step s a = some s' →
    R s' t ∧ rank s' < rank s ∨
      ∃ b t', okA t b ∧ A.step t b = some t' ∧ R s' t' ∧ rank s' ≤ rank s + k

variable {rank} {t t' : τ}

theorem Ranked.steps (sim : Ranked C ok A okA R rank k) {s s' : σ} (h : C.Steps ok n s s')
    (related : R s t) : ∃ m t', A.Steps okA m t t' ∧ R s' t' ∧
      n + rank s' ≤ m * (k + 1) + rank s := by
  induction h with
  | refl s => exact ⟨0, t, .refl t, related, by omega⟩
  | tail _ edge ih =>
    obtain ⟨a, guard, edge⟩ := edge
    obtain ⟨m, t', beside, related', paid⟩ := ih related
    rcases sim _ a _ t' related' guard edge with ⟨stays, falls⟩ | ⟨b, u, guard', edge', next, rises⟩
    · exact ⟨m, t', beside, stays, by omega⟩
    · refine ⟨m + 1, u, .tail beside ⟨b, guard', edge'⟩, next, ?_⟩
      rw [Nat.succ_mul]
      omega

theorem Settles.simulated {goal : τ → Prop} (h : A.Settles okA bound goal t)
    (sim : Ranked C ok A okA R rank k)
    (stops : ∀ s t, R s t → C.Stuck ok s → A.Stuck okA t) {s : σ} (related : R s t) :
    C.Settles ok (bound * (k + 1) + rank s) (fun s' => C.Stuck ok s' ∧ ∃ t', R s' t' ∧ goal t') s := by
  have short : ∀ n s', C.Steps ok n s s' → n ≤ bound * (k + 1) + rank s := by
    intro n s' steps
    obtain ⟨m, t', beside, _, paid⟩ := sim.steps steps related
    have few : m * (k + 1) ≤ bound * (k + 1) := Nat.mul_le_mul_right _ (h.short m t' beside)
    omega
  refine ⟨short, fun n s' steps => ends_of_short short steps, fun n s' steps stuck => ?_⟩
  obtain ⟨m, t', beside, related', _⟩ := sim.steps steps related
  exact ⟨stuck, t', related', h.done m t' beside (stops s' t' related' stuck)⟩

end Bounded

end System

end DistributedClipboard.Lib.Transition
