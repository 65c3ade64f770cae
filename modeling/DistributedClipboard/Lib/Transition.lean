/- module: DistributedClipboard/Lib/Transition
   layer: library
   digest: Partial-step transition systems, guarded runs, invariants, progress and commuting steps. -/

import Mathlib.Logic.Relation

set_option autoImplicit false
set_option relaxedAutoImplicit false

namespace DistributedClipboard.Lib.Transition

universe u v w

/-- A transition system whose labels resolve every choice, so that a step is a partial function. -/
structure System (σ : Type u) (α : Type v) where
  init : σ
  step : σ → α → Option σ

namespace System

variable {σ : Type u} {α : Type v}

def Edge (M : System σ α) (ok : σ → α → Prop) (s t : σ) : Prop :=
  ∃ a, ok s a ∧ M.step s a = some t

/-- A finite run all of whose steps meet the guard. -/
def Path (M : System σ α) (ok : σ → α → Prop) : σ → σ → Prop :=
  Relation.ReflTransGen (M.Edge ok)

/-- The states of the runs that meet the guard. -/
def Reach (M : System σ α) (ok : σ → α → Prop) (s : σ) : Prop := M.Path ok M.init s

/-- The guard that admits every step. -/
def anyStep : σ → α → Prop := fun _ _ => True

/-- The state after a list of labels, when each of them is enabled in turn. -/
def run (M : System σ α) : σ → List α → Option σ
  | s, [] => some s
  | s, a :: as => (M.step s a).bind fun t => M.run t as

variable {M : System σ α} {ok ok' : σ → α → Prop}

theorem Path.refl (s : σ) : M.Path ok s s := Relation.ReflTransGen.refl

theorem Path.single {s t : σ} {a : α} (guard : ok s a) (edge : M.step s a = some t) :
    M.Path ok s t := Relation.ReflTransGen.single ⟨a, guard, edge⟩

theorem Path.trans {s t u : σ} (h : M.Path ok s t) (g : M.Path ok t u) : M.Path ok s u :=
  Relation.ReflTransGen.trans h g

theorem Path.head {s t u : σ} {a : α} (guard : ok s a) (edge : M.step s a = some t)
    (h : M.Path ok t u) : M.Path ok s u := (Path.single guard edge).trans h

theorem Path.mono {s t : σ} (weaker : ∀ s a, ok s a → ok' s a) (h : M.Path ok s t) :
    M.Path ok' s t :=
  Relation.ReflTransGen.mono (p := M.Edge ok')
    (fun _ _ ⟨a, guard, edge⟩ => ⟨a, weaker _ _ guard, edge⟩) _ _ h

theorem Path.invariant {I : σ → Prop} {s t : σ}
    (keep : ∀ s a t, I s → ok s a → M.step s a = some t → I t)
    (h : M.Path ok s t) (start : I s) : I t := by
  induction h with
  | refl => exact start
  | tail _ edge ih =>
    obtain ⟨a, guard, edge⟩ := edge
    exact keep _ a _ ih guard edge

/-- What holds initially and is kept by each guarded step holds in every state reached. -/
theorem Reach.invariant {I : σ → Prop} {s : σ} (h : M.Reach ok s) (start : I M.init)
    (keep : ∀ s a t, I s → ok s a → M.step s a = some t → I t) : I s :=
  Path.invariant keep h start

theorem Reach.invariant_of {I J : σ → Prop} {s : σ} (h : M.Reach ok s)
    (known : ∀ t, M.Reach ok t → J t) (start : I M.init)
    (keep : ∀ s a t, J s → I s → ok s a → M.step s a = some t → I t) : I s := by
  unfold Reach at h
  induction h with
  | refl => exact start
  | tail prior edge ih =>
    obtain ⟨a, guard, edge⟩ := edge
    exact keep _ a _ (known _ prior) ih guard edge

theorem path_of_run {s t : σ} (as : List α) (admitted : ∀ a ∈ as, ∀ s, ok s a)
    (h : M.run s as = some t) : M.Path ok s t := by
  induction as generalizing s with
  | nil =>
    obtain rfl : s = t := by simpa [run] using h
    exact .refl _
  | cons a as ih =>
    obtain ⟨m, edge, rest⟩ := Option.bind_eq_some_iff.mp h
    exact .head (admitted a (by simp) s) edge
      (ih (fun b hb => admitted b (List.mem_cons_of_mem a hb)) rest)

theorem reach_of_run {β : Type w} (view : σ → β) (v : β) (as : List α)
    (admitted : ∀ a ∈ as, ∀ s, ok s a) (h : (M.run M.init as).map view = some v) :
    ∃ s, M.Reach ok s ∧ view s = v := by
  obtain ⟨s, reached, seen⟩ := Option.map_eq_some_iff.mp h
  exact ⟨s, path_of_run as admitted reached, seen⟩

def guardedRun (M : System σ α) (ok : σ → α → Prop) [∀ s a, Decidable (ok s a)] :
    σ → List α → Option σ
  | s, [] => some s
  | s, a :: as => if ok s a then (M.step s a).bind fun t => M.guardedRun ok t as else none

theorem path_of_guardedRun [∀ s a, Decidable (ok s a)] {s t : σ} (as : List α)
    (h : M.guardedRun ok s as = some t) : M.Path ok s t := by
  induction as generalizing s with
  | nil =>
    obtain rfl : s = t := by simpa [guardedRun] using h
    exact .refl _
  | cons a as ih =>
    simp only [guardedRun, Option.ite_none_right_eq_some] at h
    obtain ⟨guard, h⟩ := h
    obtain ⟨m, edge, rest⟩ := Option.bind_eq_some_iff.mp h
    exact .head guard edge (ih rest)

theorem reach_of_guardedRun [∀ s a, Decidable (ok s a)] {β : Type w} (view : σ → β) (v : β)
    (as : List α) (h : (M.guardedRun ok M.init as).map view = some v) :
    ∃ s, M.Reach ok s ∧ view s = v := by
  obtain ⟨s, reached, seen⟩ := Option.map_eq_some_iff.mp h
  exact ⟨s, path_of_guardedRun as reached, seen⟩

theorem run_append {s : σ} (as bs : List α) :
    M.run s (as ++ bs) = (M.run s as).bind fun t => M.run t bs := by
  induction as generalizing s with
  | nil => rfl
  | cons a as ih =>
    simp only [List.cons_append, run, Option.bind_assoc]
    congr 1
    funext t
    exact ih

theorem run_of_path {s t : σ} (h : M.Path ok s t) : ∃ as, M.run s as = some t := by
  induction h with
  | refl => exact ⟨[], rfl⟩
  | tail _ edge ih =>
    obtain ⟨a, _, edge⟩ := edge
    obtain ⟨as, goes⟩ := ih
    refine ⟨as ++ [a], ?_⟩
    rw [run_append, goes, Option.bind_some, run, edge]
    rfl

def Commutes (M : System σ α) : Prop :=
  ∀ s a b t u, a ≠ b → M.step s a = some t → M.step s b = some u →
    ∃ v, M.step t b = some v ∧ M.step u a = some v

/-- No step is enabled. -/
def AtRest (M : System σ α) (s : σ) : Prop := ∀ a, M.step s a = none

/-- Where steps commute, the first step of a run can be any that is enabled: the rest of the run
then is one step shorter. By induction on the run that comes to rest. -/
theorem Commutes.strip [DecidableEq α] (commutes : M.Commutes) {z : σ} (rest : M.AtRest z)
    (as : List α) {s t : σ} {a : α} (goes : M.run s as = some z) (edge : M.step s a = some t) :
    ∃ bs, M.run t bs = some z ∧ bs.length + 1 = as.length := by
  induction as generalizing s t with
  | nil =>
    obtain rfl : s = z := by simpa [run] using goes
    rw [rest a] at edge
    cases edge
  | cons b as ih =>
    obtain ⟨u, first, later⟩ := Option.bind_eq_some_iff.mp goes
    by_cases same : a = b
    · subst same
      obtain rfl : t = u := Option.some.inj (edge.symm.trans first)
      exact ⟨as, later, rfl⟩
    · obtain ⟨v, fromT, fromU⟩ := commutes s a b t u same edge first
      obtain ⟨bs, goes', length⟩ := ih later fromU
      refine ⟨b :: bs, ?_, ?_⟩
      · rw [run, fromT]
        exact goes'
      · rw [List.length_cons, List.length_cons, length]

theorem Commutes.run_meets [DecidableEq α] (commutes : M.Commutes) {z : σ} (rest : M.AtRest z)
    (bs : List α) {as : List α} {s t : σ} (goes : M.run s as = some z)
    (other : M.run s bs = some t) :
    ∃ cs, M.run t cs = some z ∧ bs.length + cs.length = as.length := by
  induction bs generalizing s as with
  | nil =>
    obtain rfl : s = t := by simpa [run] using other
    exact ⟨as, goes, Nat.zero_add _⟩
  | cons b bs ih =>
    obtain ⟨u, first, later⟩ := Option.bind_eq_some_iff.mp other
    obtain ⟨as', goes', shorter⟩ := commutes.strip rest as goes first
    obtain ⟨cs, ends, length⟩ := ih goes' later
    refine ⟨cs, ends, ?_⟩
    rw [List.length_cons]
    omega

theorem Path.progress {I goal : σ → Prop} (μ : σ → Nat)
    (advance : ∀ s, I s → goal s ∨ ∃ a t, ok s a ∧ M.step s a = some t ∧ I t ∧ μ t < μ s)
    (s : σ) (start : I s) : ∃ t, M.Path ok s t ∧ I t ∧ goal t := by
  induction hμ : μ s using Nat.strongRecOn generalizing s with
  | ind n ih =>
    rcases advance s start with done | ⟨a, t, guard, edge, keep, lower⟩
    · exact ⟨s, .refl s, start, done⟩
    · obtain ⟨u, path, hu, reached⟩ := ih (μ t) (hμ ▸ lower) t keep rfl
      exact ⟨u, .head guard edge path, hu, reached⟩

end System

end DistributedClipboard.Lib.Transition
