/- module: DistributedClipboard/Thread/Overtaking
   source: src/src/thread/rwlock.c
   layer: results
   digest: How long a writer may wait, and the end that every order of the threads comes to. -/

import DistributedClipboard.Lib.Termination
import DistributedClipboard.Thread.SectionRuns

set_option autoImplicit false
set_option relaxedAutoImplicit false

namespace DistributedClipboard.Thread.Overtaking

open DistributedClipboard.Lib.Transition
open DistributedClipboard.Thread.Rwlock
open DistributedClipboard.Thread.SectionRuns
open DistributedClipboard.Thread.Sections

universe u

section Overtaking

/-- Two readers and a writer. -/
inductive Trio
  | first | second | writer
  deriving DecidableEq, Repr

instance : Fintype Trio := ⟨{.first, .second, .writer}, fun t => by cases t <;> decide⟩

/-- `n` rounds for the readers, of which the first begins one section more. -/
def rounds (n : Nat) : Trio → List SectionKind
  | .first => .read :: List.replicate n .read
  | .second => List.replicate n .read
  | .writer => [.write]

/-- The first reader is in its section, the writer has called `rw_lock_wlock`, and `n` rounds are
left. -/
def between (n : Nat) : Runners Trio where
  lock := ⟨none, 0, 1, fun | .first => 1 | _ => 0⟩
  pos
    | .first => .reading
    | .second => .out
    | .writer => .wlockWait
  todo
    | .writer => []
    | _ => List.replicate n .read

def kept (s : Runners Trio) (_ : Trio) : Prop := s.pos .writer = .wlockWait ∧ s.lock.sem = 0

instance (s : Runners Trio) (t : Trio) : Decidable (kept s t) :=
  inferInstanceAs (Decidable (_ ∧ _))

def each {α : Type} (f : Trio → α) : α × α × α := (f .first, f .second, f .writer)

theorem each_injective {α : Type} {f g : Trio → α} (same : each f = each g) : f = g := by
  funext t
  simp only [each, Prod.mk.injEq] at same
  cases t with
  | first => exact same.1
  | second => exact same.2.1
  | writer => exact same.2.2

def parts (s : Runners Trio) :=
  (s.lock.mLock, s.lock.sem, s.lock.nReaders, each s.lock.readers, each s.pos, each s.todo)

theorem parts_injective {s t : Runners Trio} (same : parts s = parts t) : s = t := by
  obtain ⟨⟨mLock, sem, nReaders, readers⟩, pos, todo⟩ := s
  obtain ⟨⟨mLock', sem', nReaders', readers'⟩, pos', todo'⟩ := t
  simp only [parts, Prod.mk.injEq] at same
  obtain ⟨rfl, rfl, rfl, readers, pos, todo⟩ := same
  obtain rfl := each_injective readers
  obtain rfl := each_injective pos
  obtain rfl := each_injective todo
  rfl

def round : List Trio :=
  List.replicate 5 .second ++ List.replicate 10 .first ++ List.replicate 5 .second

variable (plan : Trio → List SectionKind)

theorem round_overtakes (n : Nat) : (runSystem plan).Path kept (between (n + 1)) (between n) := by
  have goes : ((runSystem plan).guardedRun kept (between (n + 1)) round).map parts =
      some (parts (between n)) := rfl
  obtain ⟨s, run, seen⟩ := Option.map_eq_some_iff.mp goes
  obtain rfl := parts_injective seen
  exact System.path_of_guardedRun round run

/-- By induction on the rounds left. -/
theorem rounds_overtake (n : Nat) : (runSystem plan).Path kept (between n) (between 0) := by
  induction n with
  | zero => exact System.Path.refl _
  | succ n ih => exact (round_overtakes plan n).trans ih

theorem reach_between (n : Nat) : (runSystem (rounds n)).Reach System.anyStep (between n) := by
  have goes : ((runSystem (rounds n)).run (runSystem (rounds n)).init
      (List.replicate 6 .first ++ [.writer])).map parts = some (parts (between n)) := rfl
  obtain ⟨s, run, seen⟩ := Option.map_eq_some_iff.mp goes
  obtain rfl := parts_injective seen
  exact System.path_of_run _ (fun _ _ _ => trivial) run

/-- No number bounds the sections that two readers may begin and end while a writer that has called
`rw_lock_wlock` waits, nor is there a moment between at which it could go on. -/
theorem writer_overtaken (n : Nat) : ∃ s s' : Runners Trio,
    (runSystem (rounds n)).Reach System.anyStep s ∧
    (runSystem (rounds n)).Path (fun s _ => s.pos .writer = .wlockWait ∧ runStep s .writer = none)
      s s' ∧
    ∀ t, t ≠ .writer → s.todo t = List.replicate n .read ∧ s'.todo t = [] := by
  have blocked : ∀ s t, kept s t → s.pos .writer = .wlockWait ∧ runStep s .writer = none := by
    intro s t keeps
    obtain ⟨waits, taken⟩ := keeps
    refine ⟨waits, ?_⟩
    simp [runStep, waits, rwStep, taken]
  refine ⟨between n, between 0, reach_between n, (rounds_overtake _ n).mono blocked, ?_⟩
  intro t other
  cases t with
  | first => exact ⟨rfl, rfl⟩
  | second => exact ⟨rfl, rfl⟩
  | writer => exact absurd rfl other

end Overtaking

section Orders

variable {T : Type u} [Fintype T] [DecidableEq T] {plan : T → List SectionKind} {s s' : Runners T}

/-- Every thread has run its sections and the lock is as `rw_lock_init` made it. -/
def AtEnd (s : Runners T) : Prop :=
  (∀ t, s.finished t) ∧ s.lock.nReaders = 0 ∧ s.lock.sem = 1

theorem inv_of_runStep {t : T} (inv : Inv s.lock s.pos) (edge : runStep s t = some s') :
    Inv s'.lock s'.pos := by
  obtain ⟨a, guard, moved⟩ := runStep_cases edge
  exact step_keeps_inv s.view a s'.view inv guard moved

theorem atEnd_of_stuck (inv : Inv s.lock s.pos)
    (stuck : (runSystem plan).Stuck System.anyStep s) : AtEnd s := by
  have finished : ∀ t, s.finished t := by
    by_contra unfinished
    obtain ⟨u, s', edge⟩ := some_thread_goes inv (not_forall.mp unfinished)
    have none_ : runStep s u = none := stuck u trivial
    rw [none_] at edge
    cases edge
  exact ⟨finished, lock_at_rest inv fun t => (finished t).1⟩

/-- Whatever order the threads run in, they are all done after no more steps than the sum says. -/
theorem sections_settle (h : (runSystem plan).Reach System.anyStep s) :
    (runSystem plan).Settles System.anyStep (∑ t, s.left t) AtEnd s := by
  have start : Inv s.lock s.pos := reach_inv (view_reach h)
  apply System.settles_of_descent (I := fun s : Runners T => Inv s.lock s.pos)
    fun s : Runners T => ∑ t, s.left t
  · intro s t s' inv _ edge
    exact ⟨inv_of_runStep inv edge, sum_left_lt edge⟩
  · intro s inv stuck
    exact atEnd_of_stuck inv stuck
  · exact start

theorem sections_settle_trio :
    (runSystem (rounds 2)).Settles System.anyStep 58 AtEnd (between 2) := by
  have bound : ∑ t, (between 2).left t = 58 := by decide
  have settles := sections_settle (reach_between 2)
  rwa [bound] at settles

end Orders

end DistributedClipboard.Thread.Overtaking
