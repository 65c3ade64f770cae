/- module: DistributedClipboard/Thread/QueueWakeups
   source: src/src/thread/queue.c
   layer: results
   digest: A consumer that is blocked without need has its signal still to come. -/

import DistributedClipboard.Thread.QueueLocks

set_option autoImplicit false
set_option relaxedAutoImplicit false

namespace DistributedClipboard.Thread.QueueWakeups

open DistributedClipboard.Lib.Transition
open DistributedClipboard.Thread.Queue
open DistributedClipboard.Thread.QueueLocks

universe u v

/-- The thread has released the lock after its change and has yet to signal. -/
def released {D : Type v} : Pc D → Bool
  | .signal _ | .signalTerminate => true
  | _ => false

/-- The thread has made its change and the release of the lock is its next statement. -/
def releasing {D : Type v} : Pc D → Bool
  | .unlock _ | .unlockTerminate => true
  | _ => false

section

variable {T : Type u} [DecidableEq T] {D : Type v} {s : State T D} {t : T}

theorem inside_of_releasing {pc : Pc D} (h : releasing pc = true) : inside pc = true := by
  cases pc <;> first | rfl | cases h

theorem signalling_cases {pc : Pc D} (h : signalling pc = true) :
    released pc = true ∨ releasing pc = true := by
  cases pc <;> simp [signalling, released, releasing] at h ⊢

theorem release_step (here : releasing (s.threads t).pc = true) :
    ∃ s', (queueSystem T D).step s (.next t none) = some s' ∧ released (s'.threads t).pc = true := by
  simp only [queueSystem, Queue.step]
  cases pc : (s.threads t).pc <;> rw [pc] at here <;> cases here
  all_goals
    refine ⟨_, by rw [callerStep, pc], ?_⟩
    simp [State.setLock, State.goto, State.setThread, released]

theorem signal_step (here : released (s.threads t).pc = true) :
    ∃ s', (queueSystem T D).step s (.next t none) = some s' ∧ s'.consumer ≠ .blocked := by
  simp only [queueSystem, Queue.step]
  cases pc : (s.threads t).pc <;> rw [pc] at here <;> cases here
  all_goals
    refine ⟨_, by rw [callerStep, pc], ?_⟩
    exact signal_consumer

theorem woken_within_two (h : (queueSystem T D).Reach System.anyStep s)
    (blocked : s.consumer = .blocked) (need : s.q.nElements ≠ 0 ∨ s.q.terminate = true) :
    ∃ t as s', as.length ≤ 2 ∧ (∀ a ∈ as, a = .next t none) ∧
      (queueSystem T D).run s as = some s' ∧ s'.consumer ≠ .blocked := by
  obtain ⟨t, waking⟩ := woken_of_reach h blocked need
  rcases signalling_cases waking with out | holding
  · obtain ⟨s', edge, woken⟩ := signal_step out
    refine ⟨t, [.next t none], s', by simp, by simp, ?_, woken⟩
    rw [System.run, edge]
    rfl
  · obtain ⟨m, first, out⟩ := release_step holding
    obtain ⟨s', second, woken⟩ := signal_step out
    refine ⟨t, [.next t none, .next t none], s', by simp, by simp, ?_, woken⟩
    rw [System.run, first, Option.bind_some, System.run, second]
    rfl

/-- While the consumer is blocked on elements or on a set flag, a pushing or terminating thread has
released the lock and has yet to signal, or has made its change, holds the lock and releases it
next. -/
theorem no_lost_wakeup (s : State T D) (h : (queueSystem T D).Reach System.anyStep s)
    (blocked : s.consumer = .blocked) (need : s.q.nElements ≠ 0 ∨ s.q.terminate = true) :
    (∃ t, released (s.threads t).pc = true) ∨
      ∃ t, releasing (s.threads t).pc = true ∧ s.q.lock = some (.caller t) := by
  obtain ⟨t, waking⟩ := woken_of_reach h blocked need
  rcases signalling_cases waking with out | holding
  · exact .inl ⟨t, out⟩
  · have held : s.q.lock = some (.caller t) :=
      (locks_of_reach h).caller (inside_of_releasing holding)
    exact .inr ⟨t, holding, held⟩

end

private def blocks : List (Label (Fin 2) Nat) := [.pop, .consume, .consume]

private def pushes (t : Fin 2) (new : Addr) : List (Label (Fin 2) Nat) :=
  .push t 7 :: .next t (some new) :: List.replicate 6 (.next t none)

theorem no_lost_wakeup_linked : ∃ s : State (Fin 2) Nat,
    s.q.lock = some (.caller 0) ∧
    ((∃ t, released (s.threads t).pc = true) ∨
      ∃ t, releasing (s.threads t).pc = true ∧ s.q.lock = some (.caller t)) := by
  have reached : (queueSystem (Fin 2) Nat).Reach System.anyStep _ :=
    System.path_of_run (blocks ++ pushes 0 0) (fun _ _ _ => trivial) rfl
  exact ⟨_, rfl, no_lost_wakeup _ reached rfl (.inl (by decide))⟩

/-- Between the count and the release of the lock nobody has released it and has yet to signal. -/
theorem linked_before_release : ∃ s : State (Fin 2) Nat,
    (queueSystem (Fin 2) Nat).Reach System.anyStep s ∧ s.consumer = .blocked ∧
    s.q.nElements = 1 ∧ s.q.terminate = false ∧ ∀ t, released (s.threads t).pc = false := by
  have reached : (queueSystem (Fin 2) Nat).Reach System.anyStep _ :=
    System.path_of_run (blocks ++ pushes 0 0) (fun _ _ _ => trivial) rfl
  exact ⟨_, reached, rfl, rfl, rfl, by decide⟩

end DistributedClipboard.Thread.QueueWakeups
