/- module: DistributedClipboard/Thread/QueueReject
   source: src/src/thread/queue.c, src/src/interfaces/clipif.c
   layer: results
   digest: Failed pushes, and the end of the consumer once the queue is terminated. -/

import DistributedClipboard.Thread.QueueFifo

set_option autoImplicit false
set_option relaxedAutoImplicit false

namespace DistributedClipboard.Thread.QueueReject

open DistributedClipboard.Lib.Mutex
open DistributedClipboard.Lib.Transition
open DistributedClipboard.Thread.Queue
open DistributedClipboard.Thread.QueueFifo
open DistributedClipboard.Thread.QueueLocks
open DistributedClipboard.Thread.QueueMemory

universe u v

section

variable {T : Type u} [DecidableEq T] {D : Type v} {s s' : State T D} {t : T}

/-- The `pthread_mutex_lock` of `queue_push`. -/
def enters : Pc D → Bool
  | .lock _ _ => true
  | _ => false

def probing : Pc D → Bool
  | .test _ _ | .reject _ _ => true
  | _ => false

omit [DecidableEq T] in
theorem not_probing {pc : Pc D} (h : inside pc = false) : probing pc = false := by
  cases pc <;> first | rfl | cases h

/-- No push takes the lock of a terminated queue, and the counter does not wrap. -/
def orderly (s : State T D) : Label T D → Prop
  | .next t new =>
    (enters (s.threads t).pc = true → s.q.terminate = false) ∧ counts s (.next t new)
  | _ => True

instance : (s : State T D) → (a : Label T D) → Decidable (orderly s a)
  | s, .next t new => inferInstanceAs (Decidable
      ((enters (s.threads t).pc = true → s.q.terminate = false) ∧ counts s (.next t new)))
  | _, .push _ _ => .isTrue trivial
  | _, .terminate _ => .isTrue trivial
  | _, .pop => .isTrue trivial
  | _, .consume => .isTrue trivial
  | _, .wake => .isTrue trivial

structure Welcome (s : State T D) : Prop where
  rejected : ∀ t, rejected (s.threads t) = false
  probing : s.q.terminate = true → ∀ t, probing (s.threads t).pc = false
  reject : ∀ t a d, (s.threads t).pc ≠ .reject a d

attribute [local simp] State.setThread State.goto State.ret State.setCell State.fail State.setLock
  State.popGoto

theorem Welcome.callerStep {new : Option Addr} (h : Welcome s) (locks : Locks s)
    (guard : enters (s.threads t).pc = true → s.q.terminate = false)
    (edge : callerStep s t new = some s') : Welcome s' := by
  obtain ⟨others, _⟩ := callerStep_others edge
  have mine : QueueLocks.rejected (s'.threads t) = false ∧
      (∀ a d, (s'.threads t).pc ≠ .reject a d) ∧
      (s'.q.terminate = true → QueueReject.probing (s'.threads t).pc = false) ∧
      (s'.q.terminate = s.q.terminate ∨ inside (s.threads t).pc = true) := by
    have before := h.rejected t
    have stays := fun closed => h.probing closed t
    have fine := h.reject t
    cases pc : (s.threads t).pc
    all_goals
      simp only [Queue.callerStep, pc] at edge
      rw [pc] at stays guard fine
      repeat' split at edge
      all_goals try cases edge
    all_goals simp_all [QueueReject.probing, enters, inside]
  obtain ⟨clean, fine, out, flag⟩ := mine
  refine ⟨fun u => ?_, fun closed u => ?_, fun u a d => ?_⟩
  · by_cases eq : u = t
    · exact eq ▸ clean
    · rw [others u eq]
      exact h.rejected u
  · by_cases eq : u = t
    · exact eq ▸ out closed
    · rw [others u eq]
      rcases flag with same | here
      · exact h.probing (same ▸ closed) u
      · exact not_probing (locks.alone (t := t) (by simp [holds, here]) eq)
  · by_cases eq : u = t
    · exact eq ▸ fine a d
    · rw [others u eq]
      exact h.reject u a d

theorem Welcome.step {a : Label T D} (h : Welcome s) (locks : Locks s) (guard : orderly s a)
    (edge : Queue.step s a = some s') : Welcome s' := by
  cases a with
  | next t new => exact h.callerStep locks guard.1 edge
  | consume =>
    have flag := (popStep_flag edge).1
    have same := popStep_threads edge
    refine ⟨?_, ?_, ?_⟩
    · rw [same]
      exact h.rejected
    · rw [same, flag]
      exact h.probing
    · rw [same]
      exact h.reject
  | push t d | terminate t =>
    simp only [Queue.step] at edge
    split at edge <;> cases edge
    refine ⟨fun u => ?_, fun closed u => ?_, fun u a d => ?_⟩
    all_goals by_cases eq : u = t
    · subst eq
      simpa using h.rejected u
    · simpa [eq] using h.rejected u
    · subst eq
      simp [QueueReject.probing]
    · simpa [eq] using h.probing closed u
    · subst eq
      simp
    · simpa [eq] using h.reject u a d
  | pop | wake =>
    simp only [Queue.step] at edge
    split at edge <;> cases edge
    exact ⟨h.rejected, h.probing, h.reject⟩

theorem welcome_of_reach (h : (queueSystem T D).Reach orderly s) : Welcome s := by
  refine h.invariant_of (fun _ reach => locks_of_reach reach) ⟨fun _ => rfl, fun closed => ?_, ?_⟩
    fun _ _ _ locks welcome guard edge => welcome.step locks guard edge
  · cases closed
  · intro t a d
    simp [queueSystem]

omit [DecidableEq T] in
theorem counts_of_orderly {a : Label T D} (h : orderly s a) : counts s a := by
  cases a with
  | next t new => exact h.2
  | _ => trivial

def holderRank : Pc D → Nat
  | .setTerminate => 2
  | .unlock _ | .unlockTerminate => 1
  | _ => 0

/-- The remaining statements of a call of `queue_pop`. -/
def popRank : PopPc D → Nat
  | .outside | .blocked => 12
  | .lock | .relock => 11
  | .guard => 10
  | .exitTest => 9
  | .take => 8
  | .advance _ => 7
  | .fixLast _ => 6
  | .count _ => 5
  | .unlock _ => 4
  | .read _ => 3
  | .free _ _ => 2
  | .unlockNull => 1
  | .ended => 0

/-- What is left to do until the consumer has popped everything. -/
def work (s : State T D) : Nat :=
  20 * (s.accepted.length - s.popped.length) + popRank s.consumer

def holderWork (s : State T D) : Nat :=
  match s.q.lock with
  | some (.caller t) => holderRank (s.threads t).pc
  | _ => 0

def inProgress : Label T D → Bool
  | .next _ _ | .pop | .consume => true
  | _ => false

def onward (s : State T D) (a : Label T D) : Prop := orderly s a ∧ inProgress a = true

omit [DecidableEq T] in
theorem holderWork_same (lock : s'.q.lock = s.q.lock)
    (rank : ∀ t, s.q.lock = some (.caller t) →
      holderRank (s'.threads t).pc = holderRank (s.threads t).pc) : holderWork s' = holderWork s := by
  unfold holderWork
  rw [lock]
  split
  · rename_i t held
    exact rank t held
  · rfl

omit [DecidableEq T] in
theorem popStep_works (edge : popStep s = some s') (sound : s'.fault = false)
    (closed : s.q.terminate = true)
    (behind : ∀ aux d, s.consumer = .free aux d → s.popped.length < s.accepted.length) :
    work s' < work s ∧ s'.accepted = s.accepted := by
  unfold popStep at edge
  split at edge <;> rename_i pc <;> (repeat' split at edge) <;> cases edge
  case h_12 => 
    simp_all [work, popRank]
    omega
  all_goals simp_all [work, popRank]

omit [DecidableEq T] in
theorem popStep_holder (edge : popStep s = some s') : holderWork s' ≤ holderWork s := by
  have same := popStep_threads edge
  cases popStep_lock edge with
  | same _ mutex => exact Nat.le_of_eq (holderWork_same mutex fun t _ => by rw [same])
  | take _ _ mutex => simp [holderWork, mutex]
  | release _ _ mutex => simp [holderWork, mutex]

theorem callerStep_works (lock : s.q.lock = some (.caller t))
    (rank : holderRank (s.threads t).pc ≠ 0) :
    ∃ s', callerStep s t none = some s' ∧ holderWork s' < holderWork s ∧ s'.consumer = s.consumer ∧
      s'.accepted = s.accepted ∧ s'.popped = s.popped := by
  cases pc : (s.threads t).pc
  case setTerminate | unlock | unlockTerminate =>
    obtain ⟨s', edge⟩ : ∃ s', callerStep s t none = some s' := by simp [callerStep, pc]
    refine ⟨s', edge, ?_⟩
    simp only [callerStep, pc] at edge
    cases edge
    simp [holderWork, lock, pc, holderRank]
  all_goals
    rw [pc] at rank
    exact absurd rfl rank

theorem callerStep_signals (blocked : s.consumer = .blocked)
    (signal : signalling (s.threads t).pc = true) (out : inside (s.threads t).pc = false) :
    ∃ s', callerStep s t none = some s' ∧ holderWork s' = holderWork s ∧ s'.consumer = .relock ∧
      s'.accepted = s.accepted ∧ s'.popped = s.popped := by
  cases pc : (s.threads t).pc
  case signal | signalTerminate =>
    obtain ⟨s', edge⟩ : ∃ s', callerStep s t none = some s' := by simp [callerStep, pc]
    refine ⟨s', edge, holderWork_same ?_ fun u _ => ?_, ?_⟩
    all_goals
      simp only [callerStep, pc] at edge
      cases edge
    · simp
    · by_cases mine : u = t
      · subst mine
        simp [pc, holderRank]
      · simp [mine]
    · simp [State.signal, blocked]
  all_goals simp_all [signalling, inside]

theorem terminate_kept {a : Label T D} (edge : Queue.step s a = some s')
    (closed : s.q.terminate = true) : s'.q.terminate = true := by
  cases a with
  | next t new =>
    obtain ⟨_, _, _, kept, _⟩ := callerStep_flag edge
    exact kept closed
  | consume => rw [(popStep_flag edge).1, closed]
  | push t d | terminate t | pop | wake =>
    simp only [Queue.step] at edge
    split at edge <;> cases edge
    exact closed

omit [DecidableEq T] in
theorem holderRank_ne {pc : Pc D} (here : inside pc = true) (out : probing pc = false)
    (past : linking pc = false) : holderRank pc ≠ 0 := by
  cases pc with
  | unlock | setTerminate | unlockTerminate => exact Nat.succ_ne_zero _
  | test | reject => cases out
  | link | setLast | setFirst | count => cases past
  | _ => cases here

omit [DecidableEq T] in
theorem leaves_onward {pc : Pc D} (leaving : signalling pc = true ∨ holderRank pc ≠ 0) :
    enters pc = false ∧ increments pc = false := by
  cases pc with
  | lock | count => simp [signalling, holderRank] at leaving
  | _ => exact ⟨rfl, rfl⟩

omit [DecidableEq T] in
theorem onward_next (enters : enters (s.threads t).pc = false)
    (increments : increments (s.threads t).pc = false) : onward s (.next t none) := by
  refine ⟨⟨fun enter => ?_, fun count => ?_⟩, rfl⟩
  · rw [enters] at enter
    cases enter
  · rw [increments] at count
    cases count

theorem advances (reach : (queueSystem T D).Reach orderly s) (closed : s.q.terminate = true) :
    s.consumer = .ended ∨ ∃ a s', onward s a ∧ Queue.step s a = some s' ∧
      s'.accepted = s.accepted ∧ 3 * work s' + holderWork s' < 3 * work s + holderWork s := by
  have locks := locks_of_reach reach
  have welcome := welcome_of_reach reach
  have shut := closed_of_reach reach
  obtain ⟨own, chain, inv⟩ := inv_of_reach reach
  -- a caller that holds the lock has only to leave its section
  have leave (t : T) (lock : s.q.lock = some (.caller t)) : ∃ a s', onward s a ∧
      Queue.step s a = some s' ∧ s'.accepted = s.accepted ∧
      3 * work s' + holderWork s' < 3 * work s + holderWork s := by
    have here : inside (s.threads t).pc = true := by
      have held := (locks.held (.caller t)).mpr lock
      simpa [holds, welcome.rejected t] using held
    have rank : holderRank (s.threads t).pc ≠ 0 :=
      holderRank_ne here (welcome.probing closed t) (shut.linking closed t)
    obtain ⟨s', edge, less, consumer, accepted, popped⟩ := callerStep_works lock rank
    obtain ⟨enters, increments⟩ := leaves_onward (.inr rank)
    have admitted : onward s (.next t none) := onward_next enters increments
    refine ⟨.next t none, s', admitted, edge, accepted, ?_⟩
    rw [work, consumer, accepted, popped, ← work]
    omega
  -- the consumer's own statement
  have pop {s' : State T D} (edge : popStep s = some s') : ∃ a s', onward s a ∧
      Queue.step s a = some s' ∧ s'.accepted = s.accepted ∧
      3 * work s' + holderWork s' < 3 * work s + holderWork s := by
    obtain ⟨_, _, inv', _⟩ := inv.popStep locks edge
    obtain ⟨less, accepted⟩ := popStep_works edge inv'.fault closed fun aux d pc => by
      have contents := congrArg List.length inv.contents
      have data := inv.popper.read aux d pc
      simp only [inHand, pc, taken, Option.bind_some, data, Option.toList_some,
        List.length_append, List.length_map, List.length_singleton] at contents
      omega
    have holder := popStep_holder edge
    exact ⟨.consume, s', ⟨trivial, rfl⟩, edge, accepted, by omega⟩
  have runs (free : ∀ t, s.q.lock ≠ some (.caller t))
      (waiting : s.consumer = .lock ∨ s.consumer = .relock) : ∃ s', popStep s = some s' := by
    have unlocked : s.q.lock = none := by
      cases lock : s.q.lock with
      | none => rfl
      | some h =>
        cases h with
        | caller t => exact absurd lock (free t)
        | consumer =>
          have held := (locks.held .consumer).mpr lock
          rcases waiting with pc | pc <;> simp [holds, pc, popInside] at held
    rcases waiting with pc | pc <;> simp [popStep, pc, unlocked]
  by_cases held : ∃ t, s.q.lock = some (.caller t)
  · obtain ⟨t, lock⟩ := held
    exact .inr (leave t lock)
  · have free (t : T) : s.q.lock ≠ some (.caller t) := fun lock => held ⟨t, lock⟩
    cases pc : s.consumer with
    | ended => exact .inl rfl
    | outside =>
      refine .inr ⟨.pop, s.popGoto .lock, ⟨trivial, rfl⟩, by simp [Queue.step, pc], rfl, ?_⟩
      simp [work, holderWork, pc, popRank]
    | blocked =>
      obtain ⟨t, signal⟩ := woken_of_reach reach pc (.inr closed)
      have out : inside (s.threads t).pc = false := by
        by_contra here
        exact free t (locks.caller (by simpa using here))
      obtain ⟨s', edge, holder, woken, accepted, popped⟩ := callerStep_signals pc signal out
      obtain ⟨enters, increments⟩ := leaves_onward (.inl signal)
      have admitted : onward s (.next t none) := onward_next enters increments
      refine .inr ⟨.next t none, s', admitted, edge, accepted, ?_⟩
      rw [holder, work, work, woken, pc, accepted, popped]
      simp [popRank]
    | lock =>
      obtain ⟨s', edge⟩ := runs free (.inl pc)
      exact .inr (pop edge)
    | relock =>
      obtain ⟨s', edge⟩ := runs free (.inr pc)
      exact .inr (pop edge)
    | _ =>
      obtain ⟨s', edge⟩ : ∃ s', popStep s = some s' := by
        simp only [popStep, pc]
        repeat' split
        all_goals exact ⟨_, rfl⟩
      exact .inr (pop edge)

theorem drains (reach : (queueSystem T D).Reach orderly s) (closed : s.q.terminate = true) :
    ∃ s', (queueSystem T D).Path onward s s' ∧ s'.accepted = s.accepted ∧
      s'.consumer = .ended ∧ s'.popped = s.accepted.map Prod.snd := by
  have finishes : ∃ s', (queueSystem T D).Path onward s s' ∧
      ((queueSystem T D).Reach orderly s' ∧ s'.q.terminate = true ∧ s'.accepted = s.accepted) ∧
      s'.consumer = .ended := by
    refine System.Path.progress (fun s => 3 * work s + holderWork s) ?_ s ⟨reach, closed, rfl⟩
    rintro u ⟨reach, closed, accepted⟩
    rcases advances reach closed with done | ⟨a, v, admitted, edge, same, less⟩
    · exact .inl done
    · exact .inr ⟨a, v, admitted, edge, ⟨reach.trans (.single admitted.1 edge),
        terminate_kept edge closed, same.trans accepted⟩, less⟩
  obtain ⟨s', path, ⟨reach', _, accepted⟩, ended⟩ := finishes
  have counted : (queueSystem T D).Reach counts s' :=
    reach'.mono fun _ _ guard => counts_of_orderly guard
  refine ⟨s', path, accepted, ended, ?_⟩
  rw [(null_of_ended counted ended).2, accepted]

/-- A push that fails leaves no trace, and keeps nobody from finishing. -/
structure RejectsCleanly (s : State T D) : Prop where
  lock : ∀ t, (s.threads t).pc = .idle → s.q.lock ≠ some (.caller t)
  failed : ∀ t new d r s', Queue.step s (.next t new) = some s' →
    (s'.threads t).returned = (s.threads t).returned ++ [(d, r)] → r ≠ 0 →
      (s.threads t).pc = .malloc d ∧ s'.q = s.q ∧ s'.heap = s.heap
  drains : s.q.terminate = true → ∃ s', (queueSystem T D).Path onward s s' ∧
    s'.accepted = s.accepted ∧ s'.consumer = .ended ∧ s'.popped = s.accepted.map Prod.snd

/-- In every run in which no push comes to a terminated queue, failed pushes leave no trace. -/
theorem rejects_cleanly (h : (queueSystem T D).Reach orderly s) : RejectsCleanly s where
  lock t idle lock := by
    have held := ((locks_of_reach h).held (.caller t)).mpr lock
    simp [holds, idle, inside, (welcome_of_reach h).rejected t] at held
  failed t new d r s' edge returned failed := by
    have fine := (welcome_of_reach h).reject t
    have edge : callerStep s t new = some s' := edge
    cases pc : (s.threads t).pc
    all_goals simp only [callerStep, pc] at edge
    case malloc e =>
      split at edge
      · cases edge
        obtain ⟨rfl, _⟩ : e = d ∧ 1 = r := by simpa using returned
        exact ⟨rfl, rfl, rfl⟩
      · split at edge <;> cases edge
        simp at returned
    case reject => exact absurd pc (fine _ _)
    case signal =>
      cases edge
      simp only [State.ret, State.setThread, signal_threads, Function.update_self,
        List.append_cancel_left_eq, List.cons.injEq, Prod.mk.injEq, and_true] at returned
      exact absurd returned.2.symm failed
    all_goals
      repeat' split at edge
      all_goals try cases edge
    all_goals simp at returned
  drains := drains h

theorem rejected_kept {a : Label T D} (edge : Queue.step s a = some s')
    (h : rejected (s.threads t) = true) : rejected (s'.threads t) = true := by
  cases a with
  | next u new =>
    by_cases mine : t = u
    · subst mine
      have edge : callerStep s t new = some s' := edge
      unfold callerStep at edge
      split at edge <;> (repeat' split at edge) <;> cases edge
      all_goals simp [h]
    · rw [(callerStep_others edge).1 t mine, h]
  | consume => rw [popStep_threads edge, h]
  | push u d | terminate u =>
    simp only [Queue.step] at edge
    split at edge <;> cases edge
    by_cases mine : t = u
    · subst mine
      simp [h]
    · simp [mine, h]
  | pop | wake =>
    simp only [Queue.step] at edge
    split at edge <;> cases edge
    exact h

/-- The consumer is between two calls of `queue_pop` or waits to get in. -/
def kept : PopPc D → Bool
  | .outside | .lock | .blocked | .relock => true
  | _ => false

omit [DecidableEq T] in
@[simp] theorem signal_kept : kept s.signal.consumer = kept s.consumer := by
  unfold State.signal
  split
  · rename_i blocked
    simp [blocked, kept]
  · rfl

theorem kept_step {a : Label T D} (lock : s.q.lock = some (.caller t))
    (away : kept s.consumer = true) (edge : Queue.step s a = some s') :
    kept s'.consumer = true ∧ s'.popped = s.popped := by
  cases a with
  | next u new =>
    have edge : callerStep s u new = some s' := edge
    unfold callerStep at edge
    split at edge <;> (repeat' split at edge) <;> cases edge
    all_goals simp [away]
  | consume =>
    have edge : popStep s = some s' := edge
    cases pc : s.consumer
    all_goals simp_all [popStep, kept]
  | push u d | terminate u =>
    simp only [Queue.step] at edge
    split at edge <;> cases edge
    exact ⟨away, rfl⟩
  | pop | wake =>
    simp only [Queue.step] at edge
    split at edge <;> cases edge
    exact ⟨rfl, rfl⟩

theorem rejected_blocks (locks : Locks s) (h : rejected (s.threads t) = true)
    (away : kept s.consumer = true) (path : (queueSystem T D).Path System.anyStep s s') :
    kept s'.consumer = true ∧ s'.popped = s.popped ∧ s'.q.lock = some (.caller t) := by
  have all : (Locks s' ∧ rejected (s'.threads t) = true) ∧ kept s'.consumer = true ∧
      s'.popped = s.popped := by
    refine System.Path.invariant (I := fun v => (Locks v ∧ rejected (v.threads t) = true) ∧
      kept v.consumer = true ∧ v.popped = s.popped) ?_ path ⟨⟨locks, h⟩, away, rfl⟩
    rintro u a v ⟨⟨locks, h⟩, away, popped⟩ _ edge
    refine ⟨⟨locks.step edge, rejected_kept edge h⟩, ?_⟩
    have lock : u.q.lock = some (.caller t) := (locks.held _).mp (by simp [holds, h])
    obtain ⟨stays, same⟩ := kept_step lock away edge
    exact ⟨stays, same.trans popped⟩
  have lock : s'.q.lock = some (.caller t) := (all.1.1.held _).mp (by simp [holds, all.1.2])
  exact ⟨all.2.1, all.2.2, lock⟩

end

private def earlyRun {T : Type u} {D : Type v} (t v : T) (d e : D) (a : Addr) :
    List (Label T D) :=
  Label.push t d :: List.replicate 9 (Label.next t (some a)) ++ Label.push t e ::
    Label.next t none :: Label.terminate v :: List.replicate 4 (Label.next v none)

theorem rejects_cleanly_early : ∃ s : State Bool Nat, s.q.terminate = true ∧
    (s.threads true).returned = [(7, 0), (8, 1)] ∧ RejectsCleanly s := by
  have reached : ∃ s : State Bool Nat, (queueSystem Bool Nat).Reach orderly s ∧
      decide (s.q.terminate = true ∧ (s.threads true).returned = [(7, 0), (8, 1)]) = true :=
    System.reach_of_guardedRun _ true (earlyRun true false 7 8 0) (by decide)
  obtain ⟨s, reach, seen⟩ := reached
  obtain ⟨closed, returned⟩ := of_decide_eq_true seen
  exact ⟨s, closed, returned, rejects_cleanly reach⟩

private def lateRun {T : Type u} {D : Type v} (t v : T) (d e : D) (a b : Addr) :
    List (Label T D) :=
  Label.push t d :: List.replicate 9 (Label.next t (some a)) ++
    Label.terminate v :: List.replicate 4 (Label.next v none) ++
    Label.push t e :: List.replicate 4 (Label.next t (some b))

/-- A rejected push keeps the lock: the element accepted before it is never popped, and the consumer
never ends. -/
theorem reject_keeps_lock : ∃ s : State Bool Nat,
    (queueSystem Bool Nat).Reach System.anyStep s ∧ s.q.terminate = true ∧
    (s.threads true).returned = [(7, 0), (8, -1)] ∧ ¬ RejectsCleanly s ∧
    ∀ s', (queueSystem Bool Nat).Path System.anyStep s s' →
      s'.q.lock = some (.caller true) ∧ s'.popped = [] ∧ s'.consumer ≠ .ended := by
  have reached : ∃ s : State Bool Nat, (queueSystem Bool Nat).Reach System.anyStep s ∧
      decide (s.q.terminate = true ∧ (s.threads true).returned = [(7, 0), (8, -1)] ∧
        s.consumer = .outside ∧ s.popped = [] ∧ (s.threads true).pc = .idle) = true :=
    System.reach_of_run _ true (lateRun true false 7 8 0 1) (fun _ _ _ => trivial) (by decide)
  obtain ⟨s, reach, seen⟩ := reached
  obtain ⟨closed, returned, outside, popped, idle⟩ := of_decide_eq_true seen
  have rejected : rejected (s.threads true) = true := by simp [QueueLocks.rejected, returned]
  have blocks (s' : State Bool Nat) (path : (queueSystem Bool Nat).Path System.anyStep s s') :=
    rejected_blocks (locks_of_reach reach) rejected (by rw [outside]; rfl) path
  refine ⟨s, reach, closed, returned, fun clean => ?_, fun s' path => ?_⟩
  · exact clean.lock true idle (blocks s (.refl s)).2.2
  · obtain ⟨away, same, lock⟩ := blocks s' path
    refine ⟨lock, same.trans popped, fun ended => ?_⟩
    rw [ended] at away
    cases away

end DistributedClipboard.Thread.QueueReject
