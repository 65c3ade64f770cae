/- module: DistributedClipboard/Thread/QueueLocks
   source: src/src/thread/queue.c
   layer: results
   digest: Who holds the lock of the queue, and what a set terminate flag excludes. -/

import DistributedClipboard.Lib.Mutex
import DistributedClipboard.Thread.Queue

set_option autoImplicit false
set_option relaxedAutoImplicit false

namespace DistributedClipboard.Thread.QueueLocks

open DistributedClipboard.Lib.Linked
open DistributedClipboard.Lib.Mutex
open DistributedClipboard.Lib.Transition
open DistributedClipboard.Thread.Queue

universe u v

section

variable {T : Type u} [DecidableEq T] {D : Type v} {s s' : State T D} {t : T}

def inside : Pc D → Bool
  | .test _ _ | .reject _ _ | .link _ _ | .setLast _ _ | .setFirst _ _ | .count _ _ | .unlock _
  | .setTerminate | .unlockTerminate => true
  | _ => false

def popInside : PopPc D → Bool
  | .guard | .exitTest | .unlockNull | .take | .advance _ | .fixLast _ | .count _ | .unlock _ => true
  | _ => false

def rejected (x : Caller D) : Bool := x.returned.any fun r => r.2 = -1

/-- A caller holds the lock inside its critical section and for good after a rejected push. -/
def holds (s : State T D) : Holder T → Bool
  | .caller t => inside (s.threads t).pc || rejected (s.threads t)
  | .consumer => popInside s.consumer

def linking : Pc D → Bool
  | .link _ _ | .setLast _ _ | .setFirst _ _ | .count _ _ => true
  | _ => false

/-- The consumer is on its way out of its last `queue_pop`. -/
def nulled : PopPc D → Bool
  | .unlockNull | .ended => true
  | _ => false

structure Locks (s : State T D) : Prop where
  held : Held (holds s) s.q.lock
  apart : ∀ t, rejected (s.threads t) = true → inside (s.threads t).pc = false

/-- Nobody is linking once the queue is terminated, and `queue_pop` has returned `NULL`, or is about
to, on a count of 0. -/
structure Closed (s : State T D) : Prop where
  linking : s.q.terminate = true → ∀ t, linking (s.threads t).pc = false
  null : nulled s.consumer = true → s.q.terminate = true ∧ s.q.nElements = 0

attribute [local simp] State.setThread State.goto State.ret State.setCell State.fail State.setLock
  State.popGoto

section Effects

omit [DecidableEq T]

@[simp] theorem rejected_goto (x : Caller D) (pc : Pc D) :
    rejected ⟨pc, x.returned⟩ = rejected x := rfl

@[simp] theorem rejected_ret (x : Caller D) (pc : Pc D) (d : D) (r : Int) :
    rejected ⟨pc, x.returned ++ [(d, r)]⟩ = (rejected x || decide (r = -1)) := by
  simp [rejected]

@[simp] theorem free_q (a : Addr) : (s.free a).q = s.q := by
  unfold State.free
  split <;> rfl

@[simp] theorem free_threads (a : Addr) : (s.free a).threads = s.threads := by
  unfold State.free
  split <;> rfl

@[simp] theorem free_consumer (a : Addr) : (s.free a).consumer = s.consumer := by
  unfold State.free
  split <;> rfl

@[simp] theorem free_popped (a : Addr) : (s.free a).popped = s.popped := by
  unfold State.free
  split <;> rfl

@[simp] theorem free_accepted (a : Addr) : (s.free a).accepted = s.accepted := by
  unfold State.free
  split <;> rfl

@[simp] theorem signal_accepted : s.signal.accepted = s.accepted := by
  unfold State.signal
  split <;> rfl

@[simp] theorem signal_popped : s.signal.popped = s.popped := by
  unfold State.signal
  split <;> rfl

@[simp] theorem signal_q : s.signal.q = s.q := by
  unfold State.signal
  split <;> rfl

@[simp] theorem signal_threads : s.signal.threads = s.threads := by
  unfold State.signal
  split <;> rfl

@[simp] theorem signal_consumer : s.signal.consumer ≠ .blocked := by
  unfold State.signal
  split
  · simp
  · rename_i other
    exact other

@[simp] theorem signal_nulled : nulled s.signal.consumer = nulled s.consumer := by
  unfold State.signal
  split
  · rename_i blocked
    simp [blocked, nulled]
  · rfl

@[simp] theorem signal_popInside : popInside s.signal.consumer = popInside s.consumer := by
  unfold State.signal
  split
  · rename_i blocked
    simp [blocked, popInside]
  · rfl

end Effects

theorem callerStep_others {new : Option Addr} (edge : callerStep s t new = some s') :
    (∀ u, u ≠ t → s'.threads u = s.threads u) ∧ popInside s'.consumer = popInside s.consumer := by
  unfold callerStep at edge
  split at edge <;> (repeat' split at edge) <;> cases edge
  all_goals
    constructor
    · intro u apart
      simp [apart]
    · simp

theorem callerStep_lock {new : Option Addr} (locks : Locks s) (edge : callerStep s t new = some s') :
    Change (.caller t) (holds s (.caller t)) (holds s' (.caller t)) s.q.lock s'.q.lock ∧
      (rejected (s'.threads t) = true → inside (s'.threads t).pc = false) := by
  have apart := locks.apart t
  have free : s.q.lock = none → rejected (s.threads t) = false := by
    intro free
    have out := (free ▸ locks.held : Held (holds s) none).free (.caller t)
    simp only [holds, Bool.or_eq_false_iff] at out
    exact out.2
  cases pc : (s.threads t).pc
  all_goals
    rw [pc] at apart
    simp only [inside, Bool.true_eq_false, imp_false, Bool.not_eq_true, implies_true] at apart
    simp only [callerStep, pc] at edge
    repeat' split at edge
    all_goals try cases edge
  case lock | lockTerminate =>
    rename_i unlocked
    exact ⟨.take unlocked (by simp [holds, inside]) rfl, by simp [free unlocked]⟩
  case unlock | unlockTerminate =>
    exact ⟨.release (by simp [holds, pc, inside]) (by simp [holds, inside, apart]) rfl,
      by simp [inside]⟩
  all_goals
    refine ⟨.same ?_ ?_, ?_⟩ <;> simp [holds, pc, inside, apart]

omit [DecidableEq T] in
theorem popStep_threads (edge : popStep s = some s') : s'.threads = s.threads := by
  unfold popStep at edge
  split at edge <;> (repeat' split at edge) <;> cases edge <;> simp

omit [DecidableEq T] in
theorem popStep_lock (edge : popStep s = some s') :
    Change .consumer (popInside s.consumer) (popInside s'.consumer) s.q.lock s'.q.lock := by
  cases pc : s.consumer
  all_goals
    simp only [popStep, pc] at edge
    repeat' split at edge
    all_goals try cases edge
  case lock | relock =>
    rename_i unlocked
    exact .take unlocked rfl rfl
  case unlock | unlockNull => exact .release rfl rfl rfl
  case guard.isTrue => exact .release rfl rfl rfl
  all_goals
    refine .same ?_ ?_ <;> simp [pc, popInside]

omit [DecidableEq T] in
theorem Locks.same (h : Locks s) (lock : s'.q.lock = s.q.lock)
    (callers : ∀ u, inside (s'.threads u).pc = inside (s.threads u).pc ∧
      rejected (s'.threads u) = rejected (s.threads u))
    (consumer : popInside s'.consumer = popInside s.consumer) : Locks s' := by
  refine ⟨?_, fun u => ?_⟩
  · rw [lock]
    refine h.held.same fun u => ?_
    cases u with
    | caller u => rw [holds, holds, (callers u).1, (callers u).2]
    | consumer => exact consumer
  · rw [(callers u).1, (callers u).2]
    exact h.apart u

theorem Locks.step {a : Label T D} (h : Locks s) (edge : step s a = some s') : Locks s' := by
  cases a with
  | next t new =>
    obtain ⟨change, apart⟩ := callerStep_lock h edge
    obtain ⟨others, consumer⟩ := callerStep_others edge
    refine ⟨h.held.change (fun u other => ?_) change, fun u => ?_⟩
    · cases u with
      | caller u =>
        have other : u ≠ t := fun eq => other (eq ▸ rfl)
        rw [holds, holds, others u other]
      | consumer => exact consumer
    · by_cases eq : u = t
      · exact eq ▸ apart
      · rw [others u eq]
        exact h.apart u
  | consume =>
    have same := popStep_threads edge
    refine ⟨h.held.change (t := .consumer) (fun u other => ?_) (popStep_lock edge), fun u => ?_⟩
    · cases u with
      | caller u => rw [holds, holds, same]
      | consumer => exact absurd rfl other
    · rw [same]
      exact h.apart u
  | push t d | terminate t =>
    simp only [Queue.step] at edge
    split at edge <;> cases edge
    rename_i idle
    refine h.same rfl (fun u => ?_) rfl
    by_cases eq : u = t
    · subst eq
      simp [idle, inside]
    · simp [eq]
  | pop | wake =>
    simp only [Queue.step] at edge
    split at edge <;> cases edge
    rename_i there
    refine h.same rfl (fun _ => ⟨rfl, rfl⟩) ?_
    rw [there]
    rfl

theorem locks_init : Locks (queueSystem T D).init where
  held u := by cases u <;> simp [holds, queueSystem, inside, rejected, popInside]
  apart _ _ := rfl

/-- In every run the lock names its holder. -/
theorem locks_of_reach {ok : State T D → Label T D → Prop} (h : (queueSystem T D).Reach ok s) :
    Locks s :=
  h.invariant locks_init fun _ _ _ locks _ edge => locks.step edge

omit [DecidableEq T] in
theorem Locks.caller (h : Locks s) (here : inside (s.threads t).pc = true) :
    s.q.lock = some (.caller t) := (h.held _).mp (by simp [holds, here])

omit [DecidableEq T] in
theorem Locks.consumer (h : Locks s) (here : popInside s.consumer = true) :
    s.q.lock = some .consumer := (h.held _).mp here

theorem not_linking {pc : Pc D} (h : inside pc = false) : linking pc = false := by
  cases pc <;> first | rfl | cases h

omit [DecidableEq T] in
theorem Locks.alone (h : Locks s) {u : T} (here : holds s (.caller t) = true) (apart : u ≠ t) :
    inside (s.threads u).pc = false := by
  by_contra there
  have both : holds s (.caller u) = true := by
    rw [Bool.not_eq_false] at there
    rw [holds, there, Bool.true_or]
  have same := h.held.unique here both
  cases same
  exact apart rfl

theorem callerStep_flag {new : Option Addr} (edge : callerStep s t new = some s') :
    (s'.q.terminate = s.q.terminate ∨
      inside (s.threads t).pc = true ∧ linking (s'.threads t).pc = false) ∧
    (linking (s'.threads t).pc = true → linking (s.threads t).pc = true ∨ s.q.terminate = false) ∧
    (s'.q.nElements = s.q.nElements ∨ linking (s.threads t).pc = true) ∧
    (s.q.terminate = true → s'.q.terminate = true) ∧
    nulled s'.consumer = nulled s.consumer := by
  unfold callerStep at edge
  split at edge <;> rename_i pc <;> (repeat' split at edge) <;> cases edge
  all_goals
    simp_all [linking, inside]

omit [DecidableEq T] in
theorem popStep_flag (edge : popStep s = some s') :
    s'.q.terminate = s.q.terminate ∧
    (nulled s'.consumer = true →
      s'.q.nElements = s.q.nElements ∧
        (nulled s.consumer = true ∨ s.q.nElements = 0 ∧ s.q.terminate = true)) := by
  unfold popStep at edge
  split at edge <;> rename_i pc <;> (repeat' split at edge) <;> cases edge
  all_goals
    simp_all [nulled]

theorem Closed.step {a : Label T D} (h : Closed s) (locks : Locks s)
    (edge : Queue.step s a = some s') : Closed s' := by
  cases a with
  | next t new =>
    obtain ⟨flag, links, count, kept, null⟩ := callerStep_flag edge
    obtain ⟨others, _⟩ := callerStep_others edge
    constructor
    · intro closed u
      rcases flag with same | ⟨here, mine⟩
      · have closed : s.q.terminate = true := same ▸ closed
        by_cases eq : u = t
        · subst eq
          by_contra link
          rcases links (by simpa using link) with before | opened
          · simp [h.linking closed u] at before
          · simp [closed] at opened
        · rw [others u eq]
          exact h.linking closed u
      · by_cases eq : u = t
        · exact eq ▸ mine
        · rw [others u eq]
          exact not_linking (locks.alone (t := t) (by simp [holds, here]) eq)
    · intro nulled'
      obtain ⟨closed, zero⟩ := h.null (null ▸ nulled')
      refine ⟨kept closed, ?_⟩
      rcases count with same | link
      · rw [same, zero]
      · simp [h.linking closed t] at link
  | consume =>
    obtain ⟨flag, null⟩ := popStep_flag edge
    constructor
    · intro closed u
      rw [popStep_threads edge]
      exact h.linking (flag ▸ closed) u
    · intro nulled'
      obtain ⟨count, before⟩ := null nulled'
      rw [flag, count]
      rcases before with before | now
      · exact h.null before
      · exact now.symm
  | push t d | terminate t =>
    simp only [Queue.step] at edge
    split at edge <;> cases edge
    refine ⟨fun closed u => ?_, h.null⟩
    by_cases eq : u = t
    · subst eq
      simp [QueueLocks.linking]
    · simpa [eq] using h.linking closed u
  | pop | wake =>
    simp only [Queue.step] at edge
    split at edge <;> cases edge
    refine ⟨h.linking, fun nulled' => ?_⟩
    cases nulled'

/-- In every run nobody links into a terminated queue. -/
theorem closed_of_reach {ok : State T D → Label T D → Prop} (h : (queueSystem T D).Reach ok s) :
    Closed s := by
  refine h.invariant_of (fun t reach => locks_of_reach reach) ⟨fun flag => ?_, fun null => ?_⟩
    fun _ _ _ locks closed _ edge => closed.step locks edge
  · cases flag
  · cases null

def signalling : Pc D → Bool
  | .unlock _ | .signal _ | .unlockTerminate | .signalTerminate => true
  | _ => false

def Woken (s : State T D) : Prop :=
  s.consumer = .blocked → s.q.nElements ≠ 0 ∨ s.q.terminate = true →
    ∃ t, signalling (s.threads t).pc = true

theorem callerStep_wakes {new : Option Addr} (edge : callerStep s t new = some s')
    (blocked : s'.consumer = .blocked) :
    s.consumer = .blocked ∧ (signalling (s'.threads t).pc = true ∨
      signalling (s.threads t).pc = false ∧ s'.q.nElements = s.q.nElements ∧
        s'.q.terminate = s.q.terminate) := by
  unfold callerStep at edge
  split at edge <;> rename_i pc <;> (repeat' split at edge) <;> cases edge
  all_goals simp_all [signalling]

theorem Woken.step {a : Label T D} (h : Woken s) (edge : Queue.step s a = some s') : Woken s' := by
  intro blocked need
  cases a with
  | next t new =>
    obtain ⟨others, _⟩ := callerStep_others edge
    obtain ⟨before, signals | ⟨silent, count, flag⟩⟩ := callerStep_wakes edge blocked
    · exact ⟨t, signals⟩
    · rw [count, flag] at need
      obtain ⟨u, waking⟩ := h before need
      have apart : u ≠ t := by
        rintro rfl
        rw [silent] at waking
        cases waking
      exact ⟨u, by rw [others u apart, waking]⟩
  | consume =>
    have edge : popStep s = some s' := edge
    unfold popStep at edge
    split at edge <;> (repeat' split at edge) <;> cases edge
    all_goals simp_all
  | push t d | terminate t =>
    simp only [Queue.step] at edge
    split at edge <;> cases edge
    rename_i idle
    obtain ⟨u, waking⟩ := h blocked need
    have apart : u ≠ t := by
      rintro rfl
      rw [idle] at waking
      cases waking
    exact ⟨u, by simpa [apart] using waking⟩
  | pop | wake =>
    simp only [Queue.step] at edge
    split at edge <;> cases edge
    cases blocked

/-- In every run a consumer that is blocked without need is about to be woken. -/
theorem woken_of_reach {ok : State T D → Label T D → Prop} (h : (queueSystem T D).Reach ok s) :
    Woken s := by
  refine h.invariant (fun blocked => ?_) fun _ _ _ woken _ edge => woken.step edge
  cases blocked

end

end DistributedClipboard.Thread.QueueLocks
