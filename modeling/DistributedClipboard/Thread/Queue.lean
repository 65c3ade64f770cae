/- module: DistributedClipboard/Thread/Queue
   source: src/src/thread/queue.c
   layer: model
   digest: Threads in queue_push, queue_pop and queue_terminate, one statement at a time. -/

import DistributedClipboard.Lib.Linked
import DistributedClipboard.Lib.Transition

set_option autoImplicit false
set_option relaxedAutoImplicit false

namespace DistributedClipboard.Thread.Queue

open DistributedClipboard.Lib.Linked
open DistributedClipboard.Lib.Transition

universe u v

/-- The address of a `queue_node`. -/
abbrev Addr := Nat

inductive Holder (T : Type u)
  | caller (t : T)
  | consumer
  deriving DecidableEq, Repr

/-- `struct queue_`. The condition is the set of threads blocked on it: the consumer or nobody. -/
structure QueueVars (T : Type u) where
  lock : Option (Holder T)
  first : Option Addr
  last : Option Addr
  nElements : UInt32
  terminate : Bool

/-- The statement a caller of `queue_push` or `queue_terminate` executes next, with the node `new`
and the data it was called with. -/
inductive Pc (D : Type v)
  | idle
  -- queue_push
  | malloc (data : D)
  | lock (new : Addr) (data : D)
  | test (new : Addr) (data : D)
  | reject (new : Addr) (data : D)
  | link (new : Addr) (data : D)
  | setLast (new : Addr) (data : D)
  | setFirst (new : Addr) (data : D)
  | count (new : Addr) (data : D)
  | unlock (data : D)
  | signal (data : D)
  -- queue_terminate
  | lockTerminate | setTerminate | unlockTerminate | signalTerminate
  deriving DecidableEq, Repr

/-- The statement the consumer executes next: `outside` between two calls of `queue_pop`, `ended`
once one of them has returned `NULL`. -/
inductive PopPc (D : Type v)
  | outside
  | lock | guard | blocked | relock | exitTest | unlockNull
  | take
  | advance (aux : Addr)
  | fixLast (aux : Addr)
  | count (aux : Addr)
  | unlock (aux : Addr)
  | read (aux : Addr)
  | free (aux : Addr) (retval : D)
  | ended
  deriving DecidableEq, Repr

structure Caller (D : Type v) where
  pc : Pc D
  returned : List (D × Int)

/-- `fault` is set by a read, a write or a free of a cell that is not live. `accepted` and `popped`
are ghosts: what has been linked, in the order of the lock, by whom, and the values `queue_pop` has
returned. -/
structure State (T : Type u) (D : Type v) where
  q : QueueVars T
  heap : Addr → Option (Cell Addr D)
  threads : T → Caller D
  consumer : PopPc D
  fault : Bool
  accepted : List (T × D)
  popped : List D

/-- `malloc` in `queue_push` returns the address that `next` names, or `NULL`. -/
inductive Label (T : Type u) (D : Type v)
  | push (t : T) (data : D)
  | terminate (t : T)
  | next (t : T) (new : Option Addr)
  | pop
  | consume
  | wake
  deriving DecidableEq, Repr

section Step

variable {T : Type u} [DecidableEq T] {D : Type v}

namespace State

def setThread (s : State T D) (t : T) (x : Caller D) : State T D :=
  { s with threads := Function.update s.threads t x }

def goto (s : State T D) (t : T) (pc : Pc D) : State T D :=
  s.setThread t { s.threads t with pc := pc }

/-- `queue_push` returns. -/
def ret (s : State T D) (t : T) (data : D) (r : Int) : State T D :=
  s.setThread t ⟨.idle, (s.threads t).returned ++ [(data, r)]⟩

def setCell (s : State T D) (a : Addr) (c : Option (Cell Addr D)) : State T D :=
  { s with heap := Function.update s.heap a c }

def fail (s : State T D) : State T D := { s with fault := true }

/-- `free` of a node. -/
def free (s : State T D) (a : Addr) : State T D :=
  if (s.heap a).isSome then s.setCell a none else s.fail

def setLock (s : State T D) (h : Option (Holder T)) : State T D :=
  { s with q := { s.q with lock := h } }

def popGoto (s : State T D) (pc : PopPc D) : State T D := { s with consumer := pc }

/-- `pthread_cond_signal`: the consumer, when it is blocked, goes on to take the lock again. -/
def signal (s : State T D) : State T D :=
  match s.consumer with
  | .blocked => s.popGoto .relock
  | _ => s

end State

/-- A statement of `queue_push` or `queue_terminate`. -/
def callerStep (s : State T D) (t : T) (new : Option Addr) : Option (State T D) :=
  match (s.threads t).pc with
  | .idle => none
  | .malloc d =>
    match new with
    | none => some (s.ret t d 1)
    | some a =>
      if s.heap a = none then some ((s.setCell a (some ⟨none, d⟩)).goto t (.lock a d)) else none
  | .lock a d =>
    if s.q.lock = none then some ((s.setLock (some (.caller t))).goto t (.test a d)) else none
  | .test a d => if s.q.terminate then some (s.goto t (.reject a d)) else some (s.goto t (.link a d))
  -- the lock is not released here
  | .reject a d => some ((s.free a).ret t d (-1))
  | .link a d =>
    match s.q.last with
    | none => some (s.goto t (.setLast a d))
    | some l =>
      match s.heap l with
      | none => some s.fail
      | some c => some ((s.setCell l (some { c with next := some a })).goto t (.setLast a d))
  | .setLast a d => some ({ s with q := { s.q with last := some a } }.goto t (.setFirst a d))
  | .setFirst a d =>
    if s.q.first = none then
      some ({ s with q := { s.q with first := some a } }.goto t (.count a d))
    else some (s.goto t (.count a d))
  | .count _ d =>
    some ({ s with
      q := { s.q with nElements := s.q.nElements + 1 }
      accepted := s.accepted ++ [(t, d)] }.goto t (.unlock d))
  | .unlock d => some ((s.setLock none).goto t (.signal d))
  | .signal d => some (s.signal.ret t d 0)
  | .lockTerminate =>
    if s.q.lock = none then some ((s.setLock (some (.caller t))).goto t .setTerminate) else none
  | .setTerminate => some ({ s with q := { s.q with terminate := true } }.goto t .unlockTerminate)
  | .unlockTerminate => some ((s.setLock none).goto t .signalTerminate)
  | .signalTerminate => some (s.signal.goto t .idle)

/-- A statement of `queue_pop`. -/
def popStep (s : State T D) : Option (State T D) :=
  match s.consumer with
  | .lock | .relock =>
    if s.q.lock = none then some ((s.setLock (some .consumer)).popGoto .guard) else none
  | .guard =>
    if s.q.nElements = 0 ∧ s.q.terminate = false then some ((s.setLock none).popGoto .blocked)
    else some (s.popGoto .exitTest)
  | .exitTest =>
    if s.q.nElements = 0 ∧ s.q.terminate = true then some (s.popGoto .unlockNull)
    else some (s.popGoto .take)
  | .unlockNull => some ((s.setLock none).popGoto .ended)
  | .take =>
    match s.q.first with
    | none => some s.fail
    | some aux => some (s.popGoto (.advance aux))
  | .advance aux =>
    match s.q.first.bind s.heap with
    | none => some s.fail
    | some c => some ({ s with q := { s.q with first := c.next } }.popGoto (.fixLast aux))
  | .fixLast aux =>
    if some aux = s.q.last then
      match s.heap aux with
      | none => some s.fail
      | some c => some ({ s with q := { s.q with last := c.next } }.popGoto (.count aux))
    else some (s.popGoto (.count aux))
  | .count aux =>
    some ({ s with q := { s.q with nElements := s.q.nElements - 1 } }.popGoto (.unlock aux))
  | .unlock aux => some ((s.setLock none).popGoto (.read aux))
  | .read aux =>
    match s.heap aux with
    | none => some s.fail
    | some c => some (s.popGoto (.free aux c.data))
  | .free aux d => some ({ s.free aux with popped := s.popped ++ [d] }.popGoto .outside)
  | .outside | .blocked | .ended => none

def step (s : State T D) : Label T D → Option (State T D)
  | .push t d =>
    match (s.threads t).pc with
    | .idle => some (s.goto t (.malloc d))
    | _ => none
  | .terminate t =>
    match (s.threads t).pc with
    | .idle => some (s.goto t .lockTerminate)
    | _ => none
  | .next t new => callerStep s t new
  | .pop =>
    match s.consumer with
    | .outside => some (s.popGoto .lock)
    | _ => none
  | .consume => popStep s
  -- pthread_cond_wait may return without a signal
  | .wake =>
    match s.consumer with
    | .blocked => some (s.popGoto .relock)
    | _ => none

/-- `queue_create`, and threads that may call `queue_push` and `queue_terminate` at any moment. -/
def queueSystem (T : Type u) [DecidableEq T] (D : Type v) : System (State T D) (Label T D) where
  init :=
    { q := ⟨none, none, none, 0, false⟩
      heap := fun _ => none
      threads := fun _ => ⟨.idle, []⟩
      consumer := .outside
      fault := false
      accepted := []
      popped := [] }
  step := step

end Step

end DistributedClipboard.Thread.Queue
