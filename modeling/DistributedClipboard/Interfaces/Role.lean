/- module: DistributedClipboard/Interfaces/Role
   source: src/src/interfaces/clipif.c
   layer: model
   digest: Root or child: the parent's descriptor, the clock threads and the end of both. -/

import DistributedClipboard.Interfaces.Tables

set_option autoImplicit false
set_option relaxedAutoImplicit false

namespace DistributedClipboard.Interfaces.Role

open DistributedClipboard.Interfaces.Tables (Fd SlavePc)
open DistributedClipboard.Lib.Transition

/-- The statement of its role section `clipif_finalize` executes next. -/
inductive Finalize
  | idle | lock | role
  | cancel
  | join (thread : Nat)
  | orphan
  | unlock
  | finished
  deriving DecidableEq, Repr

/-- `clipif_finalize` has locked the interface. -/
def Finalize.holds : Finalize → Bool
  | .role | .cancel | .join _ | .orphan | .unlock => true
  | _ => false

/-- The tables, the clock threads in the order of their creation, and `clipif_finalize`.
`withParent` is the variable of each slave, `none` before the slave has set it. -/
structure State where
  tables : Tables.State
  withParent : Nat → Option Bool
  clockThread : Option Nat
  created : Nat
  running : Nat → Bool
  cancelled : Nat → Bool
  finalize : Finalize

inductive Label
  | statement (a : Tables.Label)
  /-- A slave compares its descriptor with the parent's. -/
  | sample (k : Nat)
  /-- A clock thread queues its packet. -/
  | tick (thread : Nat)
  /-- A cancelled clock thread reaches a cancellation point. -/
  | expire (thread : Nat)
  | finalize
  deriving DecidableEq, Repr

/-- What has to wait until the slave has set `withParent`. -/
def early (s : State) : Tables.Label → Bool
  | .clipSlave k .packet => (s.withParent k).isNone
  | .clipSlave k .leave => (s.withParent k).isNone
  | .clock => true
  | _ => false

def creates (t : Tables.State) : Tables.Label → Bool
  | .clipSlave k .next =>
    (t.clip.slaves k).pc = .parent && t.clip.parentSock = (t.clip.slaves k).sock_
  | _ => false

def createClock (s : State) : State :=
  { s with
    clockThread := some s.created
    created := s.created + 1
    running := Function.update s.running s.created true }

def finalizeStep (s : State) : Option State :=
  match s.finalize with
  | .idle => some { s with finalize := .lock }
  | .lock => if s.tables.clip.lock = none then some { s with finalize := .role } else none
  | .role =>
    if s.tables.clip.parentSock = -1 then some { s with finalize := .cancel }
    else some { s with finalize := .orphan }
  | .cancel =>
    match s.clockThread with
    | some thread =>
      some { s with
        cancelled := Function.update s.cancelled thread true
        finalize := .join thread }
    | none => some { s with finalize := .unlock }
  | .join thread => if s.running thread then none else some { s with finalize := .unlock }
  | .orphan =>
    some { s with
      tables := { s.tables with clip := { s.tables.clip with parentSock := -1 } }
      finalize := .unlock }
  | .unlock => some { s with finalize := .finished }
  | .finished => none

def step (s : State) : Label → Option State
  | .statement a =>
    if early s a then none
    else (Tables.step s.tables a).bind fun t =>
      -- the mutex has one holder: a thread of the tables or `clipif_finalize`
      if s.finalize.holds ∧ t.clip.lock ≠ none then none
      else if creates s.tables a then some { createClock s with tables := t }
      else some { s with tables := t }
  | .sample k =>
    if (s.tables.clip.slaves k).pc = .running ∧ s.withParent k = none then
      let withParent := decide (((s.tables.clip.slaves k).sock : Int) = s.tables.clip.parentSock)
      some { s with withParent := Function.update s.withParent k (some withParent) }
    else none
  | .tick thread =>
    if s.running thread then
      some { s with tables := { s.tables with queue := s.tables.queue ++ [⟨-1, none⟩] } }
    else none
  | .expire thread =>
    if s.running thread ∧ s.cancelled thread then
      some { s with running := Function.update s.running thread false }
    else none
  | .finalize => finalizeStep s

/-- A clipboard from its initialisation on, alone (0) or with a parent. -/
def role (parent : Fd) : System State Label where
  init :=
    { tables := (Tables.tables parent).init
      withParent := fun _ => none
      clockThread := if parent = 0 then some 0 else none
      created := if parent = 0 then 1 else 0
      running := fun thread => decide (parent = 0 ∧ thread = 0)
      cancelled := fun _ => false
      finalize := .idle }
  step := step

end DistributedClipboard.Interfaces.Role
