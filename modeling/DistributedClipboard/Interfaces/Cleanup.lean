/- module: DistributedClipboard/Interfaces/Cleanup
   source: src/src/interfaces/clipif.c, src/src/interfaces/appif.c, src/src/common.h
   layer: model
   digest: The end of the slaves of an interface, by themselves or cancelled, and of the interface. -/

import DistributedClipboard.Lib.Discipline
import DistributedClipboard.Lib.Transition

set_option autoImplicit false
set_option relaxedAutoImplicit false

namespace DistributedClipboard.Interfaces.Cleanup

open DistributedClipboard.Lib.Discipline
open DistributedClipboard.Lib.Transition

universe u

inductive Interface
  | clipif
  | appif
  deriving DecidableEq, Repr

/-- The lock of the interface, the lock of each slave's slot and `print_lock`. -/
inductive Mutex (T : Type u)
  | interface
  | slot (t : T)
  | print
  deriving DecidableEq, Repr

inductive Effect
  /-- `pthread_detach` of the thread in the slot -/
  | detach
  /-- `sock_ = connections[index].sock_fd` -/
  | take
  /-- `connections[index].sock_fd = 0` -/
  | clear
  /-- `n_connections--` -/
  | count
  /-- the comparison with `parentSock`, and what follows when it holds -/
  | role
  /-- `close` -/
  | close
  /-- `pthread_cond_signal(&slaveFinished)` -/
  | signal
  /-- a call that writes a part of a message -/
  | output
  deriving DecidableEq, Repr

section Programs

variable {T : Type u}

abbrev Code (T : Type u) := List (Statement (Mutex T) Effect)

def showInfo (verbose : Bool) : Code T :=
  if verbose then
    [.lock .print, .act .output, .act .output, .act .output, .unlock .print]
  else []

def showWarning (verbose : Bool) : Code T :=
  if verbose then
    [.lock .print, .act .output, .act .output, .act .output, .act .output, .unlock .print]
  else []

def showError : Code T :=
  [.lock .print, .act .output, .act .output, .act .output, .unlock .print]

def closeFailed : Code T := [.lock .print] ++ showError ++ [.unlock .print]

/-- `clipif_close_conn`; `isParent` is the outcome of its comparison with `parentSock`. -/
def clipifCloseConn (verbose isParent : Bool) (t : T) : Code T :=
  [Statement.lock Mutex.interface, .lock (.slot t), .act Effect.detach, .act .take, .act .clear,
    .unlock (.slot t), .act .close, .act .role] ++ (if isParent then showInfo verbose else []) ++
  [Statement.act Effect.count] ++ showInfo verbose ++ [Statement.unlock Mutex.interface] ++
  showInfo verbose ++ [Statement.act Effect.signal]

def appifCloseConn (verbose : Bool) : Code T :=
  [Statement.lock Mutex.interface, .act Effect.detach, .act .count, .act .take] ++
  showInfo verbose ++ showInfo verbose ++
  [Statement.act Effect.close, .act .clear, .unlock Mutex.interface] ++ showInfo verbose ++
  [Statement.act Effect.signal]

def closeConn (i : Interface) (verbose isParent : Bool) (t : T) : Code T :=
  match i with
  | .clipif => clipifCloseConn verbose isParent t
  | .appif => appifCloseConn verbose

def touches : Statement (Mutex T) Effect → Bool
  | .lock .print | .unlock .print | .act .close | .act .output => false
  | _ => true

end Programs

inductive Phase (T : Type u)
  | unborn
  /-- It reads its variables from the interface. -/
  | start
  | enable
  /-- The first `recvData` of a turn. -/
  | recv
  | disable
  /-- The rest of the turn. -/
  | body
  /-- It has left its loop and shows a message; its cleanup handler is still pushed. -/
  | leaving (rest : Code T)
  /-- It executes `close_conn`, as its cleanup handler or after popping it. -/
  | closing (handler : Bool) (rest : Code T)
  | gone
  deriving DecidableEq, Repr

/-- A slave with its cancel state and a request for its cancellation. `called` is a ghost: how often
`close_conn` was begun. -/
structure Slave (T : Type u) where
  phase : Phase T
  enabled : Bool
  pending : Bool
  called : Nat

inductive Holder (T : Type u)
  | slave (t : T)
  | finalizer
  | other
  deriving DecidableEq, Repr

inductive Finalize
  | idle | cancelling
  | lock | test | wait | unlock
  | destroyCond | destroyLocks | free
  | finished
  deriving DecidableEq, Repr

/-- The ghosts `registered`, `counted`, `cleared` and `signalled` say which slaves have been given a
slot, have lowered `n_connections`, have cleared their slot and have signalled. `fault` is set when
a slave works on what the finalizer has destroyed or freed. -/
structure State (T : Type u) where
  slaves : T → Slave T
  holder : Mutex T → Option (Holder T)
  nConnections : Int
  finalize : Finalize
  registered : List T
  counted : List T
  cleared : T → Bool
  signalled : T → Bool
  fault : Bool

inductive Outcome
  | ok
  /-- `recvData` returns another positive size than it was asked for. -/
  | wrong
  | eof
  | error
  deriving DecidableEq, Repr

inductive Label (T : Type u)
  /-- The listener gives a connection a slot and starts its slave. -/
  | register (t : T)
  /-- `pthread_cancel` by the finalizer. -/
  | cancel (t : T)
  | next (t : T) (outcome : Outcome)
  /-- The slave pops its cleanup handler and calls `close_conn`. -/
  | call (t : T) (isParent : Bool)
  /-- The request acts: the slave runs its cleanup handler, if it is still pushed, and ends. -/
  | act (t : T) (isParent : Bool)
  | finalize
  /-- `pthread_cond_wait` returns without a signal. -/
  | wake
  /-- Some other thread locks or unlocks a mutex. -/
  | other (m : Mutex T) (lock : Bool)
  deriving DecidableEq, Repr

section Step

variable {T : Type u} [DecidableEq T] (i : Interface) (verbose : Bool)

namespace State

def setSlave (s : State T) (t : T) (x : Slave T) : State T :=
  { s with slaves := Function.update s.slaves t x }

def goto (s : State T) (t : T) (phase : Phase T) : State T :=
  s.setSlave t { s.slaves t with phase := phase }

def setHolder (s : State T) (m : Mutex T) (h : Option (Holder T)) : State T :=
  { s with holder := Function.update s.holder m h }

end State

def destroyed : Finalize → Statement (Mutex T) Effect → Bool
  | .destroyLocks, .act .signal => true
  | .free, .act .signal | .free, .lock .interface | .free, .lock (.slot _)
  | .free, .unlock .interface | .free, .unlock (.slot _) => true
  | .finished, x => touches x
  | _, _ => false

def effect (s : State T) (t : T) : Effect → State T
  | .clear => { s with cleared := Function.update s.cleared t true }
  | .count => { s with nConnections := s.nConnections - 1, counted := t :: s.counted }
  | .signal =>
    { s with
      signalled := Function.update s.signalled t true
      finalize := if s.finalize = .wait then .lock else s.finalize }
  | _ => s

def execute (s : State T) (t : T) (outcome : Outcome) :
    Code T → Option (State T × Code T)
  | [] => none
  | x :: rest =>
    let s := { s with fault := s.fault || destroyed s.finalize x }
    match x with
    | .lock m => if s.holder m = none then some (s.setHolder m (some (.slave t)), rest) else none
    | .unlock m => some (s.setHolder m none, rest)
    | .act .close =>
      match outcome with
      | .ok => some (s, rest)
      | .error => some (s, closeFailed ++ rest)
      | .wrong | .eof => none
    | .act e => some (effect s t e, rest)

def next (s : State T) (t : T) (outcome : Outcome) : Option (State T) :=
  let x := s.slaves t
  match x.phase with
  | .unborn => none
  | .start =>
    some { s.goto t .enable with fault := s.fault || decide (s.finalize = Finalize.finished) }
  | .enable => some (s.setSlave t { x with phase := .recv, enabled := true })
  | .recv =>
    match outcome with
    | .ok => some (s.goto t .disable)
    | .wrong => some (s.goto t .enable)
    | .eof => some (s.goto t (.leaving (showInfo verbose)))
    | .error => some (s.goto t (.leaving (showWarning verbose)))
  | .disable => some (s.setSlave t { x with phase := .body, enabled := false })
  | .body =>
    let s := { s with fault := s.fault || decide (s.finalize = Finalize.finished) }
    match outcome with
    | .ok | .wrong => some (s.goto t .enable)
    | .eof => some (s.goto t (.leaving (showInfo verbose)))
    | .error => some (s.goto t (.leaving (showWarning verbose)))
  | .leaving rest => (execute s t .ok rest).map fun r => r.1.goto t (.leaving r.2)
  | .closing handler rest =>
    match rest with
    | [] => some (s.goto t .gone)
    | _ => (execute s t outcome rest).map fun r => r.1.goto t (.closing handler r.2)
  | .gone => none

def atPoint : Phase T → Bool
  | .recv | .leaving (.act .output :: _) | .closing _ (.act .output :: _)
  | .closing _ (.act .close :: _) => true
  | _ => false

def cancelled (s : State T) (t : T) (isParent : Bool) : Option (State T) :=
  let x := s.slaves t
  if x.enabled ∧ x.pending ∧ atPoint x.phase then
    match x.phase with
    | .recv | .leaving _ =>
      some (s.setSlave t { x with
        phase := .closing true (closeConn i verbose isParent t), called := x.called + 1 })
    | .closing false _ => some (s.goto t .gone)
    | _ => none
  else none

def finalizeStep (s : State T) : Option (State T) :=
  match s.finalize with
  | .idle => some { s with finalize := .cancelling }
  | .cancelling => some { s with finalize := .lock }
  | .lock =>
    if s.holder .interface = none then
      some { s.setHolder .interface (some .finalizer) with finalize := .test }
    else none
  | .test =>
    if 0 < s.nConnections then some { s.setHolder .interface none with finalize := .wait }
    else some { s with finalize := .unlock }
  | .wait => none
  | .unlock => some { s.setHolder .interface none with finalize := .destroyCond }
  | .destroyCond => some { s with finalize := .destroyLocks }
  | .destroyLocks => some { s with finalize := .free }
  | .free => some { s with finalize := .finished }
  | .finished => none

def step (s : State T) : Label T → Option (State T)
  | .register t =>
    -- the listener has been joined before the interface is finalized
    if s.finalize = .idle ∧ (s.slaves t).phase = .unborn ∧ s.holder .interface = none then
      some { s.goto t .start with
        nConnections := s.nConnections + 1
        registered := t :: s.registered }
    else none
  | .cancel t =>
    if s.finalize = .cancelling then some (s.setSlave t { s.slaves t with pending := true })
    else none
  | .next t outcome => next verbose s t outcome
  | .call t isParent =>
    if (s.slaves t).phase = .leaving [] then
      some (s.setSlave t { s.slaves t with
        phase := .closing false (closeConn i verbose isParent t)
        called := (s.slaves t).called + 1 })
    else none
  | .act t isParent => cancelled i verbose s t isParent
  | .finalize => finalizeStep s
  | .wake => if s.finalize = .wait then some { s with finalize := .lock } else none
  | .other m true => if s.holder m = none then some (s.setHolder m (some .other)) else none
  | .other m false => if s.holder m = some .other then some (s.setHolder m none) else none

/-- The slaves `T` of an interface and its finalizer. -/
def cleanup : System (State T) (Label T) where
  init :=
    { slaves := fun _ => ⟨.unborn, true, false, 0⟩
      holder := fun _ => none
      nConnections := 0
      finalize := .idle
      registered := []
      counted := []
      cleared := fun _ => false
      signalled := fun _ => false
      fault := false }
  step := step i verbose

end Step

end DistributedClipboard.Interfaces.Cleanup
