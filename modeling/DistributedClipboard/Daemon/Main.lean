/- module: DistributedClipboard/Daemon/Main
   source: src/src/clipboard.c, src/src/interfaces/clipif.c, src/src/interfaces/appif.c,
     src/src/common.h
   layer: model
   digest: The daemon from its start to its return, with every descriptor that it opens and closes. -/

import DistributedClipboard.Interfaces.Tables
import DistributedClipboard.Lib.Descriptors
import DistributedClipboard.Lib.Discipline
import DistributedClipboard.Utils.Packet

set_option autoImplicit false
set_option relaxedAutoImplicit false

namespace DistributedClipboard.Daemon.Main

open DistributedClipboard.Interfaces
open DistributedClipboard.Interfaces.Tables (Conn Fd Kernel closeFd)
open DistributedClipboard.Lib.Descriptors (Closing)
open DistributedClipboard.Lib.Discipline
open DistributedClipboard.Lib.Transition
open DistributedClipboard.Utils.Packet (packetSyncSize)

def ERR_NO_IP : Int := 1
def ERR_INVALID_IP : Int := 2
def ERR_NO_PORT : Int := 3
def ERR_INV_PORT : Int := 4
def ERR_CANT_CONNECT : Int := 5
def ERR_SOCKET : Int := 6
def ERR_BIND_SOCKET : Int := 7

/-- What a descriptor is open to: the sockets that clipboards and applications connect to, or a
connection. The connection to the parent is the first of the clipboards. -/
inductive Obj
  | clips
  | apps
  | conn (c : Conn)
  deriving DecidableEq, Repr

def parent : Obj := .conn (.clip 0)

/-- The variables of `main` that hold descriptors; `sock` is also the argument of `clipif_init`. -/
inductive Var
  | clipsSock
  | appsSock
  | sock
  deriving DecidableEq, Repr

def Var.object : Var → Obj
  | .clipsSock => .clips
  | .appsSock => .apps
  | .sock => parent

inductive Effect
  /-- a call that writes a part of a message -/
  | output
  | close (v : Var)
  deriving DecidableEq, Repr

/-- Statements of `main`; the mutex is `print_lock`. -/
abbrev Code := List (Statement Unit Effect)

def showError : Code :=
  [.lock (), .act .output, .act .output, .act .output, .unlock ()]

def showInfo (verbose : Bool) : Code :=
  if verbose then [.lock (), .act .output, .act .output, .act .output, .unlock ()] else []

def closeFailed : Code := [.lock ()] ++ showError ++ [.unlock ()]

/-- The call of `main`, or of `clipif_init`, that comes next. -/
inductive Pc
  | arguments
  | clipsSocket
  /-- `created`: the socket for clipboards is there. -/
  | appsSocket (created : Bool)
  | bindClips | bindApps
  | mode
  | parentSocket | connect
  | timeInit | clipifInit | hello
  | appifInit
  | printLock
  | serve
  | appifFinalize | clipifFinalize
  | leave (code : Int)
  deriving DecidableEq, Repr

inductive Mode
  | single
  | connected
  | noIp | invalidIp | noPort | invPort
  deriving DecidableEq, Repr

def Mode.error : Mode → Option Int
  | .single | .connected => none
  | .noIp => some ERR_NO_IP
  | .invalidIp => some ERR_INVALID_IP
  | .noPort => some ERR_NO_PORT
  | .invPort => some ERR_INV_PORT

inductive Result
  | ok
  | error (err : Int)
  | socket (fd : Option Fd)
  | mode (m : Mode)
  /-- `recvData` -/
  | received (err : Int)
  deriving DecidableEq, Repr

inductive Thread
  | clipListen
  | clipSlave (k : Nat)
  | appListen
  | appSlave (k : Nat)
  deriving DecidableEq, Repr

/-- Who has locked `print_lock`. A thread whose `close` has failed keeps it (`stuck`). -/
inductive Holder
  | main
  | stuck
  | other
  deriving DecidableEq, Repr

/-- `main` executes the statements of `todo` and then the call of `pc`. `sockets` are the
descriptors open to anything but the connections of `tables`; `started` is set when the threads of
the clipboards interface run, `stuck` for a thread whose `close` has failed. `failed` is a ghost: the error of an
interface's initialisation; `log` are all calls of `close` by `CLOSE`. -/
structure State where
  pc : Pc
  todo : Code
  clips : Fd
  apps : Fd
  sock : Fd
  sockets : Fd → Option Obj
  tables : Tables.State
  started : Bool
  print : Option Holder
  stuck : Thread → Bool
  failed : Option Int
  log : List (Closing Obj)

inductive Label
  /-- The next statement of `main`; `closes` is whether its `close` succeeds. -/
  | execute (closes : Bool)
  | call (r : Result)
  /-- A step of a thread of the interfaces; `closes` is whether its `close` succeeds. -/
  | table (a : Tables.Label) (closes : Bool)
  /-- A thread whose `close` has failed locks `print_lock`, and waits for it in `SHOW_ERROR`. -/
  | jam (t : Thread)
  /-- Some other thread locks or unlocks `print_lock`. -/
  | other (lock : Bool)
  deriving DecidableEq, Repr

namespace State

def denotes (s : State) (fd : Fd) : Option Obj :=
  match s.tables.kernel fd with
  | some c => some (.conn c)
  | none => s.sockets fd

def fd (s : State) : Var → Fd
  | .clipsSock => s.clips
  | .appsSock => s.apps
  | .sock => s.sock

def goto (s : State) (pc : Pc) : State := { s with pc := pc }

def leave (s : State) (code : Int) (todo : Code) : State :=
  { s with pc := .leave code, todo := todo }

/-- `clipif_init` or `appif_init` has failed. -/
def fail (s : State) (err : Int) (todo : Code) : State :=
  { s.leave err todo with failed := some err }

/-- What `main` has returned. -/
def returned (s : State) : Option Int :=
  match s.pc, s.todo with
  | .leave code, [] => some code
  | _, _ => none

def opens (s : State) (fd : Fd) (o : Obj) : State :=
  { s with sockets := Function.update s.sockets fd (some o) }

def close (s : State) (fd : Fd) (o : Obj) : State :=
  { s with
    sockets := Function.update s.sockets fd none
    tables := { s.tables with kernel := closeFd s.tables.kernel fd }
    log := s.log ++ [⟨o, s.denotes fd⟩] }

/-- A descriptor that `socket` or `accept` may return; 0 is the standard input. -/
def Free (s : State) (fd : Fd) : Prop := 0 < fd ∧ s.denotes fd = none

instance (s : State) (fd : Fd) : Decidable (s.Free fd) :=
  inferInstanceAs (Decidable (0 < fd ∧ s.denotes fd = none))

end State

/-- `CLOSE(clips_sock); CLOSE(apps_sock);` -/
def closeSockets : Code := [.act (.close .clipsSock), .act (.close .appsSock)]

/-- The same and `if(sock) CLOSE(sock);` -/
def closeAll (s : State) : Code :=
  closeSockets ++ if s.sock = 0 then [] else [.act (.close .sock)]

/-- `clipif_init` starts its threads. -/
def start (s : State) : State :=
  { s with
    tables := (Tables.tables s.sock).init
    sockets := if s.sock = 0 then s.sockets else Function.update s.sockets s.sock none
    started := true }

def appJoined : Tables.AppListen → Bool
  | .accept | .zombie _ => true
  | _ => false

/-- The next call, with what follows from its result. The messages of a success are left out. -/
def call (verbose : Bool) (s : State) (r : Result) : Option State :=
  match s.pc, r with
  | .arguments, .ok => some (s.goto .clipsSocket)
  | .arguments, .error _ => some (s.leave ERR_NO_PORT (showError ++ showInfo verbose))
  | .clipsSocket, .socket none => some (s.goto (.appsSocket false))
  | .clipsSocket, .socket (some fd) =>
    if s.Free fd then some { (s.opens fd .clips).goto (.appsSocket true) with clips := fd }
    else none
  | .appsSocket _, .socket none => some (s.leave ERR_SOCKET showError)
  | .appsSocket created, .socket (some fd) =>
    if s.Free fd then
      let s := { s.opens fd .apps with apps := fd }
      if created then some (s.goto .bindClips) else some (s.leave ERR_SOCKET showError)
    else none
  | .bindClips, .ok => some (s.goto .bindApps)
  | .bindClips, .error _ =>
    some (s.leave ERR_BIND_SOCKET (showError ++ [.act (.close .clipsSock)]))
  | .bindApps, .ok => some (s.goto .mode)
  | .bindApps, .error _ => some (s.leave ERR_BIND_SOCKET (showError ++ closeSockets))
  | .mode, .mode m =>
    match m.error with
    | some err => some (s.leave err (showError ++ closeSockets))
    | none => some (s.goto (if m = .connected then .parentSocket else .timeInit))
  | .parentSocket, .socket none => some (s.leave ERR_SOCKET (showError ++ closeSockets))
  | .parentSocket, .socket (some fd) =>
    if s.Free fd then some { (s.opens fd parent).goto .connect with sock := fd } else none
  | .connect, .ok => some (s.goto .timeInit)
  | .connect, .error _ => some (s.leave ERR_CANT_CONNECT (showError ++ closeSockets))
  | .timeInit, .ok => some (s.goto .clipifInit)
  | .timeInit, .error _ => some { s.goto .clipifInit with todo := showError }
  | .clipifInit, .ok =>
    if s.sock = 0 then some ((start s).goto .appifInit) else some (s.goto .hello)
  | .clipifInit, .error err =>
    if err = -1 ∨ err = -2 then some (s.fail err (showError ++ closeAll s)) else none
  | .hello, .received err =>
    if err < packetSyncSize then
      some (s.fail (-3) (showError ++ [.act (.close .sock)] ++ closeAll s))
    else some ((start s).goto .appifInit)
  | .appifInit, .ok => some (s.goto .printLock)
  | .appifInit, .error err =>
    if err = -1 then some (s.fail err (showError ++ closeAll s)) else none
  | .printLock, .ok => some { s.goto .serve with print := none }
  | .serve, .ok =>
    if s.tables.clip.listen = .accept ∧ appJoined s.tables.app.listen ∧
        s.stuck .clipListen = false ∧ s.stuck .appListen = false then
      some (s.goto .appifFinalize)
    else none
  | .appifFinalize, .ok =>
    if s.tables.app.lock = none ∧ s.tables.app.nConnections ≤ 0 then some (s.goto .clipifFinalize)
    else none
  | .clipifFinalize, .ok =>
    if s.tables.clip.lock = none ∧ s.tables.clip.nConnections ≤ 0 then
      some (s.leave 0 closeSockets)
    else none
  | _, _ => none

def execute (s : State) (x : Statement Unit Effect) (rest : Code) (closes : Bool) : Option State :=
  match x with
  | .lock _ =>
    if closes ∧ s.print = none then some { s with print := some .main, todo := rest } else none
  | .unlock _ => if closes then some { s with print := none, todo := rest } else none
  | .act .output => if closes then some { s with todo := rest } else none
  | .act (.close v) =>
    let t := s.close (s.fd v) v.object
    if closes then
      if s.denotes (s.fd v) = none then none else some { t with todo := rest }
    else some { t with todo := closeFailed ++ rest }

def closing (s : Tables.State) : Tables.Label → Option (Conn × Fd)
  | .clipListen _ =>
    match s.clip.listen with
    | .reject a | .zombie a => some (.clip a.conn, a.fd)
    | _ => none
  | .clipSlave k .next =>
    if (s.clip.slaves k).pc = .close then some (.clip k, (s.clip.slaves k).sock_) else none
  | .appListen =>
    match s.app.listen with
    | .reject a => some (.app a.conn, a.fd)
    | _ => none
  | .appSlave k .next =>
    if (s.app.slaves k).pc = .close then some (.app k, (s.app.slaves k).sock_) else none
  | _ => none

def thread : Tables.Label → Option Thread
  | .clipAccept _ | .clipListen _ => some .clipListen
  | .clipSlave k _ => some (.clipSlave k)
  | .appAccept _ | .appListen => some .appListen
  | .appSlave k _ => some (.appSlave k)
  | .broadcast | .clock => none

def admits (s : State) : Tables.Label → Prop
  | .clipAccept fd | .appAccept fd => s.pc = .serve ∧ ∀ f ∈ fd, s.sockets f = none
  | _ => True

instance (s : State) : (a : Tables.Label) → Decidable (admits s a)
  | .clipAccept fd | .appAccept fd =>
    inferInstanceAs (Decidable (s.pc = .serve ∧ ∀ f ∈ fd, s.sockets f = none))
  | .clipListen _ | .clipSlave _ _ | .broadcast | .clock | .appListen | .appSlave _ _ =>
    .isTrue trivial

def tableStep (s : State) (a : Tables.Label) (closes : Bool) : Option State :=
  if admits s a ∧ ∀ t ∈ thread a, s.stuck t = false then
    (Tables.step s.tables a).bind fun tables =>
      match closing s.tables a with
      | none => if closes then some { s with tables := tables } else none
      | some (c, fd) =>
        let log := s.log ++ [⟨.conn c, s.denotes fd⟩]
        let t := { s with
          tables := tables, sockets := Function.update s.sockets fd none, log := log }
        if closes then if s.denotes fd = none then none else some t
        else some { t with stuck := fun u => s.stuck u || decide (thread a = some u) }
  else none

def Threads (s : State) : Prop := s.started = true ∧ s.returned = none

instance (s : State) : Decidable (Threads s) :=
  inferInstanceAs (Decidable (s.started = true ∧ s.returned = none))

def step (verbose : Bool) (s : State) : Label → Option State
  | .execute closes =>
    match s.todo with
    | [] => none
    | x :: rest => execute s x rest closes
  | .call r => if s.todo = [] then call verbose s r else none
  | .table a closes => if Threads s then tableStep s a closes else none
  | .jam t =>
    if Threads s ∧ s.stuck t ∧ s.print = none then some { s with print := some .stuck } else none
  | .other true =>
    if Threads s ∧ s.print = none then some { s with print := some .other } else none
  | .other false =>
    if Threads s ∧ s.print = some .other then some { s with print := none } else none

/-- A process that runs `main`, and the threads that it starts. -/
def daemon (verbose : Bool) : System State Label where
  init :=
    { pc := .arguments
      todo := []
      clips := 0
      apps := 0
      sock := 0
      sockets := fun _ => none
      tables := (Tables.tables 0).init
      started := false
      print := none
      stuck := fun _ => false
      failed := none
      log := [] }
  step := step verbose

end DistributedClipboard.Daemon.Main
