/- module: DistributedClipboard/Interfaces/Tables
   source: src/src/interfaces/clipif.c, src/src/interfaces/appif.c
   layer: model
   digest: The connection tables of both interfaces, their threads and the kernel's descriptors. -/

import DistributedClipboard.Common
import DistributedClipboard.Lib.Transition
import Mathlib.Logic.Function.Basic

set_option autoImplicit false
set_option relaxedAutoImplicit false

namespace DistributedClipboard.Interfaces.Tables

open DistributedClipboard.Common
open DistributedClipboard.Lib.Transition

/-- A descriptor of a connection; 0 is a free slot. -/
abbrev Fd := Nat

/-- The connections accepted by each interface, numbered in the order of their `accept`. -/
inductive Conn
  | clip (k : Nat)
  | app (k : Nat)
  deriving DecidableEq, Repr

abbrev Kernel := Fd → Option Conn

/-- `broadcast_t`. The origin is a ghost: the connection the packet arrived on, `none` for the
packets of `clipif_clock_man`. -/
structure Broadcast where
  fromFd : Int
  origin : Option Conn
  deriving DecidableEq, Repr

/-- A connection that `accept` has returned. -/
structure Accepted where
  fd : Fd
  conn : Nat
  deriving DecidableEq, Repr

abbrev Slot := Fin maxClipboards
abbrev AppSlot := Fin maxApps

inductive ClipThread
  | listener
  | broadcaster
  | slave (k : Nat)
  deriving DecidableEq, Repr

/-- `connection_t` of clipif.c. `owner` is a ghost: the connection registered in the slot. -/
structure ClipConnection where
  sockFd : Fd
  lock : Option ClipThread
  owner : Option Nat

/-- The statement `clipif_listen` executes next. -/
inductive ClipListen
  | accept
  | lock (a : Option Accepted)
  | check (a : Option Accepted)
  | reject (a : Accepted)
  | hello (a : Accepted)
  | trylock (a : Accepted) (i : Nat)
  | test (a : Accepted) (i : Slot)
  | release (a : Accepted) (i : Slot)
  | zombie (a : Accepted)
  | count (a : Accepted) (i : Slot)
  | store (a : Accepted) (i : Slot)
  | unlockSlot (a : Accepted) (i : Slot)
  | create (a : Accepted) (i : Slot)
  | unlock
  deriving DecidableEq, Repr

/-- The statement `clipif_slave`, or `clipif_close_conn` at its end, executes next. -/
inductive SlavePc
  | unborn | start | running
  | lock | lockSlot | take | clear | unlockSlot | close | parent | count | unlock
  | finished
  deriving DecidableEq, Repr

/-- `sock` is the slave's variable, `sock_` the one of its `clipif_close_conn`. -/
structure Slave where
  index : Slot
  sock : Fd
  sock_ : Fd
  pc : SlavePc
  deriving DecidableEq, Repr

/-- One turn of `clipif_broadcast`: the packet and, as ghosts, what was registered when it was
dequeued, the connections that were in the slots passed, and those it was sent to. -/
structure Round where
  msg : Broadcast
  present : Slot → Option Nat
  passed : List Nat
  sent : List Nat

inductive BroadcastPc
  | pop
  | lockSlot (r : Round) (i : Nat)
  | test (r : Round) (i : Slot)
  | send (r : Round) (i : Slot)
  | unlockSlot (r : Round) (i : Slot)

/-- `distributed_interface` and the threads that use it. `jammed` is a ghost: the listener has gone
on to its next `accept` without unlocking the interface. -/
structure Clip where
  connections : Slot → ClipConnection
  nConnections : Int
  parentSock : Int
  lock : Option ClipThread
  listen : ClipListen
  accepted : Nat
  jammed : Bool
  slaves : Nat → Slave
  broadcast : BroadcastPc

inductive AppThread
  | listener
  | slave (k : Nat)
  deriving DecidableEq, Repr

/-- `connection_t` of appif.c. -/
structure AppConnection where
  sockFd : Fd
  owner : Option Nat

/-- The statement `appif_listen` executes next. -/
inductive AppListen
  | accept
  | lock (a : Option Accepted)
  | check (a : Option Accepted)
  | reject (a : Accepted)
  | search (a : Accepted) (i : Nat)
  | zombie (a : Accepted)
  | count (a : Accepted) (i : AppSlot)
  | store (a : Accepted) (i : AppSlot)
  | create (a : Accepted) (i : AppSlot)
  | unlock
  deriving DecidableEq, Repr

/-- The statement `appif_slave`, or `appif_close_conn` at its end, executes next. -/
inductive AppSlavePc
  | unborn | start | running
  | lock | count | take | close | clear | unlock
  | finished
  deriving DecidableEq, Repr

structure AppSlave where
  index : AppSlot
  sock : Fd
  sock_ : Fd
  pc : AppSlavePc
  deriving DecidableEq, Repr

/-- `application_interface` and the threads that use it. -/
structure App where
  connections : AppSlot → AppConnection
  nConnections : Int
  lock : Option AppThread
  listen : AppListen
  accepted : Nat
  slaves : Nat → AppSlave

structure State where
  kernel : Kernel
  queue : List Broadcast
  clip : Clip
  app : App

inductive SlaveAct
  | next
  | packet
  | leave
  deriving DecidableEq, Repr

inductive Label
  | clipAccept (fd : Option Fd)
  | clipListen (greeted : Bool)
  | clipSlave (k : Nat) (act : SlaveAct)
  | broadcast
  | clock
  | appAccept (fd : Option Fd)
  | appListen
  | appSlave (k : Nat) (act : SlaveAct)
  deriving DecidableEq, Repr

namespace Clip

def setSlot (c : Clip) (i : Slot) (x : ClipConnection) : Clip :=
  { c with connections := Function.update c.connections i x }

def lockSlot (c : Clip) (i : Slot) (t : ClipThread) : Clip :=
  c.setSlot i { c.connections i with lock := some t }

def unlockSlot (c : Clip) (i : Slot) : Clip := c.setSlot i { c.connections i with lock := none }

def setSlave (c : Clip) (k : Nat) (x : Slave) : Clip :=
  { c with slaves := Function.update c.slaves k x }

def slaveGoto (c : Clip) (k : Nat) (pc : SlavePc) : Clip :=
  c.setSlave k { c.slaves k with pc := pc }

def listenGoto (c : Clip) (pc : ClipListen) : Clip := { c with listen := pc }

def broadcastGoto (c : Clip) (pc : BroadcastPc) : Clip := { c with broadcast := pc }

end Clip

def closeFd (kernel : Kernel) (fd : Fd) : Kernel := Function.update kernel fd none

/-- `clipif_listen` after its `accept`; `greeted` is whether the hello packet could be sent. -/
def clipListenStep (kernel : Kernel) (c : Clip) (greeted : Bool) : Option (Kernel × Clip) :=
  match c.listen with
  | .accept => none
  | .lock a =>
    if c.lock = none then some (kernel, { c.listenGoto (.check a) with lock := some .listener })
    else none
  | .check none => some (kernel, c.listenGoto .unlock)
  | .check (some a) =>
    if c.nConnections ≥ maxClipboards then some (kernel, c.listenGoto (.reject a))
    else some (kernel, c.listenGoto (.hello a))
  | .hello a =>
    if greeted then some (kernel, c.listenGoto (.trylock a 0))
    else some (kernel, c.listenGoto (.reject a))
  | .reject a => some (closeFd kernel a.fd, c.listenGoto .unlock)
  | .trylock a i =>
    if h : i < maxClipboards then
      if (c.connections ⟨i, h⟩).lock = none then
        some (kernel, (c.lockSlot ⟨i, h⟩ .listener).listenGoto (.test a ⟨i, h⟩))
      else some (kernel, c.listenGoto (.trylock a (i + 1)))
    else some (kernel, c.listenGoto (.zombie a))
  | .test a i =>
    if (c.connections i).sockFd = 0 then some (kernel, c.listenGoto (.count a i))
    else some (kernel, c.listenGoto (.release a i))
  | .release a i => some (kernel, (c.unlockSlot i).listenGoto (.trylock a (i.val + 1)))
  -- "This wont happen": the loop continues without unlocking the interface
  | .zombie a => some (closeFd kernel a.fd, { c.listenGoto .accept with jammed := true })
  | .count a i =>
    some (kernel, { c.listenGoto (.store a i) with nConnections := c.nConnections + 1 })
  | .store a i =>
    some (kernel, (c.setSlot i { c.connections i with
      sockFd := a.fd, owner := some a.conn }).listenGoto (.unlockSlot a i))
  | .unlockSlot a i => some (kernel, (c.unlockSlot i).listenGoto (.create a i))
  | .create a i => some (kernel, (c.setSlave a.conn ⟨i, 0, 0, .start⟩).listenGoto .unlock)
  | .unlock => some (kernel, { c.listenGoto .accept with lock := none })

/-- `clipif_slave` of connection `k`, with the packets it has queued. -/
def clipSlaveStep (kernel : Kernel) (c : Clip) (k : Nat) (act : SlaveAct) :
    Option (Kernel × Clip × List Broadcast) :=
  let x := c.slaves k
  match x.pc, act with
  | .start, .next =>
    some (kernel, c.setSlave k { x with sock := (c.connections x.index).sockFd, pc := .running }, [])
  | .running, .packet => some (kernel, c, [⟨x.sock, some (.clip k)⟩])
  | .running, .leave => some (kernel, c.slaveGoto k .lock, [])
  | .lock, .next =>
    if c.lock = none then
      some (kernel, { c.slaveGoto k .lockSlot with lock := some (.slave k) }, [])
    else none
  | .lockSlot, .next =>
    if (c.connections x.index).lock = none then
      some (kernel, (c.lockSlot x.index (.slave k)).slaveGoto k .take, [])
    else none
  | .take, .next =>
    some (kernel, c.setSlave k { x with sock_ := (c.connections x.index).sockFd, pc := .clear }, [])
  | .clear, .next =>
    some (kernel, (c.setSlot x.index
      { c.connections x.index with sockFd := 0, owner := none }).slaveGoto k .unlockSlot, [])
  | .unlockSlot, .next => some (kernel, (c.unlockSlot x.index).slaveGoto k .close, [])
  | .close, .next => some (closeFd kernel x.sock_, c.slaveGoto k .parent, [])
  | .parent, .next =>
    if c.parentSock = x.sock_ then
      some (kernel, { c.slaveGoto k .count with parentSock := -1 }, [])
    else some (kernel, c.slaveGoto k .count, [])
  | .count, .next =>
    some (kernel, { c.slaveGoto k .unlock with nConnections := c.nConnections - 1 }, [])
  | .unlock, .next => some (kernel, { c.slaveGoto k .finished with lock := none }, [])
  | _, _ => none

/-- `clipif_broadcast` with the queue it pops from. -/
def broadcastStep (c : Clip) (queue : List Broadcast) : Option (Clip × List Broadcast) :=
  match c.broadcast with
  | .pop =>
    match queue with
    | [] => none
    | m :: rest =>
      let r : Round := ⟨m, fun i => (c.connections i).owner, [], []⟩
      some (c.broadcastGoto (.lockSlot r 0), rest)
  | .lockSlot r i =>
    if h : i < maxClipboards then
      if (c.connections ⟨i, h⟩).lock = none then
        some ((c.lockSlot ⟨i, h⟩ .broadcaster).broadcastGoto (.test r ⟨i, h⟩), queue)
      else none
    else some (c.broadcastGoto .pop, queue)
  | .test r i =>
    if 0 < (c.connections i).sockFd ∧ ((c.connections i).sockFd : Int) ≠ r.msg.fromFd then
      some (c.broadcastGoto (.send r i), queue)
    else some (c.broadcastGoto (.unlockSlot r i), queue)
  | .send r i =>
    let r' := { r with sent := (c.connections i).owner.toList ++ r.sent }
    some (c.broadcastGoto (.unlockSlot r' i), queue)
  | .unlockSlot r i =>
    let r' := { r with passed := (c.connections i).owner.toList ++ r.passed }
    some ((c.unlockSlot i).broadcastGoto (.lockSlot r' (i.val + 1)), queue)

namespace App

def setSlot (p : App) (i : AppSlot) (x : AppConnection) : App :=
  { p with connections := Function.update p.connections i x }

def setSlave (p : App) (k : Nat) (x : AppSlave) : App :=
  { p with slaves := Function.update p.slaves k x }

def slaveGoto (p : App) (k : Nat) (pc : AppSlavePc) : App :=
  p.setSlave k { p.slaves k with pc := pc }

def listenGoto (p : App) (pc : AppListen) : App := { p with listen := pc }

end App

/-- `appif_listen` after its `accept`. -/
def appListenStep (kernel : Kernel) (p : App) : Option (Kernel × App) :=
  match p.listen with
  | .accept => none
  | .lock a =>
    if p.lock = none then some (kernel, { p.listenGoto (.check a) with lock := some .listener })
    else none
  | .check none => some (kernel, p.listenGoto .unlock)
  | .check (some a) =>
    if p.nConnections ≥ maxApps then some (kernel, p.listenGoto (.reject a))
    else some (kernel, p.listenGoto (.search a 0))
  | .reject a => some (closeFd kernel a.fd, p.listenGoto .unlock)
  | .search a i =>
    if h : i < maxApps then
      if (p.connections ⟨i, h⟩).sockFd = 0 then some (kernel, p.listenGoto (.count a ⟨i, h⟩))
      else some (kernel, p.listenGoto (.search a (i + 1)))
    else some (kernel, p.listenGoto (.zombie a))
  -- the assertion has failed: the thread has returned
  | .zombie _ => none
  | .count a i =>
    some (kernel, { p.listenGoto (.store a i) with nConnections := p.nConnections + 1 })
  | .store a i => some (kernel, (p.setSlot i ⟨a.fd, some a.conn⟩).listenGoto (.create a i))
  | .create a i => some (kernel, (p.setSlave a.conn ⟨i, 0, 0, .start⟩).listenGoto .unlock)
  | .unlock => some (kernel, { p.listenGoto .accept with lock := none })

/-- `appif_slave` of connection `k`, with the packets it has queued. -/
def appSlaveStep (kernel : Kernel) (p : App) (k : Nat) (act : SlaveAct) :
    Option (Kernel × App × List Broadcast) :=
  let x := p.slaves k
  match x.pc, act with
  | .start, .next =>
    some (kernel, p.setSlave k { x with sock := (p.connections x.index).sockFd, pc := .running }, [])
  | .running, .packet => some (kernel, p, [⟨x.sock, some (.app k)⟩])
  | .running, .leave => some (kernel, p.slaveGoto k .lock, [])
  | .lock, .next =>
    if p.lock = none then
      some (kernel, { p.slaveGoto k .count with lock := some (.slave k) }, [])
    else none
  | .count, .next =>
    some (kernel, { p.slaveGoto k .take with nConnections := p.nConnections - 1 }, [])
  | .take, .next =>
    some (kernel, p.setSlave k { x with sock_ := (p.connections x.index).sockFd, pc := .close }, [])
  | .close, .next => some (closeFd kernel x.sock_, p.slaveGoto k .clear, [])
  | .clear, .next => some (kernel, (p.setSlot x.index ⟨0, none⟩).slaveGoto k .unlock, [])
  | .unlock, .next => some (kernel, { p.slaveGoto k .finished with lock := none }, [])
  | _, _ => none

def acceptFd (kernel : Kernel) (conn : Conn) : Option Fd → Option Kernel
  | none => some kernel
  | some fd => if 0 < fd ∧ kernel fd = none then some (Function.update kernel fd (some conn)) else none

def step (s : State) : Label → Option State
  | .clipAccept fd =>
    if s.clip.listen = .accept then
      (acceptFd s.kernel (.clip s.clip.accepted) fd).map fun kernel =>
        { s with
          kernel := kernel
          clip := { s.clip with
            accepted := s.clip.accepted + 1
            listen := .lock (fd.map fun fd => ⟨fd, s.clip.accepted⟩) } }
    else none
  | .clipListen greeted =>
    (clipListenStep s.kernel s.clip greeted).map fun r => { s with kernel := r.1, clip := r.2 }
  | .clipSlave k act =>
    (clipSlaveStep s.kernel s.clip k act).map fun r =>
      { s with kernel := r.1, clip := r.2.1, queue := s.queue ++ r.2.2 }
  | .broadcast =>
    (broadcastStep s.clip s.queue).map fun r => { s with clip := r.1, queue := r.2 }
  | .clock => if s.clip.parentSock = -1 then some { s with queue := s.queue ++ [⟨-1, none⟩] } else none
  | .appAccept fd =>
    if s.app.listen = .accept then
      (acceptFd s.kernel (.app s.app.accepted) fd).map fun kernel =>
        { s with
          kernel := kernel
          app := { s.app with
            accepted := s.app.accepted + 1
            listen := .lock (fd.map fun fd => ⟨fd, s.app.accepted⟩) } }
    else none
  | .appListen => (appListenStep s.kernel s.app).map fun r => { s with kernel := r.1, app := r.2 }
  | .appSlave k act =>
    (appSlaveStep s.kernel s.app k act).map fun r =>
      { s with kernel := r.1, app := r.2.1, queue := s.queue ++ r.2.2 }

/-- `clipif_init`: alone (0), or connected to a parent clipboard by a descriptor. -/
def clipInit (parent : Fd) : Clip where
  connections := fun i =>
    if parent ≠ 0 ∧ i = ⟨0, by decide⟩ then ⟨parent, none, some 0⟩ else ⟨0, none, none⟩
  nConnections := if parent = 0 then 0 else 1
  parentSock := if parent = 0 then -1 else parent
  lock := none
  listen := .accept
  accepted := 1
  jammed := false
  slaves := fun k =>
    ⟨⟨0, by decide⟩, 0, 0, if parent ≠ 0 ∧ k = 0 then .start else .unborn⟩
  broadcast := .pop

/-- `appif_init` -/
def appInit : App where
  connections := fun _ => ⟨0, none⟩
  nConnections := 0
  lock := none
  listen := .accept
  accepted := 0
  slaves := fun _ => ⟨⟨0, by decide⟩, 0, 0, .unborn⟩

/-- Both interfaces of a clipboard from their initialisation on, before any finalisation. -/
def tables (parent : Fd) : System State Label where
  init :=
    { kernel := fun fd => if parent ≠ 0 ∧ fd = parent then some (.clip 0) else none
      queue := []
      clip := clipInit parent
      app := appInit }
  step := step

end DistributedClipboard.Interfaces.Tables
