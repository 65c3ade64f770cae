/- module: DistributedClipboard/Mem/Threads
   source: src/src/mem/clmem.c
   layer: model
   digest: Threads inside the clipboard memory, one lock operation, field access or piece at a time. -/

import DistributedClipboard.Mem.Clmem
import DistributedClipboard.Thread.Rwlock

set_option autoImplicit false
set_option relaxedAutoImplicit false

namespace DistributedClipboard.Mem.Threads

open DistributedClipboard.Common
open DistributedClipboard.Lib.Linearizability
open DistributedClipboard.Lib.Transition
open DistributedClipboard.Mem.Clmem (Op Res Store storeSpec)
open DistributedClipboard.Thread.Rwlock

universe u

inductive Call
  | get (region : Int) (size : Nat)
  | put (region : Int) (data : List UInt8) (updateCond : Nat)
  | wait (region : Int) (size : Nat)
  | finish
  deriving DecidableEq, Repr

inductive Pc
  | idle
  | done (res : Res)
  -- mem_get, and mem_wait behind its loop
  | readSize | readSizeAgain | readData (cpSize : Nat)
  | copy (cpSize src : Nat) (buffer : List UInt8)
  -- mem_wait
  | saveCond | testCond (aux : Nat) | testTerminate (aux : Nat) | testExit
  -- mem_put
  | malloc | fill (memCpy : Nat) | testNull (memCpy : Nat) | compare (memCpy : Nat)
  | rejected (memCpy : Nat) | freeOld (memCpy : Nat)
  | setData (memCpy : Nat) | setSize (memCpy : Nat) | setCond (memCpy : Nat)
  -- mem_finish
  | setTerminate | finishTest | finishFree | finishNull | nextZone
  deriving DecidableEq, Repr

structure Thread where
  region : Region
  size : Nat
  data : List UInt8
  updateCond : Nat
  pc : Pc
  pos : Pos
  deriving DecidableEq, Repr

structure LockedZone (T : Type u) where
  data : Option Nat
  size : Nat
  updateCond : Nat
  terminate : Bool
  lock : RwLock T

inductive Owner (T : Type u)
  | caller (t : T)
  | zone (r : Region)

/-- A live heap block. The owner is a ghost: the call that allocated it or the zone it is in. -/
structure Block (T : Type u) where
  bytes : List UInt8
  owner : Owner T

/-- `fault` is set by a read or a free of a block that is not live, or a read past its end.
`recorder` and `leaked` are ghosts: the history of the calls of `mem_get` and `mem_put`, and how
often `mem_wait` has left a region through its `return 0` behind the loop. -/
structure State (T : Type u) where
  zones : Region → LockedZone T
  heap : Nat → Option (Block T)
  brk : Nat
  threads : T → Thread
  fault : Bool
  recorder : Recorder T Op Res
  leaked : Region → Nat

section Step

variable {T : Type u} [DecidableEq T]

namespace State

def setThread (s : State T) (t : T) (th : Thread) : State T :=
  { s with threads := Function.update s.threads t th }

def setZone (s : State T) (r : Region) (z : LockedZone T) : State T :=
  { s with zones := Function.update s.zones r z }

def setBlock (s : State T) (a : Nat) (b : Option (Block T)) : State T :=
  { s with heap := Function.update s.heap a b }

def goto (s : State T) (t : T) (pc : Pc) : State T := s.setThread t { s.threads t with pc := pc }

def callLock (s : State T) (t : T) (pc : Pc) (pos : Pos) : State T :=
  s.setThread t { s.threads t with pc := pc, pos := pos }

def decide (s : State T) (t : T) (r : Res) : State T :=
  { s with recorder := s.recorder.decide t r }

def fail (s : State T) : State T := { s with fault := true }

/-- `free` of a block. -/
def free (s : State T) (a : Nat) : State T :=
  if (s.heap a).isSome then s.setBlock a none else s.fail

/-- The end of a read: the result is complete and `rw_lock_runlock` is called. -/
def finishRead (s : State T) (t : T) (buffer : List UInt8) : State T :=
  (s.callLock t (.done (.bytes buffer)) .runlockLock).decide t (.bytes buffer)

/-- `cp_size` is known: there is something to copy or not. -/
def startCopy (s : State T) (t : T) (cpSize : Nat) : State T :=
  if cpSize = 0 then s.finishRead t [] else s.goto t (.readData cpSize)

end State

open State

def opStep (s : State T) (t : T) (k : Nat) : Option (State T) :=
  let th := s.threads t
  let z := s.zones th.region
  match th.pc with
  | .idle => none
  | .done res => some { s.goto t .idle with recorder := s.recorder.respond t res }
  -- mem_get: cp_size = MIN(size,zones[region].size) reads the field once or twice
  | .readSize => if z.size < th.size then some (s.goto t .readSizeAgain)
      else some (s.startCopy t th.size)
  | .readSizeAgain => some (s.startCopy t z.size)
  | .readData cpSize => match z.data with
      | some src => some (s.goto t (.copy cpSize src []))
      | none => some s.fail
  | .copy cpSize src buffer =>
      if buffer.length = cpSize then some (s.finishRead t buffer)
      else match s.heap src with
        | some b =>
          let n := min (k + 1) (cpSize - buffer.length)
          if buffer.length + n ≤ b.bytes.length then
            some (s.goto t (.copy cpSize src (buffer ++ (b.bytes.drop buffer.length).take n)))
          else some s.fail
        | none => some s.fail
  -- mem_wait
  | .saveCond => some (s.goto t (.testCond z.updateCond))
  | .testCond aux => if aux = z.updateCond then some (s.goto t (.testTerminate aux))
      else some (s.goto t .testExit)
  | .testTerminate aux => if z.terminate then some (s.goto t .testExit)
      else some (s.callLock t (.testCond aux) .waitRelease)
  | .testExit =>
      -- return 0 without rw_lock_runlock
      if z.terminate then
        some { s.callLock t (.done (.bytes [])) .out with
          leaked := Function.update s.leaked th.region (s.leaked th.region + 1) }
      else some (s.goto t .readSize)
  -- mem_put
  | .malloc => some { (s.setBlock s.brk (some ⟨[], .caller t⟩)).goto t (.fill s.brk) with
      brk := s.brk + 1 }
  | .fill memCpy => match s.heap memCpy with
      | some b =>
        if b.bytes.length = th.data.length then some (s.callLock t (.testNull memCpy) .wlockWait)
        else
          let n := min (k + 1) (th.data.length - b.bytes.length)
          some (s.setBlock memCpy
            (some { b with bytes := b.bytes ++ (th.data.drop b.bytes.length).take n }))
      | none => some s.fail
  | .testNull memCpy => if z.data.isSome then some (s.goto t (.compare memCpy))
      else some (s.goto t (.setData memCpy))
  | .compare memCpy =>
      if th.updateCond < z.updateCond then
        some ((s.callLock t (.rejected memCpy) .wunlockPost).decide t (.count 0))
      else some (s.goto t (.freeOld memCpy))
  | .rejected memCpy => some ((s.free memCpy).goto t (.done (.count 0)))
  | .freeOld memCpy => match z.data with
      | some old => some ((s.free old).goto t (.setData memCpy))
      | none => some (s.goto t (.setData memCpy))
  | .setData memCpy =>
      some (((s.setZone th.region { z with data := some memCpy }).setBlock memCpy
        ((s.heap memCpy).map fun b => { b with owner := .zone th.region })).goto t (.setSize memCpy))
  | .setSize memCpy =>
      some ((s.setZone th.region { z with size := th.data.length }).goto t (.setCond memCpy))
  | .setCond _ =>
      some (((s.setZone th.region { z with updateCond := th.updateCond }).callLock t
        (.done (.count th.data.length)) .wunlockPost).decide t (.count th.data.length))
  -- mem_finish
  | .setTerminate => some ((s.setZone th.region { z with terminate := true }).goto t .finishTest)
  | .finishTest => if z.data.isSome then some (s.goto t .finishFree) else some (s.goto t .finishNull)
  | .finishFree => match z.data with
      | some old => some ((s.free old).goto t .finishNull)
      | none => some (s.goto t .finishNull)
  | .finishNull =>
      some ((s.setZone th.region { z with data := none }).callLock t .nextZone .wunlockPost)
  | .nextZone =>
      if h : th.region.val + 1 < nRegions then
        some (s.setThread t { th with
          region := ⟨th.region.val + 1, h⟩, pc := .setTerminate, pos := .wlockWait })
      else some (s.goto t (.done (.count 0)))

def begin (s : State T) (t : T) : Call → State T
  | .get region size =>
    let s' := { s with recorder := s.recorder.invoke t (.get region size) }
    match regionOf region with
    | none => (s'.goto t (.done (.bytes []))).decide t (.bytes [])
    | some r => s'.setThread t ⟨r, size, [], 0, .readSize, .rlockLock⟩
  | .put region data stamp =>
    let s' := { s with recorder := s.recorder.invoke t (.put region data stamp) }
    match regionOf region with
    | none => (s'.goto t (.done (.count 0))).decide t (.count 0)
    | some r =>
      if data.length = 0 then (s'.goto t (.done (.count 0))).decide t (.count 0)
      else s'.setThread t ⟨r, data.length, data, stamp, .malloc, .out⟩
  | .wait region size =>
    match regionOf region with
    | none => s.goto t (.done (.bytes []))
    | some r => s.setThread t ⟨r, size, [], 0, .saveCond, .rlockLock⟩
  | .finish => s.setThread t ⟨firstRegion, 0, [], 0, .setTerminate, .wlockWait⟩

inductive Label (T : Type u)
  | call (t : T) (c : Call)
  | step (t : T) (k : Nat)

def Label.thread : Label T → T
  | .call t _ | .step t _ => t

def memStep (s : State T) : Label T → Option (State T)
  | .call t c => if (s.threads t).pc = .idle then some (begin s t c) else none
  | .step t k =>
    let th := s.threads t
    if th.pos.inLock then
      (rwStep (s.zones th.region).lock t th.pos).map fun r =>
        (s.setZone th.region { s.zones th.region with lock := r.1 }).setThread t
          { th with pos := r.2 }
    else opStep s t k

/-- The memory after `mem_init` and any number of threads that call it. -/
def memSystem (T : Type u) [DecidableEq T] : System (State T) (Label T) where
  init :=
    { zones := fun _ => ⟨none, 0, 0, false, rwLockInit⟩
      heap := fun _ => none
      brk := 0
      threads := fun _ => ⟨firstRegion, 0, [], 0, .idle, .out⟩
      fault := false
      recorder := .empty
      leaked := fun _ => 0 }
  step := memStep

end Step

end DistributedClipboard.Mem.Threads
