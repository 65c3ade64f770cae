/- module: DistributedClipboard/Mem/Waiters
   source: src/src/mem/clmem.c, src/src/thread/rwlock.c
   layer: results
   digest: Waiting for an update against the puts that would bring it. -/

import DistributedClipboard.Mem.Progress
import DistributedClipboard.Mem.Shutdown

set_option autoImplicit false
set_option relaxedAutoImplicit false

namespace DistributedClipboard.Mem.Waiters

open DistributedClipboard.Common
open DistributedClipboard.Lib.Transition
open DistributedClipboard.Mem.LockView
open DistributedClipboard.Mem.Linearizable
open DistributedClipboard.Mem.Progress
open DistributedClipboard.Mem.Shutdown
open DistributedClipboard.Mem.Threads
open DistributedClipboard.Thread.Rwlock

universe u

/-- `mem_get`, `mem_put`, and `mem_wait` on a region there is. -/
def Scoped : Call → Prop
  | .get _ _ | .put _ _ _ => True
  | .wait region _ => (regionOf region).isSome = true
  | .finish => False

def noNewPut : Call → Prop
  | .get _ _ | .wait _ _ => True
  | .put _ _ _ | .finish => False

section

variable {T : Type u} [DecidableEq T] {s s' : State T} {t : T} {r : Region}

/-- A waiter is not counted while it is blocked and once when it is back, and a put that waits for
its lock can be completed. -/
structure WaitersAside (s : State T) : Prop where
  blocked : ∀ t, (s.threads t).pos = .waitBlocked →
    (s.zones (s.threads t).region).lock.readers t = 0
  completes : ∀ t memCpy, (s.threads t).pc = .testNull memCpy → (s.threads t).pos = .wlockWait →
    ∃ s', (memSystem T).Path (calls noNewPut) s s' ∧ (s'.threads t).pc = .idle
  returned : ∀ t aux, (s.threads t).pc = .testCond aux → (s.threads t).pos = .reading →
    (s.zones (s.threads t).region).lock.readers t = 1

/-- A put waits for the lock of a region. -/
def PutWaits (s : State T) (r : Region) (t : T) (memCpy : Nat) : Prop :=
  (s.threads t).region = r ∧ (s.threads t).pc = .testNull memCpy ∧ (s.threads t).pos = .wlockWait

variable [Fintype T]

theorem PutWaits.step {a : Label T} {memCpy : Nat} (h : PutWaits s r t memCpy)
    (starved : Starved s r) (fit : Fits s) (edge : memStep s a = some s') :
    PutWaits s' r t memCpy := by
  obtain ⟨region, pc, pos⟩ := h
  have taken : (s.zones r).lock.sem = 0 := starved.lock.sem
  have unmoved (same : s'.threads t = s.threads t) : PutWaits s' r t memCpy := by
    simp only [PutWaits, same]
    exact ⟨region, pc, pos⟩
  cases a with
  | call u c =>
    simp only [memStep, Option.ite_none_right_eq_some] at edge
    obtain ⟨idle, edge⟩ := edge
    cases edge
    obtain ⟨_, others, _, _⟩ := begin_effect idle (fit u) c
    refine unmoved (others t ?_)
    rintro rfl
    rw [idle] at pc
    cases pc
  | step u k =>
    have other : t ≠ u := by
      rintro rfl
      simp [memStep, pos, Pos.inLock, rwStep, region, taken] at edge
    simp only [memStep] at edge
    split at edge
    · obtain ⟨⟨l, p⟩, _, rfl⟩ := Option.map_eq_some_iff.mp edge
      exact unmoved (by simp [State.setThread, State.setZone, other])
    · rename_i outside
      obtain ⟨_, others, _, _⟩ := opStep_effect (fit u) (by simpa using outside) edge
      exact unmoved (others t other)

theorem put_starves {memCpy : Nat} (fit : Fits s) (starved : Starved s r)
    (h : PutWaits s r t memCpy) (path : (memSystem T).Path System.anyStep s s') :
    PutWaits s' r t memCpy := by
  have keep (s : State T) (a : Label T) (s' : State T)
      (good : Fits s ∧ Starved s r ∧ PutWaits s r t memCpy) (_ : System.anyStep s a)
      (edge : memStep s a = some s') : Fits s' ∧ Starved s' r ∧ PutWaits s' r t memCpy := by
    obtain ⟨fit, starved, put⟩ := good
    exact ⟨fits_step fit edge, starved.step fit edge, put.step starved fit edge⟩
  have start : Fits s ∧ Starved s r ∧ PutWaits s r t memCpy := ⟨fit, starved, h⟩
  exact (System.Path.invariant keep path start).2.2

end

section Alone

variable {T : Type u} [DecidableEq T]

/-- One caller of `mem_wait` in a memory that nobody else uses. -/
private def alone (t : T) (r : Region) (size : Nat) (l : RwLock T) (pc : Pc) (pos : Pos) :
    State T where
  zones := Function.update (memSystem T).init.zones r ⟨none, 0, 0, false, l⟩
  heap := fun _ => none
  brk := 0
  threads := Function.update (memSystem T).init.threads t ⟨r, size, [], 0, pc, pos⟩
  fault := false
  recorder := .empty
  leaked := fun _ => 0

variable {t : T} {r : Region} {size : Nat} {l l' : RwLock T} {pc pc' : Pc} {pos pos' : Pos}

private theorem alone_lock (inside : pos.inLock = true) (move : rwStep l t pos = some (l', pos')) :
    memStep (alone t r size l pc pos) (.step t 0) = some (alone t r size l' pc pos') := by
  simp [memStep, alone, inside, move, State.setThread, State.setZone]

private theorem alone_statement (out : pos.inLock = false)
    (next : opStep (alone t r size l pc pos) t 0 =
      some ((alone t r size l pc pos).callLock t pc' pos')) :
    memStep (alone t r size l pc pos) (.step t 0) = some (alone t r size l pc' pos') := by
  have here : ((alone t r size l pc pos).threads t).pos = pos := by simp [alone]
  simp only [memStep, here, out, Bool.false_eq_true, if_false, next]
  simp [State.callLock, alone, State.setThread]

private theorem alone_begins {region : Int} (valid : regionOf region = some r) :
    memStep (memSystem T).init (.call t (.wait region size)) =
      some (alone t r size rwLockInit .saveCond .rlockLock) := by
  simp [memStep, memSystem, begin, valid, alone, State.setThread]

/-- The lock after the increment of `mem_wait` and its `sem_wait`. -/
private def held (t : T) (holder : Option T) : RwLock T :=
  ⟨holder, 0, 1, Function.update (fun _ => 0) t 1⟩

theorem wait_counts {A : Call → Prop} {region : Int} (allowed : A (.wait region size))
    (valid : regionOf region = some r) :
    ∃ s, (memSystem T).Reach (calls A) s ∧ (s.threads t).pos = .waitBlocked ∧
      (s.zones (s.threads t).region).lock.readers t = 1 := by
  have lock {l l' : RwLock T} {pos pos' : Pos} {pc : Pc} (inside : pos.inLock = true)
      (move : rwStep l t pos = some (l', pos')) :
      (memSystem T).Path (calls A) (alone t r size l pc pos) (alone t r size l' pc pos') :=
    .single (a := .step t 0) trivial (alone_lock inside move)
  have statement {l : RwLock T} {pos pos' : Pos} {pc pc' : Pc} (out : pos.inLock = false)
      (next : opStep (alone t r size l pc pos) t 0 =
        some ((alone t r size l pc pos).callLock t pc' pos')) :
      (memSystem T).Path (calls A) (alone t r size l pc pos) (alone t r size l pc' pos') :=
    .single (a := .step t 0) trivial (alone_statement out next)
  refine ⟨alone t r size (held t none) (.testCond 0) .waitBlocked, ?_, ?_, ?_⟩
  · have begun : (memSystem T).Path (calls A) _ _ :=
      .single (a := .call t (.wait region size)) allowed (alone_begins valid)
    have counted : (memSystem T).Path (calls A) (alone t r size rwLockInit .saveCond .rlockLock)
        (alone t r size ⟨some t, 1, 1, Function.update (fun _ => 0) t 1⟩ .saveCond .rlockTest) :=
      System.Path.trans (lock rfl rfl) (lock rfl rfl)
    have reading : (memSystem T).Path (calls A)
        (alone t r size ⟨some t, 1, 1, Function.update (fun _ => 0) t 1⟩ .saveCond .rlockTest)
        (alone t r size (held t none) .saveCond .reading) :=
      System.Path.trans (lock rfl rfl) (System.Path.trans (lock rfl rfl) (lock rfl rfl))
    have saved : (memSystem T).Path (calls A) (alone t r size (held t none) .saveCond .reading)
        (alone t r size (held t none) (.testCond 0) .reading) :=
      statement rfl (by simp [opStep, alone, State.goto, State.callLock])
    have tested : (memSystem T).Path (calls A) (alone t r size (held t none) (.testCond 0) .reading)
        (alone t r size (held t none) (.testTerminate 0) .reading) :=
      statement rfl (by simp [opStep, alone, State.goto, State.callLock])
    have waiting : (memSystem T).Path (calls A)
        (alone t r size (held t none) (.testTerminate 0) .reading)
        (alone t r size (held t none) (.testCond 0) .waitRelease) :=
      statement rfl (by simp [opStep, alone])
    have blocked : (memSystem T).Path (calls A)
        (alone t r size (held t none) (.testCond 0) .waitRelease)
        (alone t r size (held t none) (.testCond 0) .waitBlocked) := lock rfl rfl
    exact begun.trans (counted.trans (reading.trans (saved.trans (tested.trans
      (waiting.trans blocked)))))
  · simp [alone]
  · simp [alone, held]

end Alone

section Results

variable {T : Type u} [Fintype T] [DecidableEq T] {s : State T} {t : T}

theorem starved_of_waiting (h : (memSystem T).Reach System.anyStep s)
    (waits : (s.threads t).pos.inWait = true) : Starved s (s.threads t).region := by
  rcases (reach_balanced_or_starved h).2 (s.threads t).region with balanced | starved
  · have := balanced.lock.noWait t
    simp [posAt, waits] at this
  · exact starved

theorem waitersAside_of_no_wait (inv : DataInv s) (fit : Fits s) (locks : LocksOk s) :
    WaitersAside s where
  blocked t pos := by
    have noWait := (locks (s.threads t).region).noWait t
    simp [posAt, pos, Pos.inWait] at noWait
  completes t memCpy _ _ := by
    obtain ⟨s', path, idle⟩ := all_return inv fit locks
    refine ⟨s', System.Path.mono (fun _ a only => ?_) path, idle t⟩
    cases a with
    | call _ _ => exact only.elim
    | step _ _ => trivial
  returned t aux pc _ := by
    have own := inv.caller t
    simp [Caller, CallerOk, pc] at own

/-- The lock's accounting lets waiters stand aside exactly when there are none. -/
theorem waitersAside_iff_no_wait [Nonempty T] (A : Call → Prop) (scope : ∀ c, A c → Scoped c) :
    (∀ s : State T, (memSystem T).Reach (calls A) s → WaitersAside s) ↔
      ∀ region size, ¬ A (.wait region size) := by
  constructor
  · intro aside region size allowed
    obtain ⟨r, valid⟩ := Option.isSome_iff_exists.mp (scope _ allowed)
    obtain ⟨s, reach, blocked, counted⟩ :=
      wait_counts (t := Classical.arbitrary T) allowed valid
    have := (aside s reach).blocked _ blocked
    omega
  · intro none s reach
    have only : (memSystem T).Reach getsAndPuts s := by
      refine reach.mono fun _ a allowed => ?_
      cases a with
      | step _ _ => trivial
      | call _ c =>
        cases c with
        | get _ _ | put _ _ _ => trivial
        | wait region size => exact none region size allowed
        | finish => exact scope _ allowed
    obtain ⟨inv, fit, locks⟩ := reach_inv only
    exact waitersAside_of_no_wait inv fit locks

end Results

theorem waitersAside_iff_no_wait_gets :
    (∀ s : State (Fin 2), (memSystem (Fin 2)).Reach (calls fun c => ∃ size, c = .get 0 size) s →
      WaitersAside s) ∧
    ¬ ∀ s : State (Fin 2), (memSystem (Fin 2)).Reach (calls fun c => ∃ size, c = .wait 0 size) s →
      WaitersAside s := by
  constructor
  · refine (waitersAside_iff_no_wait (fun c => ∃ size, c = .get 0 size) ?_).mpr (by simp)
    rintro _ ⟨size, rfl⟩
    trivial
  · intro aside
    refine (waitersAside_iff_no_wait (fun c => ∃ size, c = .wait 0 size) ?_).mp aside 0 4 ⟨4, rfl⟩
    rintro _ ⟨size, rfl⟩
    rfl

private def waitThenPut {T : Type u} (t u : T) : List (Label T) :=
  [Label.call t (.wait 0 4)] ++ List.replicate 9 (Label.step t 0) ++
    [Label.call u (.put 0 [1] 1)] ++ List.replicate 3 (Label.step u 0)

/-- The blocked waiter is counted, and the put waits for its lock in every continuation. -/
theorem waiter_shuts_put_out : ∃ s : State (Fin 2),
    (memSystem (Fin 2)).Reach (calls Scoped) s ∧ (s.threads 0).pos = .waitBlocked ∧
    (s.zones firstRegion).lock.readers 0 = 1 ∧ PutWaits s firstRegion 1 0 ∧
    ∀ s', (memSystem (Fin 2)).Path System.anyStep s s' → (s'.threads 1).pos = .wlockWait := by
  have reached : ∃ s : State (Fin 2), (memSystem (Fin 2)).Reach (calls Scoped) s ∧
      decide ((s.threads 0).region = firstRegion ∧ (s.threads 0).pos = .waitBlocked ∧
        (s.zones firstRegion).lock.readers 0 = 1 ∧ (s.threads 1).region = firstRegion ∧
        (s.threads 1).pc = .testNull 0 ∧ (s.threads 1).pos = .wlockWait) = true :=
    System.reach_of_run _ true (waitThenPut 0 1)
      (by
        simp only [waitThenPut, List.replicate, List.cons_append, List.nil_append, List.mem_cons,
          List.not_mem_nil, or_false, forall_eq_or_imp, forall_eq]
        exact ⟨fun _ => rfl, by simp [calls, Scoped]⟩) (by decide +kernel)
  obtain ⟨s, reach, seen⟩ := reached
  obtain ⟨region, blocked, counted, put⟩ := of_decide_eq_true seen
  have any : (memSystem (Fin 2)).Reach System.anyStep s := reach.mono fun _ _ _ => trivial
  have starved := starved_of_waiting (t := 0) any (by rw [blocked]; rfl)
  rw [region] at starved
  refine ⟨s, reach, blocked, counted, put, fun s' path => ?_⟩
  exact (put_starves (reach_balanced_or_starved any).1 starved put path).2.2

end DistributedClipboard.Mem.Waiters
