/- module: DistributedClipboard/Mem/Shutdown
   source: src/src/mem/clmem.c
   layer: results
   digest: The locks of the regions once every caller has returned, with waiters and a shutdown. -/

import DistributedClipboard.Mem.LockView
import DistributedClipboard.Thread.Starvation

set_option autoImplicit false
set_option relaxedAutoImplicit false

namespace DistributedClipboard.Mem.Shutdown

open DistributedClipboard.Common
open DistributedClipboard.Lib.Counting
open DistributedClipboard.Lib.Transition
open DistributedClipboard.Mem.Clmem (Res)
open DistributedClipboard.Mem.LockView
open DistributedClipboard.Mem.Threads
open DistributedClipboard.Thread.Rwlock
open DistributedClipboard.Thread.Sections (writer_alone step_keeps_inv)
open DistributedClipboard.Thread.Starvation

universe u

/-- Threads make these calls only. -/
def calls {T : Type u} (A : Call → Prop) : State T → Label T → Prop
  | _, .call _ c => A c
  | _, .step _ _ => True

/-- The lock of the region is free, and `rw_lock_wlock` gets it. -/
def Free {T : Type u} [DecidableEq T] (s : State T) (r : Region) : Prop :=
  (s.zones r).lock.nReaders = 0 ∧ (s.zones r).lock.sem = 1 ∧
    ∀ t, (rwStep (s.zones r).lock t .wlockWait).isSome = true

section

variable {T : Type u} [DecidableEq T] {s s' : State T} {t u : T} {r : Region}

/-- The value of `update_cond` that a caller of `mem_wait` compares with, while it is in the loop. -/
def loopCond : Pc → Option Nat
  | .testCond aux | .testTerminate aux => some aux
  | _ => none

structure Waits (s : State T) (r : Region) (t : T) : Prop where
  region : (s.threads t).region = r
  cond : loopCond (s.threads t).pc = some (s.zones r).updateCond
  terminate : (s.zones r).terminate = false

private theorem counted_of_inWait {p : Pos} (h : p.inWait = true) : p.isCounted = true := by
  cases p <;> first | rfl | cases h

private theorem inWait_of_fn {p : Pos} (h : p.fn? = some .waitUpdate) : p.inWait = true := by
  cases p <;> first | rfl | cases h

theorem place_in_loop {th : Thread} {aux : Nat} (fit : fits th.pc th.pos = true)
    (cond : loopCond th.pc = some aux) : th.pos = .reading ∨ th.pos.inWait = true := by
  cases hpc : th.pc <;> rw [hpc] at cond fit <;>
    simp only [loopCond, reduceCtorEq, fits, decide_eq_true_eq] at cond fit
  case testCond => exact fit.imp_right inWait_of_fn
  case testTerminate => exact .inl fit

attribute [local simp] State.setThread State.setZone State.setBlock State.goto State.callLock
  State.decide State.fail State.finishRead

theorem zone_kept {k : Nat} (fit : fits (s.threads u).pc (s.threads u).pos = true)
    (out : (s.threads u).pos.inLock = false) (edge : opStep s u k = some s')
    (quiet : (s.threads u).region = r → (s.threads u).pos ≠ .writing) :
    (s'.zones r).updateCond = (s.zones r).updateCond ∧
      (s'.zones r).terminate = (s.zones r).terminate := by
  have none_inside : (s.threads u).pos.fn? = none := by
    cases hp : (s.threads u).pos <;> simp_all [Pos.inLock, Pos.fn?]
  unfold opStep at edge
  by_cases mine : r = (s.threads u).region
  · have notWriting := quiet mine.symm
    cases hpc : (s.threads u).pc <;> rw [hpc] at fit <;>
      simp only [fits, none_inside, notWriting, decide_eq_true_eq, reduceCtorEq, or_false] at fit <;>
      simp only [hpc, State.startCopy] at edge <;> (repeat' split at edge) <;> cases edge <;>
      first
        | exact ⟨rfl, rfl⟩
        | simp
  · cases hpc : (s.threads u).pc <;>
      simp only [hpc, State.startCopy] at edge <;> (repeat' split at edge) <;> cases edge <;>
      first
        | exact ⟨rfl, rfl⟩
        | simp [mine]

theorem lock_keeps (l : RwLock T) (p : Pos) (r : Region) (t : T) :
    let s' := (s.setZone (s.threads u).region
      { s.zones (s.threads u).region with lock := l }).setThread u { s.threads u with pos := p }
    (s'.threads t).region = (s.threads t).region ∧ (s'.threads t).pc = (s.threads t).pc ∧
      (s'.zones r).updateCond = (s.zones r).updateCond ∧
      (s'.zones r).terminate = (s.zones r).terminate := by
  refine ⟨?_, ?_, ?_, ?_⟩
  · by_cases eq : t = u
    · subst eq
      simp
    · simp [eq]
  · by_cases eq : t = u
    · subst eq
      simp
    · simp [eq]
  all_goals
    by_cases mine : r = (s.threads u).region
    · subst mine
      simp
    · simp [mine]

theorem Waits.step {a : Label T} (h : Waits s r t) (fit : Fits s)
    (noWriter : ∀ u, (posAt s r u).holdsWrite = false) (edge : memStep s a = some s') :
    Waits s' r t := by
  obtain ⟨region, cond, terminate⟩ := h
  cases a with
  | call u c =>
    simp only [memStep, Option.ite_none_right_eq_some] at edge
    obtain ⟨idle, edge⟩ := edge
    cases edge
    obtain ⟨zones, others, _, _⟩ := begin_effect idle (fit u) c
    have other : t ≠ u := by
      rintro rfl
      rw [idle] at cond
      cases cond
    refine ⟨?_, ?_, ?_⟩
    · rw [others t other, region]
    · rw [others t other, zones, cond]
    · rw [zones, terminate]
  | step u k =>
    simp only [memStep] at edge
    split at edge
    · obtain ⟨⟨l, p⟩, _, rfl⟩ := Option.map_eq_some_iff.mp edge
      obtain ⟨sameRegion, samePc, sameCond, sameTerminate⟩ := lock_keeps (s := s) (u := u) l p r t
      refine ⟨?_, ?_, ?_⟩
      · rw [sameRegion, region]
      · rw [samePc, sameCond, cond]
      · rw [sameTerminate, terminate]
    · rename_i outside
      have out : (s.threads u).pos.inLock = false := by simpa using outside
      have kept := zone_kept (r := r) (fit u) out edge fun mine write => by
        have := noWriter u
        simp [posAt, mine, write, Pos.holdsWrite] at this
      obtain ⟨_, others, _, _⟩ := opStep_effect (fit u) out edge
      rw [← kept.1] at cond
      rw [← kept.2] at terminate
      by_cases other : t = u
      · subst other
        have here := fit t
        cases hpc : (s.threads t).pc <;> rw [hpc] at cond here <;>
          simp only [loopCond, reduceCtorEq, Option.some.injEq] at cond
        case testCond aux =>
          rw [kept.1] at cond
          simp only [opStep, hpc, region, cond, if_true, Option.some.injEq] at edge
          subst edge
          exact ⟨by simp [region], by simp [loopCond], by simpa using terminate⟩
        case testTerminate aux =>
          rw [kept.2] at terminate
          simp only [opStep, hpc, region, terminate, Bool.false_eq_true, if_false,
            Option.some.injEq] at edge
          subst edge
          exact ⟨by simp [region], by simpa [loopCond] using cond, by simpa using terminate⟩
      · refine ⟨?_, ?_, terminate⟩
        · rw [others t other, region]
        · rw [others t other, cond]

structure Balanced [Fintype T] (s : State T) (r : Region) : Prop where
  lock : Inv (s.zones r).lock (posAt s r)
  leaked : s.leaked r = 0
  cond : ∀ t, (s.threads t).region = r → ∀ aux, loopCond (s.threads t).pc = some aux →
    aux = (s.zones r).updateCond

structure Starved [Fintype T] (s : State T) (r : Region) : Prop where
  lock : Stuck (lockAt s r)
  cause : 0 < s.leaked r ∨ ∃ t, Waits s r t

omit [DecidableEq T] in
theorem counted_of_waits [Fintype T] (h : Waits s r t) (fit : Fits s) :
    1 ≤ count Pos.isCounted (posAt s r) := by
  refine one_le_count (i := t) ?_
  simp only [posAt, h.region, if_true]
  rcases place_in_loop (fit t) h.cond with read | wait
  · rw [read]
    rfl
  · exact counted_of_inWait wait

omit [DecidableEq T] in
theorem Starved.kept [Fintype T] (h : Starved s r) (fit : Fits s) :
    0 < count Pos.isCounted (posAt s r) + s.leaked r := by
  rcases h.cause with left | ⟨t, waits⟩
  · omega
  · have := counted_of_waits waits fit
    omega

theorem left_mono {l l' : LockState T} {b : LockLabel T} (edge : lockStep l b = some l') :
    l.left ≤ l'.left := by
  cases b with
  | enter t f =>
    obtain ⟨_, _, rfl⟩ := Option.map_eq_some_iff.mp edge
    exact Nat.le_refl _
  | go t =>
    obtain ⟨_, _, rfl⟩ := Option.map_eq_some_iff.mp edge
    exact Nat.le_refl _
  | leave t =>
    simp only [lockStep, Option.ite_none_right_eq_some] at edge
    obtain ⟨_, edge⟩ := edge
    cases edge
    exact Nat.le_succ _

theorem Starved.step [Fintype T] {a : Label T} (h : Starved s r) (fit : Fits s)
    (edge : memStep s a = some s') : Starved s' r := by
  have kept := h.kept fit
  have lock : Stuck (lockAt s' r) ∧ s.leaked r ≤ s'.leaked r := by
    rcases lockAt_step fit edge r with same | ⟨b, _, move⟩
    · have left : s'.leaked r = s.leaked r := congrArg LockState.left same
      rw [same, left]
      exact ⟨h.lock, Nat.le_refl _⟩
    · exact ⟨h.lock.step kept move, left_mono move⟩
  refine ⟨lock.1, ?_⟩
  rcases h.cause with left | ⟨t, waits⟩
  · left
    omega
  · right
    exact ⟨t, waits.step fit h.lock.noWriter edge⟩

theorem Balanced.cond_step [Fintype T] {a : Label T} (h : Balanced s r) (fit : Fits s)
    (edge : memStep s a = some s') (region : (s'.threads t).region = r) {aux : Nat}
    (cond : loopCond (s'.threads t).pc = some aux) : aux = (s'.zones r).updateCond := by
  cases a with
  | call u c =>
    simp only [memStep, Option.ite_none_right_eq_some] at edge
    obtain ⟨idle, edge⟩ := edge
    cases edge
    obtain ⟨zones, others, _, _⟩ := begin_effect idle (fit u) c
    by_cases mine : t = u
    · subst mine
      unfold begin at cond
      cases c <;> (repeat' split at cond) <;> simp [loopCond] at cond
    · rw [others t mine] at region cond
      rw [zones]
      exact h.cond t region aux cond
  | step u k =>
    simp only [memStep] at edge
    split at edge
    · obtain ⟨⟨l, p⟩, _, rfl⟩ := Option.map_eq_some_iff.mp edge
      obtain ⟨sameRegion, samePc, sameCond, _⟩ := lock_keeps (s := s) (u := u) l p r t
      rw [sameRegion] at region
      rw [samePc] at cond
      rw [sameCond]
      exact h.cond t region aux cond
    · rename_i outside
      have out : (s.threads u).pos.inLock = false := by simpa using outside
      obtain ⟨_, others, _, _⟩ := opStep_effect (fit u) out edge
      by_cases mine : t = u
      · subst mine
        have known := h.cond t
        unfold opStep at edge
        cases hpc : (s.threads t).pc <;> simp only [hpc, State.startCopy] at edge <;>
          (repeat' split at edge) <;> cases edge <;>
          simp only [State.goto, State.callLock, State.setThread, State.setZone, State.setBlock,
            State.decide, State.fail, State.finishRead, Function.update_self, loopCond, hpc,
            reduceCtorEq, free_threads] at cond region known
        all_goals simp_all
      · rw [others t mine] at region cond
        have kept := zone_kept (r := r) (fit u) out edge ?_
        · rw [kept.1]
          exact h.cond t region aux cond
        · -- a writer would be alone, but `t` is reading in the loop
          intro there write
          obtain ⟨_, nobody⟩ := writer_alone h.lock (t := u) (u := t)
            (by simp [posAt, there, write, Pos.holdsWrite]) mine
          have noWait := h.lock.noWait t
          simp only [posAt, region, if_true] at nobody noWait
          rcases place_in_loop (fit t) cond with read | wait
          · rw [read] at nobody
            cases nobody
          · rw [wait] at noWait
            cases noWait

theorem Balanced.step [Fintype T] {a : Label T} (h : Balanced s r) (fit : Fits s)
    (edge : memStep s a = some s') : Balanced s' r ∨ Starved s' r := by
  have cond (t : T) := h.cond_step (t := t) fit edge
  rcases lockAt_step fit edge r with same | ⟨b, cause, move⟩
  · left
    have lock : (s'.zones r).lock = (s.zones r).lock := congrArg LockState.lock same
    have pos : posAt s' r = posAt s r := congrArg LockState.pos same
    have left : s'.leaked r = s.leaked r := congrArg LockState.left same
    refine ⟨?_, left.trans h.leaked, fun t region aux => cond t region⟩
    rw [lock, pos]
    exact h.lock
  have starved {t : T} (read : posAt s r t = .reading)
      (after : 0 < s'.leaked r ∨ ∃ t, Waits s' r t) : Starved s' r := by
    have stuck : Stuck (lockAt s r) := stuck_of_reading h.lock h.leaked read
    have counted : 1 ≤ count Pos.isCounted (posAt s r) :=
      one_le_count (i := t) (by rw [read]; rfl)
    refine ⟨stuck.step ?_ move, after⟩
    simp only [lockAt]
    omega
  have sections (only : sectionsOnly (lockAt s r) b) (left : s'.leaked r = s.leaked r) :
      Balanced s' r :=
    ⟨step_keeps_inv (lockAt s r) b (lockAt s' r) h.lock only move, left.trans h.leaked,
      fun t region aux => cond t region⟩
  cases b with
  | go t =>
    obtain ⟨_, _, eq⟩ := Option.map_eq_some_iff.mp move
    exact .inl (sections trivial (congrArg LockState.left eq).symm)
  | leave t =>
    simp only [lockStep, Option.ite_none_right_eq_some] at move
    obtain ⟨read, eq⟩ := move
    have left : s.leaked r + 1 = s'.leaked r := congrArg LockState.left (Option.some.inj eq)
    refine .inr (starved read (.inl ?_))
    omega
  | enter t f =>
    obtain ⟨p, call, eq⟩ := Option.map_eq_some_iff.mp move
    have left : s.leaked r = s'.leaked r := congrArg LockState.left eq
    by_cases wait : f = .waitUpdate
    · subst wait
      have read : posAt s r t = .reading := by
        cases hp : (lockAt s r).pos t <;> rw [hp] at call <;> simp [entry] at call
        exact hp
      obtain ⟨aux, pc, terminate⟩ := cause.1 rfl
      have region : (s.threads t).region = r := by
        by_contra other
        simp [posAt, other] at read
      refine .inr (starved read (.inr ⟨t, ?_⟩))
      have waits : Waits s r t := by
        refine ⟨region, ?_, region ▸ terminate⟩
        rw [pc]
        exact congrArg some (h.cond t region aux (by simp [pc, loopCond]))
      have stuck : Stuck (lockAt s r) := stuck_of_reading h.lock h.leaked read
      exact waits.step fit stuck.noWriter edge
    · exact .inl (sections wait left.symm)

/-- In every run a region is balanced or starved. -/
theorem reach_balanced_or_starved [Fintype T]
    (h : (memSystem T).Reach System.anyStep s) :
    Fits s ∧ ∀ r, Balanced s r ∨ Starved s r := by
  refine h.invariant (I := fun s => Fits s ∧ ∀ r, Balanced s r ∨ Starved s r)
    ⟨fits_init, fun r => .inl ⟨?_, rfl, ?_⟩⟩ ?_
  · have start := lockAt_init (T := T) r
    have lock := congrArg LockState.lock start
    have pos := congrArg LockState.pos start
    simp only [lockAt] at lock pos
    rw [lock, pos]
    exact inv_init
  · intro t _ aux cond
    cases cond
  · rintro s a s' ⟨fit, regimes⟩ _ edge
    refine ⟨fits_step fit edge, fun r => ?_⟩
    rcases regimes r with balanced | starved
    · exact balanced.step fit edge
    · exact .inr (starved.step fit edge)

theorem free_iff_none_leaked [Fintype T] (h : (memSystem T).Reach System.anyStep s)
    (idle : ∀ t, (s.threads t).pc = .idle) (r : Region) : Free s r ↔ s.leaked r = 0 := by
  obtain ⟨fit, regimes⟩ := reach_balanced_or_starved h
  have out (t : T) : posAt s r t = .out := by
    simp [posAt, out_of_idle (fit t) (idle t)]
  constructor
  · rintro ⟨_, free, _⟩
    rcases regimes r with balanced | starved
    · exact balanced.leaked
    · have taken : (s.zones r).lock.sem = 0 := starved.lock.sem
      omega
  · intro none
    rcases regimes r with balanced | starved
    · have readers : (s.zones r).lock.nReaders = 0 := by
        rw [balanced.lock.counted]
        exact count_eq_zero_iff.mpr fun t => by rw [out t]; rfl
      have free : (s.zones r).lock.sem = 1 := by
        have balance := balanced.lock.balance
        have writers : count Pos.holdsWrite (posAt s r) = 0 :=
          count_eq_zero_iff.mpr fun t => by rw [out t]; rfl
        have group : count Pos.holdsGroup (posAt s r) = 0 :=
          count_eq_zero_iff.mpr fun t => by rw [out t]; rfl
        omega
      refine ⟨readers, free, fun t => ?_⟩
      simp [rwStep, free]
    · rcases starved.cause with left | ⟨t, waits⟩
      · omega
      · have cond := waits.cond
        rw [idle t] at cond
        cases cond

/-- The caller is in `mem_wait`, before the last exit of its loop. -/
def inLoop : Pc → Bool
  | .saveCond | .testCond _ | .testTerminate _ | .testExit => true
  | _ => false

/-- Nobody is or was in `mem_wait` of the region. -/
structure Unwaited (s : State T) (r : Region) : Prop where
  leaked : s.leaked r = 0
  nobody : ∀ t, (s.threads t).region = r → inLoop (s.threads t).pc = false

theorem begin_loop {c : Call} (loop : inLoop ((begin s u c).threads u).pc = true) :
    ∃ number size, c = .wait number size ∧
      regionOf number = some ((begin s u c).threads u).region := by
  cases c with
  | wait number size =>
    refine ⟨number, size, rfl, ?_⟩
    simp only [begin] at loop ⊢
    cases valid : regionOf number with
    | none => simp [valid, inLoop] at loop
    | some r => simp
  | get number size =>
    simp only [begin] at loop
    split at loop <;> simp [inLoop] at loop
  | put number data stamp =>
    simp only [begin] at loop
    split at loop
    · simp [inLoop] at loop
    · split at loop <;> simp [inLoop] at loop
  | finish => simp [begin, inLoop] at loop

theorem opStep_loop {k : Nat} (edge : opStep s u k = some s') :
    (inLoop (s'.threads u).pc = true →
      inLoop (s.threads u).pc = true ∧ (s'.threads u).region = (s.threads u).region) ∧
      (s'.leaked r ≠ s.leaked r → (s.threads u).region = r ∧ inLoop (s.threads u).pc = true) := by
  unfold opStep at edge
  cases hpc : (s.threads u).pc <;> simp only [hpc, State.startCopy] at edge <;>
    (repeat' split at edge) <;> cases edge
  all_goals first
    | (simp [hpc, inLoop]; done)
    | (rename_i leaves
       simp only [State.callLock, State.setThread, Function.update_self, inLoop]
       refine ⟨by simp, fun changed => ⟨?_, trivial⟩⟩
       by_contra other
       exact changed (Function.update_of_ne (Ne.symm other) _ _))

theorem Unwaited.step {A : Call → Prop} {a : Label T} (h : Unwaited s r) (fit : Fits s)
    (none : ∀ region size, regionOf region = some r → ¬ A (.wait region size))
    (ok : calls A s a) (edge : memStep s a = some s') : Unwaited s' r := by
  cases a with
  | call u c =>
    simp only [memStep, Option.ite_none_right_eq_some] at edge
    obtain ⟨idle, edge⟩ := edge
    cases edge
    obtain ⟨_, others, _, _⟩ := begin_effect idle (fit u) c
    have leaked : (begin s u c).leaked r = s.leaked r := by
      unfold begin
      cases c <;> (repeat' split) <;> rfl
    refine ⟨leaked.trans h.leaked, fun t region => ?_⟩
    by_cases same : t = u
    · subst same
      by_contra loop
      obtain ⟨number, size, rfl, valid⟩ := begin_loop (by simpa using loop)
      exact none number size (region ▸ valid) ok
    · rw [others t same] at region ⊢
      exact h.nobody t region
  | step u k =>
    simp only [memStep] at edge
    split at edge
    · obtain ⟨⟨l, p⟩, _, rfl⟩ := Option.map_eq_some_iff.mp edge
      refine ⟨h.leaked, fun t region => ?_⟩
      obtain ⟨sameRegion, samePc, -, -⟩ := lock_keeps (s := s) (u := u) l p r t
      rw [sameRegion] at region
      rw [samePc]
      exact h.nobody t region
    · rename_i outside
      obtain ⟨_, others, _, _⟩ := opStep_effect (fit u) (by simpa using outside) edge
      obtain ⟨enters, counts⟩ := opStep_loop (r := r) edge
      constructor
      · by_contra changed
        obtain ⟨region, loop⟩ := counts (h.leaked ▸ changed)
        rw [h.nobody u region] at loop
        cases loop
      · intro t region
        by_cases same : t = u
        · subst same
          by_contra loop
          obtain ⟨before, kept⟩ := enters (by simpa using loop)
          rw [h.nobody t (kept ▸ region)] at before
          cases before
        · rw [others t same] at region ⊢
          exact h.nobody t region

theorem leaked_of_no_wait {A : Call → Prop} (h : (memSystem T).Reach (calls A) s)
    (none : ∀ region size, regionOf region = some r → ¬ A (.wait region size)) :
    s.leaked r = 0 := by
  have start : Fits (memSystem T).init ∧ Unwaited (memSystem T).init r :=
    ⟨fits_init, rfl, fun _ _ => rfl⟩
  refine (h.invariant (I := fun s => Fits s ∧ Unwaited s r) start ?_).2.leaked
  rintro s a s' ⟨fit, known⟩ ok edge
  exact ⟨fits_step fit edge, known.step fit none ok edge⟩

section Alone

variable {A : Call → Prop} {size : Nat}

theorem path_of_steps {n : Nat}
    (goes : (memSystem T).run s (List.replicate n (.step t 0)) = some s') :
    (memSystem T).Path (calls A) s s' := by
  refine System.path_of_run _ (fun a member s => ?_) goes
  obtain rfl := List.eq_of_mem_replicate member
  trivial

theorem zone_finished {b : Bool} (caller : s.threads t = ⟨r, 0, [], 0, .setTerminate, .wlockWait⟩)
    (zone : s.zones r = ⟨none, 0, 0, b, rwLockInit⟩) :
    (memSystem T).run s (List.replicate 6 (.step t 0)) = some { s with
      zones := Function.update s.zones r ⟨none, 0, 0, true, rwLockInit⟩
      threads := Function.update s.threads t ⟨r, 0, [], 0, .nextZone, .out⟩ } := by
  simp [System.run, memSystem, memStep, opStep, rwStep, caller, zone, Pos.inLock, rwLockInit,
    RwLock.semWait, RwLock.semPost]

/-- The memory after `mem_init`, with the regions before the `n`th shut down. -/
structure ShutTo (s : State T) (t : T) (n : Nat) (th : Thread) : Prop where
  caller : s.threads t = th
  others : ∀ u, u ≠ t → (s.threads u).pc = .idle
  zones : ∀ q, s.zones q = ⟨none, 0, 0, decide (q.val < n), rwLockInit⟩

theorem ShutTo.zone {n : Nat} (inside : n < nRegions)
    (h : ShutTo s t n ⟨⟨n, inside⟩, 0, [], 0, .setTerminate, .wlockWait⟩) :
    ∃ s', (memSystem T).Path (calls A) s s' ∧
      ShutTo s' t (n + 1) ⟨⟨n, inside⟩, 0, [], 0, .nextZone, .out⟩ := by
  refine ⟨_, path_of_steps (zone_finished h.caller (h.zones _)), ?_, fun u other => ?_, fun q => ?_⟩
  · exact Function.update_self _ _ _
  · simp only [Function.update_of_ne other]
    exact h.others u other
  · by_cases same : q = ⟨n, inside⟩
    · subst same
      simp
    · have apart : q.val ≠ n := fun equal => same (Fin.ext equal)
      simp only [Function.update_of_ne same]
      rw [h.zones q]
      congr 2
      rw [eq_iff_iff]
      omega

theorem ShutTo.next {n : Nat} (inside : n < nRegions) (more : n + 1 < nRegions)
    (h : ShutTo s t (n + 1) ⟨⟨n, inside⟩, 0, [], 0, .nextZone, .out⟩) :
    ∃ s', (memSystem T).Path (calls A) s s' ∧
      ShutTo s' t (n + 1) ⟨⟨n + 1, more⟩, 0, [], 0, .setTerminate, .wlockWait⟩ := by
  have goes : memStep s (.step t 0) = some (s.setThread t
      ⟨⟨n + 1, more⟩, 0, [], 0, .setTerminate, .wlockWait⟩) := by
    simp [memStep, opStep, h.caller, Pos.inLock, more]
  refine ⟨_, .single (a := .step t 0) trivial goes, ?_, fun u other => ?_, h.zones⟩
  · exact Function.update_self _ _ _
  · simp only [State.setThread, Function.update_of_ne other]
    exact h.others u other

/-- `mem_finish` of one thread alone comes to each region. By induction on the regions. -/
theorem shutTo_reach (finish : A .finish) (t : T) (n : Nat) (inside : n < nRegions) :
    ∃ s, (memSystem T).Reach (calls A) s ∧
      ShutTo s t n ⟨⟨n, inside⟩, 0, [], 0, .setTerminate, .wlockWait⟩ := by
  induction n with
  | zero =>
    have begun : memStep (memSystem T).init (.call t .finish) = some ((memSystem T).init.setThread t
        ⟨firstRegion, 0, [], 0, .setTerminate, .wlockWait⟩) := rfl
    refine ⟨_, .single (a := .call t .finish) finish begun, ?_, fun u other => ?_, fun q => ?_⟩
    · exact Function.update_self _ _ _
    · simp [memSystem, other]
    · simp [memSystem]
  | succ n ih =>
    obtain ⟨s, reach, here⟩ := ih (by omega)
    obtain ⟨s', shut, there⟩ := here.zone (A := A)
    obtain ⟨s'', goes, next⟩ := there.next (A := A) _ inside
    exact ⟨s'', reach.trans (shut.trans goes), next⟩

theorem shutDown_reach (finish : A .finish) (t : T) :
    ∃ s, (memSystem T).Reach (calls A) s ∧ (∀ u, (s.threads u).pc = .idle) ∧
      ∀ q, s.zones q = ⟨none, 0, 0, true, rwLockInit⟩ := by
  have last : nRegions - 1 < nRegions := by decide
  obtain ⟨s, reach, here⟩ := shutTo_reach finish t (nRegions - 1) last
  obtain ⟨s', shut, there⟩ := here.zone (A := A)
  have last_ : ¬ nRegions - 1 + 1 < nRegions := by decide
  have caller := there.caller
  have goes : ∃ s'', (memSystem T).run s' (List.replicate 2 (.step t 0)) = some s'' ∧
      s''.zones = s'.zones ∧ s''.threads = Function.update s'.threads t
        ⟨⟨nRegions - 1, last⟩, 0, [], 0, .idle, .out⟩ := by
    simp [System.run, memSystem, memStep, opStep, caller, Pos.inLock, last_]
  obtain ⟨s'', goes, zones, threads⟩ := goes
  refine ⟨s'', reach.trans (shut.trans (path_of_steps goes)), fun u => ?_, fun q => ?_⟩
  · rw [threads]
    by_cases same : u = t
    · subst same
      simp
    · rw [Function.update_of_ne same]
      exact there.others u same
  · have all : q.val < nRegions - 1 + 1 := q.isLt
    rw [zones, there.zones q, decide_eq_true all]

def readLocked (t : T) : RwLock T := ⟨none, 0, 1, Function.update (fun _ => 0) t 1⟩

theorem read_locked {pc : Pc} (caller : s.threads t = ⟨r, size, [], 0, pc, .rlockLock⟩)
    (zone : s.zones r = ⟨none, 0, 0, true, rwLockInit⟩) :
    (memSystem T).run s (List.replicate 5 (.step t 0)) = some { s with
      zones := Function.update s.zones r ⟨none, 0, 0, true, readLocked t⟩
      threads := Function.update s.threads t ⟨r, size, [], 0, pc, .reading⟩ } := by
  simp [System.run, memSystem, memStep, rwStep, caller, zone, Pos.inLock, rwLockInit, readLocked,
    RwLock.semWait, RwLock.lockMutex, RwLock.unlockMutex, RwLock.incReaders]

theorem wait_refused {l : RwLock T} (caller : s.threads t = ⟨r, size, [], 0, .saveCond, .reading⟩)
    (zone : s.zones r = ⟨none, 0, 0, true, l⟩) :
    ∃ s', (memSystem T).run s (List.replicate 5 (.step t 0)) = some s' ∧ s'.zones = s.zones ∧
      s'.threads = Function.update s.threads t ⟨r, size, [], 0, .idle, .out⟩ := by
  simp [System.run, memSystem, memStep, opStep, caller, zone, Pos.inLock]

theorem late_wait {region : Int} (allowed : A (.wait region size)) (valid : regionOf region = some r)
    (idle : (s.threads t).pc = .idle) (zone : s.zones r = ⟨none, 0, 0, true, rwLockInit⟩) :
    ∃ s', (memSystem T).Path (calls A) s s' ∧ (s'.zones r).lock.nReaders = 1 ∧
      s'.threads = Function.update s.threads t ⟨r, size, [], 0, .idle, .out⟩ := by
  have begun : memStep s (.call t (.wait region size)) =
      some (s.setThread t ⟨r, size, [], 0, .saveCond, .rlockLock⟩) := by
    simp [memStep, idle, begin, valid]
  have locked := read_locked (s := s.setThread t ⟨r, size, [], 0, .saveCond, .rlockLock⟩)
    (Function.update_self _ _ _) zone
  let reads : State T := { s with
    zones := Function.update s.zones r ⟨none, 0, 0, true, readLocked t⟩
    threads := Function.update (Function.update s.threads t
      ⟨r, size, [], 0, .saveCond, .rlockLock⟩) t ⟨r, size, [], 0, .saveCond, .reading⟩ }
  have caller : reads.threads t = ⟨r, size, [], 0, .saveCond, .reading⟩ :=
    Function.update_self _ _ _
  obtain ⟨s', refused, zones, threads⟩ := wait_refused caller (Function.update_self _ _ _)
  refine ⟨s', .head (a := .call t (.wait region size)) allowed begun
    (System.Path.trans (path_of_steps locked) (path_of_steps refused)), ?_, ?_⟩
  · rw [zones]
    simp [reads, readLocked]
  · rw [threads]
    simp [reads]

end Alone

/-- Every region's lock is free whenever all callers have returned, in every run of these calls and
the shutdown, exactly when no `mem_wait` on the region is among them. -/
theorem free_iff_no_wait [Fintype T] [Nonempty T] (A : Call → Prop) (finish : A .finish)
    (r : Region) :
    (∀ s : State T, (memSystem T).Reach (calls A) s → (∀ t, (s.threads t).pc = .idle) → Free s r) ↔
      ∀ region size, regionOf region = some r → ¬ A (.wait region size) := by
  constructor
  · intro free region size valid allowed
    have t : T := Classical.arbitrary T
    obtain ⟨s, reach, idle, zones⟩ := shutDown_reach finish t
    obtain ⟨s', path, kept, threads⟩ := late_wait allowed valid (idle t) (zones r)
    have returned : ∀ u, (s'.threads u).pc = .idle := by
      intro u
      rw [threads]
      by_cases same : u = t
      · subst same
        simp
      · rw [Function.update_of_ne same]
        exact idle u
    have readers := (free s' (reach.trans path) returned).1
    omega
  · intro none s reach idle
    have any : (memSystem T).Reach System.anyStep s := reach.mono fun _ _ _ => trivial
    exact (free_iff_none_leaked any idle r).mpr (leaked_of_no_wait reach none)

end

theorem free_iff_no_wait_gets :
    (∀ s : State (Fin 2), (memSystem (Fin 2)).Reach (calls fun c => c = .finish ∨ c = .get 0 4) s →
      (∀ t, (s.threads t).pc = .idle) → Free s firstRegion) ∧
    ¬ ∀ s : State (Fin 2),
      (memSystem (Fin 2)).Reach (calls fun c => c = .finish ∨ c = .wait 0 4) s →
        (∀ t, (s.threads t).pc = .idle) → Free s firstRegion := by
  constructor
  · exact (free_iff_no_wait (fun c => c = .finish ∨ c = .get 0 4) (.inl rfl) firstRegion).mpr
      (by simp)
  · intro free
    exact (free_iff_no_wait (fun c => c = .finish ∨ c = .wait 0 4) (.inl rfl) firstRegion).mp free
      0 4 rfl (.inr rfl)

private def lateWaitRun {T : Type u} (t u : T) : List (Label T) :=
  [Label.call t .finish] ++ List.replicate 71 (Label.step t 0) ++
    [Label.call u (.wait 0 4)] ++ List.replicate 10 (Label.step u 0)

/-- The late `mem_wait` has returned and left its read lock behind: no `rw_lock_wlock` succeeds. -/
theorem late_wait_keeps_lock : ∃ s : State (Fin 2), (memSystem (Fin 2)).Reach System.anyStep s ∧
    (∀ t, (s.threads t).pc = .idle) ∧ (s.zones firstRegion).lock.nReaders = 1 ∧
    (s.zones firstRegion).lock.sem = 0 ∧
    ∀ t, rwStep (s.zones firstRegion).lock t .wlockWait = none := by
  have reached : ∃ s : State (Fin 2), (memSystem (Fin 2)).Reach System.anyStep s ∧
      decide ((∀ t, (s.threads t).pc = .idle) ∧ (s.zones firstRegion).lock.nReaders = 1 ∧
        (s.zones firstRegion).lock.sem = 0) = true :=
    System.reach_of_run _ true (lateWaitRun 0 1) (by simp [System.anyStep]) (by decide +kernel)
  obtain ⟨s, reach, seen⟩ := reached
  obtain ⟨idle, readers, taken⟩ := of_decide_eq_true seen
  exact ⟨s, reach, idle, readers, taken, fun t => by simp [rwStep, taken]⟩

end DistributedClipboard.Mem.Shutdown
