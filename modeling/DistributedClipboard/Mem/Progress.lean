/- module: DistributedClipboard/Mem/Progress
   source: src/src/mem/clmem.c
   layer: results
   digest: Gets and puts that have begun can always be run to their end. -/

import DistributedClipboard.Mem.Linearizable

set_option autoImplicit false
set_option relaxedAutoImplicit false

namespace DistributedClipboard.Mem.Progress

open DistributedClipboard.Common
open DistributedClipboard.Lib.Transition
open DistributedClipboard.Mem.LockView
open DistributedClipboard.Mem.Linearizable
open DistributedClipboard.Mem.Threads
open DistributedClipboard.Thread.Rwlock
open DistributedClipboard.Thread.Sections (Runs someone_runs)

universe u

def lockRest : Pos → Nat
  | .out | .reading | .writing => 0
  | .rlockUnlock | .runlockUnlock | .wlockWait | .wunlockBroadcast | .waitUnlock => 1
  | .rlockWait | .runlockPost | .wunlockPost | .waitSem => 2
  | .rlockTest | .runlockTest | .waitTest => 3
  | .rlockInc | .runlockDec | .waitInc => 4
  | .rlockLock | .runlockLock | .waitBlocked => 5
  | .waitRelease => 6

theorem rwStep_lowers {T : Type u} [DecidableEq T] {l l' : RwLock T} {t : T} {p p' : Pos}
    (edge : rwStep l t p = some (l', p')) : lockRest p' < lockRest p := by
  cases p <;> simp only [rwStep, Option.ite_none_right_eq_some, reduceCtorEq] at edge
  case rlockTest | runlockTest | waitTest =>
    split at edge <;> cases edge <;> decide
  case rlockLock | rlockWait | runlockLock | wlockWait | waitBlocked | waitSem =>
    obtain ⟨_, edge⟩ := edge
    cases edge
    decide
  all_goals
    cases edge
    decide

section

variable {T : Type u} {s s' : State T} {t u : T}

def filled (s : State T) (a : Nat) : Nat := ((s.heap a).map fun b => b.bytes.length).getD 0

/-- How many statements are left of a get or a put, at most. -/
def work (s : State T) (th : Thread) : Nat :=
  match th.pc with
  | .done _ => 1
  | .rejected _ | .setCond _ => 2
  | .setSize _ => 3
  | .setData _ => 4
  | .freeOld _ => 5
  | .compare _ => 6
  | .testNull _ => 7
  | .fill a => 8 + (th.data.length - filled s a)
  | .malloc => 9 + th.data.length
  | .copy cpSize _ buffer => 2 + (cpSize - buffer.length)
  | .readData cpSize => 3 + cpSize
  | .readSizeAgain => 4 + th.size
  | .readSize => 5 + th.size
  | _ => 0

def remaining (s : State T) (t : T) : Nat :=
  6 * work s (s.threads t) + lockRest (s.threads t).pos

end

section Lowers

variable {T : Type u} [Fintype T] [DecidableEq T] {s s' : State T} {t u : T} {k : Nat}
variable (inv : DataInv s) (fit : Fits s) (locks : LocksOk s)

attribute [local simp] State.setThread State.setZone State.setBlock State.goto State.callLock
  State.decide State.finishRead

omit [Fintype T] in
private theorem startCopy_work {cpSize : Nat} (bound : cpSize ≤ (s.threads u).size) :
    work (s.startCopy u cpSize) ((s.startCopy u cpSize).threads u) ≤ 3 + (s.threads u).size ∧
      lockRest ((s.startCopy u cpSize).threads u).pos ≤ max 5 (lockRest (s.threads u).pos) := by
  unfold State.startCopy
  split
  · simp [work, lockRest]
    omega
  · simp [work, bound]

omit [Fintype T] in
include inv in
theorem opStep_lowers (out : (s.threads u).pos.inLock = false) (sound : s'.fault = false)
    (edge : opStep s u k = some s') :
    work s' (s'.threads u) < work s (s.threads u) ∧ lockRest (s'.threads u).pos ≤ 5 := by
  have own := inv.caller u
  have short : lockRest (s.threads u).pos = 0 := by
    cases hp : (s.threads u).pos <;> rw [hp] at out <;> first | rfl | cases out
  cases hpc : (s.threads u).pc <;> simp only [Caller, CallerOk, hpc] at own <;>
    simp only [opStep, hpc] at edge
  case idle => cases edge
  case readSize =>
    split at edge <;> cases edge
    · simp [work, hpc, short]
    · have copied := startCopy_work (s := s) (u := u) (Nat.le_refl _)
      rw [short] at copied
      simp only [work, hpc] at copied ⊢
      omega
  case readSizeAgain =>
    cases edge
    obtain ⟨_, shorter⟩ := own
    have copied := startCopy_work (s := s) (u := u) (Nat.le_of_lt shorter)
    rw [short] at copied
    simp only [work, hpc, fields] at copied ⊢
    omega
  case readData cpSize =>
    split at edge <;> cases edge
    · simp [work, hpc, short]
    · cases sound
  case copy cpSize src buffer =>
    obtain ⟨_, _, _, _, _, _, _, upto⟩ := own
    split at edge
    · cases edge
      simp [work, hpc, lockRest]
      omega
    · rename_i incomplete
      split at edge
      · split at edge <;> cases edge
        · rename_i within
          simp [work, hpc, short]
          omega
        · cases sound
      · cases edge
        cases sound
  case fill a =>
    obtain ⟨_, bytes, part, block⟩ := own
    have bound := part.length_le
    simp only [block] at edge
    split at edge <;> cases edge
    · simp [work, hpc, lockRest]
      omega
    · simp [work, hpc, filled, block, short]
      omega
  case malloc =>
    cases edge
    simp [work, hpc, filled, short]
  case testNull | compare | freeOld =>
    split at edge <;> cases edge <;> first
      | (simp [work, hpc, short]; done)
      | simp [work, hpc, lockRest]
  all_goals
    cases edge
    first
      | (simp [work, hpc, short]; done)
      | simp [work, hpc, lockRest]

def total (s : State T) : Nat := ∑ t, remaining s t

include inv fit locks in
theorem total_lt (edge : memStep s (.step u k) = some s') : total s' < total s := by
  have good : Good s s' u := good_step inv fit locks (a := .step u k) trivial edge
  have same (t : T) (ne : t ≠ u) : remaining s' t = remaining s t := by
    have own := inv.caller t
    simp only [remaining, good.threads t ne, work]
    cases hpc : (s.threads t).pc <;> simp only [Caller, CallerOk, hpc] at own <;> try rfl
    obtain ⟨_, bytes, _, block⟩ := own
    simp only [filled, block, good.blocks t ne _ _ block]
  have less : remaining s' u < remaining s u := by
    simp only [memStep] at edge
    split at edge
    · obtain ⟨⟨l, p⟩, move, rfl⟩ := Option.map_eq_some_iff.mp edge
      have := rwStep_lowers move
      simp only [remaining, work, filled, State.setThread, State.setZone, Function.update_self]
      omega
    · rename_i inside
      have out : (s.threads u).pos.inLock = false := by simpa using inside
      have := opStep_lowers inv out good.sound edge
      simp only [remaining]
      omega
  refine Finset.sum_lt_sum (fun t _ => ?_) ⟨u, Finset.mem_univ u, less⟩
  by_cases eq : t = u
  · subst eq
    exact less.le
  · exact (same t eq).le

omit [Fintype T] in
private theorem opStep_some (busy : (s.threads u).pc ≠ .idle) : ∃ s', opStep s u 0 = some s' := by
  cases hpc : (s.threads u).pc
  case idle => exact absurd hpc busy
  all_goals
    simp only [opStep, hpc]
    repeat' split
    all_goals exact ⟨_, rfl⟩

include fit locks in
theorem someone_steps (busy : (s.threads t).pc ≠ .idle) :
    ∃ u s', memStep s (.step u 0) = some s' := by
  have own_code {u : T} (active : (s.threads u).pc ≠ .idle) (out : (s.threads u).pos.inLock = false) :
      ∃ u s', memStep s (.step u 0) = some s' := by
    obtain ⟨s', edge⟩ := opStep_some active
    exact ⟨u, s', by simp [memStep, out, edge]⟩
  by_cases outside : (s.threads t).pos = .out
  · exact own_code busy (by rw [outside]; rfl)
  obtain ⟨u, inside, runs⟩ := someone_runs (locks (s.threads t).region) (t := t)
    (by simpa [posAt] using outside)
  have region : (s.threads u).region = (s.threads t).region := by
    by_contra other
    simp [posAt, other] at inside
  simp only [posAt, region, if_true] at inside runs
  by_cases out : (s.threads u).pos.inLock = false
  · exact own_code (fun idle => inside (out_of_idle (fit u) idle)) out
  · have in_code : (s.threads u).pos.inLock = true := by simpa using out
    rcases runs with code | operation
    · exact absurd code out
    · obtain ⟨⟨l, p⟩, move⟩ := Option.isSome_iff_exists.mp operation
      rw [← region] at move
      exact ⟨u, Option.isSome_iff_exists.mp (by simp [memStep, in_code, move])⟩

end Lowers

def stepsOnly {T : Type u} : State T → Label T → Prop
  | _, .call _ _ => False
  | _, .step _ _ => True

theorem all_return {T : Type u} [Fintype T] [DecidableEq T] {s : State T} (inv : DataInv s)
    (fit : Fits s) (locks : LocksOk s) :
    ∃ s', (memSystem T).Path stepsOnly s s' ∧ ∀ t, (s'.threads t).pc = .idle := by
  have advance (s : State T) (good : DataInv s ∧ Fits s ∧ LocksOk s) :
      (∀ t, (s.threads t).pc = .idle) ∨ ∃ a s', stepsOnly s a ∧ memStep s a = some s' ∧
        (DataInv s' ∧ Fits s' ∧ LocksOk s') ∧ total s' < total s := by
    obtain ⟨inv, fit, locks⟩ := good
    by_cases idle : ∀ t, (s.threads t).pc = .idle
    · exact .inl idle
    · obtain ⟨t, busy⟩ := not_forall.mp idle
      obtain ⟨u, s', edge⟩ := someone_steps fit locks busy
      have good := good_step inv fit locks (a := .step u 0) trivial edge
      exact .inr ⟨.step u 0, s', trivial, edge,
        ⟨good.inv fit locks inv, fits_step fit edge, locks_step inv fit locks edge⟩,
        total_lt inv fit locks edge⟩
  obtain ⟨s', path, _, idle⟩ :=
    System.Path.progress (M := memSystem T) total advance s ⟨inv, fit, locks⟩
  exact ⟨s', path, idle⟩

end DistributedClipboard.Mem.Progress
