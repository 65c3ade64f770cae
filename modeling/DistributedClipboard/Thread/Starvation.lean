/- module: DistributedClipboard/Thread/Starvation
   source: src/src/thread/rwlock.c
   layer: results
   digest: A reader that never takes its count back keeps the semaphore for good. -/

import DistributedClipboard.Thread.Sections

set_option autoImplicit false
set_option relaxedAutoImplicit false

namespace DistributedClipboard.Thread.Starvation

open DistributedClipboard.Lib.Counting
open DistributedClipboard.Thread.Rwlock

universe u

variable {T : Type u} [Fintype T] [DecidableEq T] {s s' : LockState T} {t : T}

omit [DecidableEq T] in
structure Stuck (s : LockState T) : Prop where
  sem : s.lock.sem = 0
  noWriter : ∀ t, (s.pos t).holdsWrite = false
  noPost : ∀ t, s.pos t ≠ .runlockPost
  counted : count Pos.isCounted s.pos + s.left ≤ s.lock.nReaders

omit [DecidableEq T] in
theorem stuck_of_reading (h : Inv s.lock s.pos) (left : s.left = 0)
    (read : s.pos t = .reading) : Stuck s := by
  have balance := h.balance
  have group : 1 ≤ count Pos.holdsGroup s.pos := one_le_count (i := t) (by rw [read]; rfl)
  have counted : 1 ≤ count Pos.isCounted s.pos := one_le_count (i := t) (by rw [read]; rfl)
  refine ⟨by omega, ?_, ?_, ?_⟩
  · exact count_eq_zero_iff.mp (by omega)
  · intro u post
    have := h.posting u post
    have := h.counted
    omega
  · have := h.counted
    omega

private theorem Stuck.moveTo (h : Stuck s) {l : RwLock T} {p : Pos} (sem : l.sem = 0)
    (noWriter : p.holdsWrite = false) (noPost : p ≠ .runlockPost) {n : Nat}
    (counted : count Pos.isCounted s.pos + p.isCounted.toNat + n ≤
      l.nReaders + (s.pos t).isCounted.toNat) :
    Stuck ⟨l, Function.update s.pos t p, n⟩ where
  sem := sem
  noWriter u := by
    by_cases eq : u = t
    · subst eq
      simpa using noWriter
    · simpa [eq] using h.noWriter u
  noPost u := by
    by_cases eq : u = t
    · subst eq
      simpa using noPost
    · simpa [eq] using h.noPost u
  counted := by
    have := count_update Pos.isCounted s.pos t p
    simp only
    omega

private theorem Stuck.move (h : Stuck s) {l : RwLock T} {p : Pos} (sem : l.sem = 0)
    (noWriter : p.holdsWrite = false) (noPost : p ≠ .runlockPost)
    (counted : count Pos.isCounted s.pos + p.isCounted.toNat + s.left ≤
      l.nReaders + (s.pos t).isCounted.toNat) : Stuck (s.move t l p) :=
  h.moveTo sem noWriter noPost counted

theorem Stuck.step {b : LockLabel T} (h : Stuck s)
    (kept : 0 < count Pos.isCounted s.pos + s.left) (edge : lockStep s b = some s') :
    Stuck s' := by
  have counted := h.counted
  have sem := h.sem
  cases b with
  | enter t f =>
    obtain ⟨p, call, rfl⟩ := Option.map_eq_some_iff.mp edge
    have clear := h.noWriter t
    cases f <;> cases hp : s.pos t <;> rw [hp] at call clear <;> cases call
    case enter.wunlock.writing.refl => cases clear
    all_goals
      refine h.move sem rfl (by simp) ?_
      simp only [hp, Pos.isCounted, Bool.toNat_true, Bool.toNat_false]
      omega
  | leave t =>
    simp only [lockStep, Option.ite_none_right_eq_some] at edge
    obtain ⟨read, edge⟩ := edge
    cases edge
    refine h.moveTo sem rfl (by simp) ?_
    simp only [read, Pos.isCounted, Bool.toNat_true, Bool.toNat_false]
    omega
  | go t =>
    obtain ⟨⟨l, p⟩, move, rfl⟩ := Option.map_eq_some_iff.mp edge
    have clear := h.noWriter t
    have quiet := h.noPost t
    cases hp : s.pos t <;> rw [hp] at move clear quiet <;>
      simp only [rwStep, Option.ite_none_right_eq_some, reduceCtorEq] at move
    case wunlockPost => cases clear
    case runlockPost => exact absurd rfl quiet
    case rlockWait | wlockWait | waitSem => omega
    case runlockTest =>
      split at move <;> cases move
      · omega
      · refine h.move sem rfl (by simp) ?_
        simp only [hp, Pos.isCounted, Bool.toNat_false]
        omega
    case runlockDec =>
      cases move
      have mine : 1 ≤ count Pos.isCounted s.pos := one_le_count (i := t) (by rw [hp]; rfl)
      refine h.move sem rfl (by simp) ?_
      simp only [hp, Pos.isCounted, Bool.toNat_true, Bool.toNat_false, RwLock.decReaders]
      omega
    case rlockTest | waitTest =>
      split at move <;> cases move <;>
        · refine h.move sem rfl (by simp) ?_
          simp only [hp, Pos.isCounted, Bool.toNat_true]
          omega
    case rlockLock | runlockLock | waitBlocked =>
      obtain ⟨_, move⟩ := move
      cases move
      refine h.move sem rfl (by simp) ?_
      simp only [hp, Pos.isCounted, Bool.toNat_true, Bool.toNat_false, RwLock.lockMutex]
      omega
    all_goals
      cases move
      refine h.move sem rfl (by simp) ?_
      simp only [hp, Pos.isCounted, Bool.toNat_true, Bool.toNat_false, RwLock.incReaders,
        RwLock.unlockMutex]
      omega

end DistributedClipboard.Thread.Starvation
