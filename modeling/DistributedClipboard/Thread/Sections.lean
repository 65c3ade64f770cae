/- module: DistributedClipboard/Thread/Sections
   source: src/src/thread/rwlock.c
   layer: results
   digest: Any number of threads running read and write sections on one lock. -/

import DistributedClipboard.Thread.Rwlock

set_option autoImplicit false
set_option relaxedAutoImplicit false

namespace DistributedClipboard.Thread.Sections

open DistributedClipboard.Lib.Counting
open DistributedClipboard.Lib.Transition
open DistributedClipboard.Thread.Rwlock

universe u

variable {T : Type u} [Fintype T] [DecidableEq T]

theorem step_keeps_inv (s : LockState T) (a : LockLabel T) (t : LockState T)
    (h : Inv s.lock s.pos) (guard : sectionsOnly s a) (edge : lockStep s a = some t) :
    Inv t.lock t.pos := by
  cases a with
  | enter i f =>
    obtain ⟨p, call, rfl⟩ := Option.map_eq_some_iff.mp edge
    exact h.enter call guard
  | go i =>
    obtain ⟨⟨l, p⟩, move, rfl⟩ := Option.map_eq_some_iff.mp edge
    exact h.step move
  | leave i => exact guard.elim

theorem reach_inv {s : LockState T} (h : (lockSystem T).Reach sectionsOnly s) :
    Inv s.lock s.pos :=
  h.invariant (I := fun s => Inv s.lock s.pos) inv_init step_keeps_inv

section Consequences

variable {l : RwLock T} {pos : T → Pos} {t u : T}

theorem group_of_inRead {p : Pos} (read : p.inRead = true) : p.holdsGroup = true := by
  cases p <;> simp_all [Pos.inRead, Pos.holdsGroup]

theorem writer_alone (h : Inv l pos) (write : (pos t).holdsWrite = true) (ne : u ≠ t) :
    (pos u).holdsWrite = false ∧ (pos u).holdsGroup = false := by
  have balance := h.balance
  have one := one_le_count write
  constructor
  · by_contra second
    have moved := count_update Pos.holdsWrite pos t .out
    have two : 1 ≤ count Pos.holdsWrite (Function.update pos t .out) :=
      one_le_count (i := u) (by rw [Function.update_of_ne ne]; simpa using second)
    rw [write, show Pos.out.holdsWrite = false from rfl] at moved
    simp only [Bool.toNat_true, Bool.toNat_false] at moved
    omega
  · by_contra group
    have := one_le_count (f := pos) (i := u) (p := Pos.holdsGroup) (by simpa using group)
    omega

omit [DecidableEq T]

theorem sem_free_iff (h : Inv l pos) :
    l.sem = 1 ↔ (∀ t, (pos t).holdsWrite = false) ∧ ∀ t, (pos t).holdsGroup = false := by
  have balance := h.balance
  rw [← count_eq_zero_iff, ← count_eq_zero_iff]
  omega

theorem counted_eq_inRead (h : Inv l pos) (free : l.mLock = none) (t : T) :
    (pos t).isCounted = (pos t).inRead := by
  have mutex := h.mutex t
  have wait := h.noWait t
  rw [free] at mutex
  cases hp : pos t <;> simp_all [Pos.isCounted, Pos.inRead, Pos.holdsMutex, Pos.inWait]

theorem readers_eq_card (h : Inv l pos) (free : l.mLock = none) :
    l.nReaders = (Finset.univ.filter fun t => (pos t).inRead = true).card := by
  rw [h.counted, count_eq_card]
  simp only [counted_eq_inRead h free]

end Consequences

section Progress

variable {l : RwLock T} {pos : T → Pos} {t : T}

/-- The thread is not blocked: it runs code of its own or its next operation is possible. -/
def Runs (l : RwLock T) (pos : T → Pos) (t : T) : Prop :=
  pos t ≠ .out ∧ ((pos t).inLock = false ∨ (rwStep l t (pos t)).isSome = true)

omit [Fintype T] in
private theorem runs_of_holdsWrite (write : (pos t).holdsWrite = true) : Runs l pos t := by
  cases hp : pos t <;> rw [hp] at write <;> cases write
  · exact ⟨by simp [hp], .inl (by rw [hp]; rfl)⟩
  · exact ⟨by simp [hp], .inr (by rw [hp]; rfl)⟩

private theorem someone_runs_beside_holder (h : Inv l pos) (held : (pos t).holdsMutex = true) :
    ∃ u, Runs l pos u := by
  by_cases waits : pos t = .rlockWait ∧ l.sem = 0
  · obtain ⟨first, taken⟩ := waits
    have single := h.first t first
    -- the only counted reader has not got the semaphore yet, so a writer has it
    have group : count Pos.holdsGroup pos = 0 := by
      refine count_eq_zero_iff.mpr fun u => ?_
      by_contra inGroup
      have other : u ≠ t := by
        rintro rfl
        rw [first] at inGroup
        exact inGroup rfl
      have counted : (pos u).isCounted = true := by
        by_contra uncounted
        refine other (h.holder_unique held ?_)
        cases hp : pos u <;> rw [hp] at inGroup uncounted <;> simp_all [Pos.holdsGroup,
          Pos.isCounted, Pos.holdsMutex]
      have moved := count_update Pos.isCounted pos t .out
      have rest : 1 ≤ count Pos.isCounted (Function.update pos t .out) :=
        one_le_count (i := u) (by rwa [Function.update_of_ne other])
      have all := h.counted
      rw [first] at moved
      simp only [Pos.isCounted, Bool.toNat_true, Bool.toNat_false] at moved
      omega
    have balance := h.balance
    obtain ⟨w, write⟩ := count_pos_iff.mp (show 0 < count Pos.holdsWrite pos by omega)
    exact ⟨w, runs_of_holdsWrite write⟩
  · have noWait := h.noWait t
    refine ⟨t, ?_, .inr ?_⟩
    · intro out
      rw [out] at held
      cases held
    · cases hp : pos t <;> rw [hp] at held noWait waits <;>
        simp [Pos.holdsMutex, Pos.inWait] at held noWait
      case rlockTest | runlockTest =>
        simp only [rwStep]
        split <;> rfl
      case rlockWait =>
        have available : 0 < l.sem := Nat.pos_of_ne_zero fun zero => waits ⟨rfl, zero⟩
        simp [rwStep, available]
      all_goals rfl

theorem someone_runs (h : Inv l pos) (inside : pos t ≠ .out) : ∃ u, Runs l pos u := by
  have needs_mutex {u : T} (at_lock : pos u ≠ .out)
      (next : l.mLock = none → (rwStep l u (pos u)).isSome = true) : ∃ v, Runs l pos v := by
    cases hm : l.mLock with
    | none => exact ⟨u, at_lock, .inr (next hm)⟩
    | some v => exact someone_runs_beside_holder h ((h.mutex v).mpr hm)
  by_cases held : (pos t).holdsMutex = true
  · exact someone_runs_beside_holder h held
  have noWait := h.noWait t
  cases hp : pos t <;> rw [hp] at held inside noWait <;>
    simp [Pos.holdsMutex, Pos.inWait] at held noWait
  case out => exact absurd rfl inside
  case rlockLock | runlockLock =>
    exact needs_mutex (u := t) (by simp [hp]) fun free => by simp [hp, rwStep, free]
  case reading | writing => exact ⟨t, by simp [hp], .inl (by rw [hp]; rfl)⟩
  case wunlockPost | wunlockBroadcast => exact ⟨t, by simp [hp], .inr (by rw [hp]; rfl)⟩
  case wlockWait =>
    by_cases available : 0 < l.sem
    · exact ⟨t, by simp [hp], .inr (by simp [hp, rwStep, available])⟩
    have balance := h.balance
    by_cases writer : 0 < count Pos.holdsWrite pos
    · obtain ⟨w, write⟩ := count_pos_iff.mp writer
      exact ⟨w, runs_of_holdsWrite write⟩
    obtain ⟨g, group⟩ := count_pos_iff.mp (show 0 < count Pos.holdsGroup pos by omega)
    by_cases holder : (pos g).holdsMutex = true
    · exact someone_runs_beside_holder h holder
    have free := h.noWait g
    cases hg : pos g <;> rw [hg] at group holder free <;>
      simp [Pos.holdsMutex, Pos.holdsGroup, Pos.inWait] at group holder free
    case reading => exact ⟨g, by simp [hg], .inl (by rw [hg]; rfl)⟩
    case runlockLock =>
      exact needs_mutex (u := g) (by simp [hg]) fun free => by simp [hg, rwStep, free]

end Progress

/-- No writer is inside its section together with another writer or a reader, the semaphore is 0
or 1 and is 1 exactly when nobody has it, and a free mutex means the counter is exact. -/
theorem section_exclusion (s : LockState T) (h : (lockSystem T).Reach sectionsOnly s) :
    (∀ t u, u ≠ t → (s.pos t).inWrite = true →
      (s.pos u).inWrite = false ∧ (s.pos u).inRead = false) ∧
    s.lock.sem ≤ 1 ∧
    (s.lock.sem = 1 ↔
      (∀ t, (s.pos t).holdsWrite = false) ∧ ∀ t, (s.pos t).holdsGroup = false) ∧
    (s.lock.mLock = none →
      s.lock.nReaders = (Finset.univ.filter fun t => (s.pos t).inRead = true).card) := by
  have inv := reach_inv h
  refine ⟨fun t u ne write => ?_, ?_, sem_free_iff inv, readers_eq_card inv⟩
  · obtain ⟨single, nobody⟩ := writer_alone inv write ne
    refine ⟨single, ?_⟩
    by_contra read
    exact absurd (group_of_inRead (by simpa using read)) (by simp [nobody])
  · have := inv.balance
    omega

private def mixedRun : List (LockLabel (Fin 3)) :=
  [.enter 0 .rlock, .go 0, .go 0, .go 0, .go 0, .go 0, .enter 1 .rlock, .go 1, .enter 2 .wlock]

theorem section_exclusion_mixed : ∃ s : LockState (Fin 3),
    s.pos 0 = .reading ∧ s.pos 1 = .rlockInc ∧ s.pos 2 = .wlockWait ∧ s.lock.sem = 0 ∧
    (∀ t u, u ≠ t → (s.pos t).inWrite = true →
      (s.pos u).inWrite = false ∧ (s.pos u).inRead = false) := by
  have reached : (lockSystem (Fin 3)).Reach sectionsOnly _ :=
    System.path_of_run mixedRun (by simp [mixedRun, sectionsOnly]) rfl
  exact ⟨_, rfl, rfl, rfl, rfl, (section_exclusion _ reached).1⟩

end DistributedClipboard.Thread.Sections
