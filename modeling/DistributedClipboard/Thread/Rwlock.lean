/- module: DistributedClipboard/Thread/Rwlock
   source: src/src/thread/rwlock.c
   layer: model
   digest: The readers/writer lock one mutex or semaphore operation at a time, and its invariant. -/

import DistributedClipboard.Lib.Counting
import DistributedClipboard.Lib.Transition

set_option autoImplicit false
set_option relaxedAutoImplicit false

namespace DistributedClipboard.Thread.Rwlock

open DistributedClipboard.Lib.Counting
open DistributedClipboard.Lib.Transition

universe u

/-- `struct rw_lock_`. The mutex is its holder, `n_readers` is far below the range of `unsigned`.
`readers` is a ghost: the increments of `n_readers` that each thread has not taken back. -/
structure RwLock (T : Type u) where
  mLock : Option T
  sem : Nat
  nReaders : Nat
  readers : T → Nat

/-- `rw_lock_init`: nobody holds the mutex and the semaphore starts at 1. -/
def rwLockInit {T : Type u} : RwLock T := ⟨none, 1, 0, fun _ => 0⟩

/-- Where a thread stands with respect to one lock: before which operation of which function,
inside a section, or outside. The condition `update` is the set of threads at `waitBlocked`. -/
inductive Pos
  | out
  | rlockLock | rlockInc | rlockTest | rlockWait | rlockUnlock
  | reading
  | runlockLock | runlockDec | runlockTest | runlockPost | runlockUnlock
  | wlockWait
  | writing
  | wunlockPost | wunlockBroadcast
  | waitRelease | waitBlocked | waitInc | waitTest | waitSem | waitUnlock
  deriving DecidableEq, Repr

def Pos.inLock : Pos → Bool
  | .out | .reading | .writing => false
  | _ => true

/-- The thread's increment of `n_readers` is in place. -/
def Pos.isCounted : Pos → Bool
  | .rlockTest | .rlockWait | .rlockUnlock | .reading | .runlockLock | .runlockDec
  | .waitRelease | .waitBlocked | .waitInc | .waitTest | .waitSem | .waitUnlock => true
  | _ => false

/-- The thread has locked `m_lock` and not yet unlocked it. -/
def Pos.holdsMutex : Pos → Bool
  | .rlockInc | .rlockTest | .rlockWait | .rlockUnlock
  | .runlockDec | .runlockTest | .runlockPost | .runlockUnlock
  | .waitInc | .waitTest | .waitSem | .waitUnlock => true
  | _ => false

/-- The thread is a reader for which the group has the semaphore. -/
def Pos.holdsGroup : Pos → Bool
  | .rlockUnlock | .reading | .runlockLock | .runlockDec | .runlockTest | .runlockPost
  | .waitRelease | .waitBlocked | .waitInc | .waitTest | .waitSem | .waitUnlock => true
  | _ => false

/-- The thread is a writer that has the semaphore. -/
def Pos.holdsWrite : Pos → Bool
  | .writing | .wunlockPost => true
  | _ => false

/-- The thread is inside `rw_lock_wait_update`. -/
def Pos.inWait : Pos → Bool
  | .waitRelease | .waitBlocked | .waitInc | .waitTest | .waitSem | .waitUnlock => true
  | _ => false

/-- The read section: `rw_lock_rlock` is over and `rw_lock_runlock` has not yet taken the mutex. -/
def Pos.inRead : Pos → Bool
  | .reading | .runlockLock => true
  | _ => false

/-- The write section: from the return of `rw_lock_wlock` to the post of `rw_lock_wunlock`. -/
def Pos.inWrite : Pos → Bool := Pos.holdsWrite

section Step

variable {T : Type u} [DecidableEq T]

namespace RwLock

def lockMutex (l : RwLock T) (t : T) : RwLock T := { l with mLock := some t }
def unlockMutex (l : RwLock T) : RwLock T := { l with mLock := none }
def semWait (l : RwLock T) : RwLock T := { l with sem := l.sem - 1 }
def semPost (l : RwLock T) : RwLock T := { l with sem := l.sem + 1 }

/-- `lock->n_readers++` -/
def incReaders (l : RwLock T) (t : T) : RwLock T :=
  { l with nReaders := l.nReaders + 1, readers := Function.update l.readers t (l.readers t + 1) }

/-- `lock->n_readers--` -/
def decReaders (l : RwLock T) (t : T) : RwLock T :=
  { l with nReaders := l.nReaders - 1, readers := Function.update l.readers t (l.readers t - 1) }

end RwLock

open RwLock

/-- The next operation of thread `t` inside the lock's functions; `none` when it is blocked. -/
def rwStep (l : RwLock T) (t : T) : Pos → Option (RwLock T × Pos)
  -- rw_lock_rlock
  | .rlockLock => if l.mLock = none then some (l.lockMutex t, .rlockInc) else none
  | .rlockInc => some (l.incReaders t, .rlockTest)
  | .rlockTest => if l.nReaders = 1 then some (l, .rlockWait) else some (l, .rlockUnlock)
  | .rlockWait => if 0 < l.sem then some (l.semWait, .rlockUnlock) else none
  | .rlockUnlock => some (l.unlockMutex, .reading)
  -- rw_lock_runlock
  | .runlockLock => if l.mLock = none then some (l.lockMutex t, .runlockDec) else none
  | .runlockDec => some (l.decReaders t, .runlockTest)
  | .runlockTest => if l.nReaders = 0 then some (l, .runlockPost) else some (l, .runlockUnlock)
  | .runlockPost => some (l.semPost, .runlockUnlock)
  | .runlockUnlock => some (l.unlockMutex, .out)
  -- rw_lock_wlock
  | .wlockWait => if 0 < l.sem then some (l.semWait, .writing) else none
  -- rw_lock_wunlock
  | .wunlockPost => some (l.semPost, .wunlockBroadcast)
  | .wunlockBroadcast => some (l, .out)
  -- rw_lock_wait_update: the wait releases m_lock whoever holds it, and a wake-up, signalled or
  -- spurious, takes it again
  | .waitRelease => some (l.unlockMutex, .waitBlocked)
  | .waitBlocked => if l.mLock = none then some (l.lockMutex t, .waitInc) else none
  | .waitInc => some (l.incReaders t, .waitTest)
  | .waitTest => if l.nReaders = 1 then some (l, .waitSem) else some (l, .waitUnlock)
  | .waitSem => if 0 < l.sem then some (l.semWait, .waitUnlock) else none
  | .waitUnlock => some (l.unlockMutex, .reading)
  | .out | .reading | .writing => none

inductive Fn
  | rlock | runlock | wlock | wunlock | waitUpdate
  deriving DecidableEq, Repr

def entry : Fn → Pos → Option Pos
  | .rlock, .out => some .rlockLock
  | .runlock, .reading => some .runlockLock
  | .wlock, .out => some .wlockWait
  | .wunlock, .writing => some .wunlockPost
  | .waitUpdate, .reading => some .waitRelease
  | _, _ => none

def Pos.fn? : Pos → Option Fn
  | .out | .reading | .writing => none
  | .rlockLock | .rlockInc | .rlockTest | .rlockWait | .rlockUnlock => some .rlock
  | .runlockLock | .runlockDec | .runlockTest | .runlockPost | .runlockUnlock => some .runlock
  | .wlockWait => some .wlock
  | .wunlockPost | .wunlockBroadcast => some .wunlock
  | .waitRelease | .waitBlocked | .waitInc | .waitTest | .waitSem | .waitUnlock => some .waitUpdate

def Fn.exit : Fn → Pos
  | .rlock | .waitUpdate => .reading
  | .wlock => .writing
  | .runlock | .wunlock => .out

theorem rwStep_stays {l l' : RwLock T} {t : T} {p p' : Pos} (edge : rwStep l t p = some (l', p')) :
    ∃ f, p.fn? = some f ∧ (p'.fn? = some f ∨ p' = f.exit) := by
  cases p <;> simp only [rwStep, Option.ite_none_right_eq_some, reduceCtorEq] at edge
  case rlockTest | runlockTest | waitTest =>
    split at edge <;> cases edge <;> simp [Pos.fn?]
  case rlockLock | rlockWait | runlockLock | wlockWait | waitBlocked | waitSem =>
    obtain ⟨_, edge⟩ := edge
    cases edge
    simp [Pos.fn?, Fn.exit]
  all_goals
    cases edge
    simp [Pos.fn?, Fn.exit]

/-- `left` is a ghost: how often a caller has gone away from its read section without unlocking. -/
structure LockState (T : Type u) where
  lock : RwLock T
  pos : T → Pos
  left : Nat

inductive LockLabel (T : Type u)
  | enter (t : T) (f : Fn)
  | go (t : T)
  | leave (t : T)

def LockState.move (s : LockState T) (t : T) (l : RwLock T) (p : Pos) : LockState T :=
  ⟨l, Function.update s.pos t p, s.left⟩

def lockStep (s : LockState T) : LockLabel T → Option (LockState T)
  | .enter t f => (entry f (s.pos t)).map fun p => s.move t s.lock p
  | .go t => (rwStep s.lock t (s.pos t)).map fun r => s.move t r.1 r.2
  | .leave t =>
    if s.pos t = .reading then some { s.move t s.lock .out with left := s.left + 1 } else none

/-- Threads that call the functions of one lock, each operation a separate step. -/
def lockSystem (T : Type u) [DecidableEq T] : System (LockState T) (LockLabel T) where
  init := ⟨rwLockInit, fun _ => .out, 0⟩
  step := lockStep

/-- Threads run `rlock..runlock` and `wlock..wunlock` sections only. -/
def sectionsOnly : LockState T → LockLabel T → Prop
  | _, .enter _ f => f ≠ .waitUpdate
  | _, .go _ => True
  | _, .leave _ => False

end Step

structure Inv {T : Type u} [Fintype T] (l : RwLock T) (pos : T → Pos) : Prop where
  mutex : ∀ t, (pos t).holdsMutex = true ↔ l.mLock = some t
  counted : l.nReaders = count Pos.isCounted pos
  own : ∀ t, l.readers t = (pos t).isCounted.toNat
  balance : l.sem + count Pos.holdsWrite pos + min 1 (count Pos.holdsGroup pos) = 1
  posting : ∀ t, pos t = .runlockPost → l.nReaders = 0
  first : ∀ t, pos t = .rlockWait → l.nReaders = 1
  noWait : ∀ t, (pos t).inWait = false

section Invariant

variable {T : Type u} [Fintype T] {l l' : RwLock T} {pos : T → Pos} {t u : T} {p : Pos}

private theorem group_of_counted (counted : p.isCounted = true) (free : p.holdsMutex = false) :
    p.holdsGroup = true := by
  cases p <;> simp_all [Pos.isCounted, Pos.holdsMutex, Pos.holdsGroup]

private theorem mutex_of_group (group : p.holdsGroup = true) (uncounted : p.isCounted = false) :
    p.holdsMutex = true := by
  cases p <;> simp_all [Pos.isCounted, Pos.holdsMutex, Pos.holdsGroup]

theorem inv_init : Inv (rwLockInit : RwLock T) (fun _ => .out) where
  mutex := by simp [Pos.holdsMutex, rwLockInit]
  counted := (count_eq_zero_iff.mpr fun _ => rfl).symm
  own := by simp [rwLockInit, Pos.isCounted]
  balance := by
    rw [count_eq_zero_iff.mpr (fun _ => rfl), count_eq_zero_iff.mpr (fun _ => rfl)]
    rfl
  posting := by simp
  first := by simp
  noWait := by simp [Pos.inWait]

theorem Inv.holder_unique (h : Inv l pos) (ht : (pos t).holdsMutex = true)
    (hu : (pos u).holdsMutex = true) : u = t := by
  have := ((h.mutex t).mp ht).symm.trans ((h.mutex u).mp hu)
  exact (Option.some.inj this).symm

theorem Inv.group_beside_holder (h : Inv l pos) (ht : (pos t).holdsMutex = true) (ne : u ≠ t)
    (counted : (pos u).isCounted = true) : (pos u).holdsGroup = true := by
  refine group_of_counted counted ?_
  by_contra held
  exact ne (h.holder_unique ht (by simpa using held))

private theorem mutex_same (h : Inv l pos) (lock : l'.mLock = l.mLock)
    (held : p.holdsMutex = (pos t).holdsMutex) :
    (p.holdsMutex = true ↔ l'.mLock = some t) ∧
      ∀ u, u ≠ t → (l'.mLock = some u ↔ l.mLock = some u) := by
  rw [lock, held]
  exact ⟨h.mutex t, fun _ _ => Iff.rfl⟩

omit [Fintype T] in
private theorem mutex_taken (free : l.mLock = none) (held : p.holdsMutex = true) :
    (p.holdsMutex = true ↔ (l.lockMutex t).mLock = some t) ∧
      ∀ u, u ≠ t → ((l.lockMutex t).mLock = some u ↔ l.mLock = some u) := by
  refine ⟨by simp [held, RwLock.lockMutex], fun u ne => ?_⟩
  simp [RwLock.lockMutex, free, Ne.symm ne]

private theorem mutex_released (h : Inv l pos) (holder : (pos t).holdsMutex = true)
    (held : p.holdsMutex = false) :
    (p.holdsMutex = true ↔ l.unlockMutex.mLock = some t) ∧
      ∀ u, u ≠ t → (l.unlockMutex.mLock = some u ↔ l.mLock = some u) := by
  refine ⟨by simp [held, RwLock.unlockMutex], fun u ne => ?_⟩
  rw [(h.mutex t).mp holder]
  simp [RwLock.unlockMutex, Ne.symm ne]

variable [DecidableEq T]

private theorem Inv.move (h : Inv l pos)
    (mutex : (p.holdsMutex = true ↔ l'.mLock = some t) ∧
      ∀ u, u ≠ t → (l'.mLock = some u ↔ l.mLock = some u))
    (counted : l'.nReaders + (pos t).isCounted.toNat = l.nReaders + p.isCounted.toNat)
    (own : l'.readers t = p.isCounted.toNat)
    (others : ∀ u, u ≠ t → l'.readers u = l.readers u)
    (balance : l'.sem + count Pos.holdsWrite (Function.update pos t p) +
      min 1 (count Pos.holdsGroup (Function.update pos t p)) = 1)
    (posting : p = .runlockPost → l'.nReaders = 0)
    (first : p = .rlockWait → l'.nReaders = 1)
    (alone : l'.nReaders = l.nReaders ∨ (pos t).holdsMutex = true)
    (noWait : p.inWait = false) : Inv l' (Function.update pos t p) where
  mutex u := by
    by_cases eq : u = t
    · subst eq
      simpa using mutex.1
    · rw [Function.update_of_ne eq, mutex.2 u eq]
      exact h.mutex u
  counted := by
    have := count_update Pos.isCounted pos t p
    have := h.counted
    omega
  own u := by
    by_cases eq : u = t
    · subst eq
      simpa using own
    · rw [Function.update_of_ne eq, others u eq]
      exact h.own u
  balance := balance
  posting u hu := by
    by_cases eq : u = t
    · subst eq
      exact posting (by simpa using hu)
    · rw [Function.update_of_ne eq] at hu
      rcases alone with same | holder
      · rw [same]
        exact h.posting u hu
      · exact absurd (h.holder_unique holder (by rw [hu]; rfl)) eq
  first u hu := by
    by_cases eq : u = t
    · subst eq
      exact first (by simpa using hu)
    · rw [Function.update_of_ne eq] at hu
      rcases alone with same | holder
      · rw [same]
        exact h.first u hu
      · exact absurd (h.holder_unique holder (by rw [hu]; rfl)) eq
  noWait u := by
    by_cases eq : u = t
    · subst eq
      simpa using noWait
    · rw [Function.update_of_ne eq]
      exact h.noWait u

private theorem counts_move {q : Pos} (at_q : pos t = q) (p : Pos) :
    count Pos.holdsWrite (Function.update pos t p) + q.holdsWrite.toNat =
        count Pos.holdsWrite pos + p.holdsWrite.toNat ∧
      count Pos.holdsGroup (Function.update pos t p) + q.holdsGroup.toNat =
        count Pos.holdsGroup pos + p.holdsGroup.toNat := by
  subst at_q
  exact ⟨count_update _ _ _ _, count_update _ _ _ _⟩

private theorem Inv.group_beside_later (h : Inv l pos) (ht : (pos t).holdsMutex = true)
    (more : (pos t).isCounted.toNat < l.nReaders) :
    ∃ u, u ≠ t ∧ (pos u).holdsGroup = true := by
  have moved := count_update Pos.isCounted pos t .out
  have rest : 0 < count Pos.isCounted (Function.update pos t .out) := by
    have := h.counted
    rw [show Pos.out.isCounted.toNat = 0 from rfl] at moved
    omega
  obtain ⟨u, hu⟩ := count_pos_iff.mp rest
  by_cases eq : u = t
  · subst eq
    simp [Pos.isCounted] at hu
  · rw [Function.update_of_ne eq] at hu
    exact ⟨u, eq, h.group_beside_holder ht eq hu⟩

private theorem Inv.group_alone (h : Inv l pos) (ht : (pos t).holdsMutex = true)
    (none_left : l.nReaders = 0) : count Pos.holdsGroup (Function.update pos t .runlockUnlock) = 0 := by
  refine count_eq_zero_iff.mpr fun u => ?_
  by_cases eq : u = t
  · subst eq
    simp [Pos.holdsGroup]
  · rw [Function.update_of_ne eq]
    have uncounted : (pos u).isCounted = false :=
      count_eq_zero_iff.mp (h.counted.symm.trans none_left) u
    by_contra group
    exact eq (h.holder_unique ht (mutex_of_group (by simpa using group) uncounted))

private theorem balance_same (h : Inv l pos) (sem : l'.sem = l.sem)
    (write : p.holdsWrite = (pos t).holdsWrite) (group : p.holdsGroup = (pos t).holdsGroup) :
    l'.sem + count Pos.holdsWrite (Function.update pos t p) +
      min 1 (count Pos.holdsGroup (Function.update pos t p)) = 1 := by
  obtain ⟨hw, hg⟩ := counts_move (show pos t = pos t from rfl) p
  rw [write] at hw
  rw [group] at hg
  have := h.balance
  omega

private theorem Inv.shift (h : Inv l pos)
    (mutex : (p.holdsMutex = true ↔ l'.mLock = some t) ∧
      ∀ u, u ≠ t → (l'.mLock = some u ↔ l.mLock = some u))
    (nReaders : l'.nReaders = l.nReaders) (readers : l'.readers = l.readers)
    (sem : l'.sem = l.sem)
    (part : p.isCounted = (pos t).isCounted ∧ p.holdsWrite = (pos t).holdsWrite ∧
      p.holdsGroup = (pos t).holdsGroup)
    (posting : p = .runlockPost → l.nReaders = 0) (first : p = .rlockWait → l.nReaders = 1)
    (noWait : p.inWait = false) : Inv l' (Function.update pos t p) := by
  refine h.move mutex (by rw [nReaders, part.1]) ?_ (fun u _ => by rw [readers])
    (balance_same h sem part.2.1 part.2.2) (by rwa [nReaders]) (by rwa [nReaders])
    (.inl nReaders) noWait
  rw [readers, part.1]
  exact h.own t

theorem Inv.step (h : Inv l pos) (edge : rwStep l t (pos t) = some (l', p)) :
    Inv l' (Function.update pos t p) := by
  have own := h.own t
  have wait := h.noWait t
  have balance := h.balance
  cases hp : pos t <;> rw [hp] at edge own wait
  case rlockLock =>
    simp only [rwStep, Option.ite_none_right_eq_some] at edge
    obtain ⟨free, edge⟩ := edge
    cases edge
    exact h.shift (mutex_taken free rfl) rfl rfl rfl (by rw [hp]; decide) (by simp) (by simp) rfl
  case rlockInc =>
    cases edge
    refine h.move (mutex_same h rfl (by rw [hp]; rfl)) (by rw [hp]; rfl) ?_ ?_
      (balance_same h rfl ?_ ?_) ?_ ?_ (.inr (by rw [hp]; rfl)) rfl
    · simp [RwLock.incReaders, own, Pos.isCounted]
    · intro u ne
      simp [RwLock.incReaders, ne]
    all_goals simp [hp, Pos.holdsWrite, Pos.holdsGroup]
  case rlockTest =>
    simp only [rwStep] at edge
    split at edge <;> cases edge
    · rename_i only
      exact h.shift (mutex_same h rfl (by rw [hp]; rfl)) rfl rfl rfl (by rw [hp]; decide) (by simp)
        (fun _ => only) rfl
    · rename_i more
      -- a reader that is not the first joins a group that has the semaphore already
      have counted : 1 ≤ l.nReaders := h.counted ▸ one_le_count (i := t) (by rw [hp]; rfl)
      obtain ⟨u, _, hu⟩ := h.group_beside_later (t := t) (by rw [hp]; rfl) (by
        rw [hp, show Pos.rlockTest.isCounted.toNat = 1 from rfl]
        omega)
      have group := one_le_count hu
      obtain ⟨hw, hg⟩ := counts_move hp .rlockUnlock
      refine h.move (mutex_same h rfl (by rw [hp]; rfl)) (by rw [hp]; rfl) own (fun _ _ => rfl)
        ?_ (by simp) (by simp) (.inl rfl) rfl
      simp only [Pos.holdsWrite, Pos.holdsGroup, Bool.toNat_false, Bool.toNat_true] at hw hg
      omega
  case rlockWait =>
    simp only [rwStep, Option.ite_none_right_eq_some] at edge
    obtain ⟨available, edge⟩ := edge
    cases edge
    obtain ⟨hw, hg⟩ := counts_move hp .rlockUnlock
    refine h.move (mutex_same h rfl (by rw [hp]; rfl)) (by rw [hp]; rfl) own (fun _ _ => rfl)
      ?_ (by simp) (by simp) (.inl rfl) rfl
    simp only [Pos.holdsWrite, Pos.holdsGroup, Bool.toNat_false, Bool.toNat_true] at hw hg
    simp only [RwLock.semWait]
    omega
  case rlockUnlock =>
    cases edge
    exact h.shift (mutex_released h (by rw [hp]; rfl) rfl) rfl rfl rfl (by rw [hp]; decide)
      (by simp) (by simp) rfl
  case runlockLock =>
    simp only [rwStep, Option.ite_none_right_eq_some] at edge
    obtain ⟨free, edge⟩ := edge
    cases edge
    exact h.shift (mutex_taken free rfl) rfl rfl rfl (by rw [hp]; decide) (by simp) (by simp) rfl
  case runlockDec =>
    cases edge
    have counted : 1 ≤ l.nReaders := h.counted ▸ one_le_count (i := t) (by rw [hp]; rfl)
    refine h.move (mutex_same h rfl (by rw [hp]; rfl)) ?_ ?_ ?_
      (balance_same h rfl ?_ ?_) ?_ ?_ (.inr (by rw [hp]; rfl)) rfl
    · rw [hp]
      simp only [RwLock.decReaders, Pos.isCounted, Bool.toNat_true, Bool.toNat_false]
      omega
    · simp [RwLock.decReaders, own, Pos.isCounted]
    · intro u ne
      simp [RwLock.decReaders, ne]
    all_goals simp [hp, Pos.holdsWrite, Pos.holdsGroup]
  case runlockTest =>
    simp only [rwStep] at edge
    split at edge <;> cases edge
    · rename_i last
      exact h.shift (mutex_same h rfl (by rw [hp]; rfl)) rfl rfl rfl (by rw [hp]; decide)
        (fun _ => last) (by simp) rfl
    · rename_i left
      -- the readers still counted keep the semaphore for the group
      obtain ⟨u, ne, hu⟩ := h.group_beside_later (t := t) (by rw [hp]; rfl) (by
        rw [hp, show Pos.runlockTest.isCounted.toNat = 0 from rfl]
        omega)
      have group : 1 ≤ count Pos.holdsGroup (Function.update pos t .runlockUnlock) :=
        one_le_count (i := u) (by rwa [Function.update_of_ne ne])
      obtain ⟨hw, hg⟩ := counts_move hp .runlockUnlock
      refine h.move (mutex_same h rfl (by rw [hp]; rfl)) (by rw [hp]; rfl) own (fun _ _ => rfl)
        ?_ (by simp) (by simp) (.inl rfl) rfl
      simp only [Pos.holdsWrite, Pos.holdsGroup, Bool.toNat_false, Bool.toNat_true] at hw hg
      omega
  case runlockPost =>
    cases edge
    have alone := h.group_alone (t := t) (by rw [hp]; rfl) (h.posting t hp)
    obtain ⟨hw, hg⟩ := counts_move hp .runlockUnlock
    refine h.move (mutex_same h rfl (by rw [hp]; rfl)) (by rw [hp]; rfl) own (fun _ _ => rfl)
      ?_ (by simp) (by simp) (.inl rfl) rfl
    simp only [Pos.holdsWrite, Pos.holdsGroup, Bool.toNat_false, Bool.toNat_true] at hw hg
    simp only [RwLock.semPost]
    omega
  case runlockUnlock =>
    cases edge
    exact h.shift (mutex_released h (by rw [hp]; rfl) rfl) rfl rfl rfl (by rw [hp]; decide)
      (by simp) (by simp) rfl
  case wlockWait =>
    simp only [rwStep, Option.ite_none_right_eq_some] at edge
    obtain ⟨available, edge⟩ := edge
    cases edge
    obtain ⟨hw, hg⟩ := counts_move hp .writing
    refine h.move (mutex_same h rfl (by rw [hp]; rfl)) (by rw [hp]; rfl) own (fun _ _ => rfl)
      ?_ (by simp) (by simp) (.inl rfl) rfl
    simp only [Pos.holdsWrite, Pos.holdsGroup, Bool.toNat_false, Bool.toNat_true] at hw hg
    simp only [RwLock.semWait]
    omega
  case wunlockPost =>
    cases edge
    obtain ⟨hw, hg⟩ := counts_move hp .wunlockBroadcast
    refine h.move (mutex_same h rfl (by rw [hp]; rfl)) (by rw [hp]; rfl) own (fun _ _ => rfl)
      ?_ (by simp) (by simp) (.inl rfl) rfl
    simp only [Pos.holdsWrite, Pos.holdsGroup, Bool.toNat_false, Bool.toNat_true] at hw hg
    simp only [RwLock.semPost]
    omega
  case wunlockBroadcast =>
    cases edge
    exact h.shift (mutex_same h rfl (by rw [hp]; rfl)) rfl rfl rfl (by rw [hp]; decide)
      (by simp) (by simp) rfl
  all_goals first
    | exact absurd wait (by decide)
    | cases edge

theorem Inv.enter {f : Fn} (h : Inv l pos) (call : entry f (pos t) = some p)
    (sections : f ≠ .waitUpdate) : Inv l (Function.update pos t p) := by
  cases f <;> cases hp : pos t <;> rw [hp] at call <;> cases call
  case waitUpdate.reading => exact absurd rfl sections
  all_goals
    exact h.shift (mutex_same h rfl (by rw [hp]; rfl)) rfl rfl rfl (by rw [hp]; decide)
      (by simp) (by simp) rfl

end Invariant

end DistributedClipboard.Thread.Rwlock
