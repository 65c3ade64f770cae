/- module: DistributedClipboard/Mem/TornCounts
   source: src/src/mem/clmem.c, src/src/thread/rwlock.c
   layer: refinement
   digest: The updates of `n_readers` as a load and a store, and the runs in which nobody comes between. -/

import DistributedClipboard.Lib.Simulation
import DistributedClipboard.Mem.LockView

set_option autoImplicit false
set_option relaxedAutoImplicit false

namespace DistributedClipboard.Mem.TornCounts

open DistributedClipboard.Common
open DistributedClipboard.Lib.Transition
open DistributedClipboard.Mem.LockView
open DistributedClipboard.Mem.Threads
open DistributedClipboard.Thread.Rwlock

universe u

/-- The memory, and what each thread in the middle of `n_readers++` or `n_readers--` has read. -/
structure Torn (T : Type u) where
  mem : State T
  loaded : T → Option Nat

/-- The thread is at an update of `n_readers`. -/
def updates : Pos → Bool
  | .rlockInc | .runlockDec | .waitInc => true
  | _ => false

/-- What is written to `n_readers` where `n` was read. -/
def stored (p : Pos) (n : Nat) : Nat :=
  match p with
  | .runlockDec => n - 1
  | _ => n + 1

section Step

variable {T : Type u} [DecidableEq T]

def setReaders (s : State T) (r : Region) (n : Nat) : State T :=
  s.setZone r { s.zones r with lock := { (s.zones r).lock with nReaders := n } }

/-- A step of the memory in which an update of `n_readers` is a load and then a store of what was
loaded, whatever others have stored meanwhile. -/
def tornStep (s : Torn T) : Label T → Option (Torn T)
  | .call t c => (memStep s.mem (.call t c)).map fun m => { s with mem := m }
  | .step t k =>
    let th := s.mem.threads t
    if updates th.pos then
      match s.loaded t with
      | none => some { s with
          loaded := Function.update s.loaded t (some (s.mem.zones th.region).lock.nReaders) }
      | some n => (memStep s.mem (.step t k)).map fun m =>
          ⟨setReaders m th.region (stored th.pos n), Function.update s.loaded t none⟩
    else (memStep s.mem (.step t k)).map fun m => { s with mem := m }

def tornSystem (T : Type u) [DecidableEq T] : System (Torn T) (Label T) where
  init := ⟨(memSystem T).init, fun _ => none⟩
  step := tornStep

/-- A caller goes to sleep only when nobody holds the mutex of its region, which
`pthread_cond_wait` would give away, and `n_readers` does not come to its end. -/
def calm (s : Torn T) : Label T → Prop
  | .call _ _ => True
  | .step t _ =>
    let lock := (s.mem.zones (s.mem.threads t).region).lock
    ((s.mem.threads t).pos = .waitRelease → lock.mLock = none) ∧ lock.nReaders + 1 < 2 ^ 32

/-- The steps of a run that are calm and that the memory admits. -/
def calmly (ok : State T → Label T → Prop) (s : Torn T) (a : Label T) : Prop :=
  calm s a ∧ ok s.mem a

instance (s : Torn T) (a : Label T) : Decidable (calm s a) := by
  cases a <;> unfold calm <;> infer_instance

end Step

section Mutex

variable {T : Type u} [DecidableEq T] {s s' : State T} {t u : T}

def Holds (s : State T) : Prop :=
  ∀ t, (s.threads t).pos.holdsMutex = true → (s.zones (s.threads t).region).lock.mLock = some t

theorem rwStep_mutex {l l' : RwLock T} {p p' : Pos} (edge : rwStep l t p = some (l', p'))
    (held : p.holdsMutex = true → l.mLock = some t) (asleep : p = .waitRelease → l.mLock = none) :
    (p'.holdsMutex = true → l'.mLock = some t) ∧
      ∀ u, u ≠ t → l.mLock = some u → l'.mLock = some u := by
  cases p <;> simp only [rwStep, Option.ite_none_right_eq_some, reduceCtorEq] at edge
  case rlockTest | runlockTest | waitTest =>
    split at edge <;> cases edge <;> simp_all [Pos.holdsMutex]
  case rlockLock | rlockWait | runlockLock | wlockWait | waitBlocked | waitSem =>
    obtain ⟨_, edge⟩ := edge
    cases edge
    simp_all [Pos.holdsMutex, RwLock.lockMutex, RwLock.semWait]
  case rlockUnlock | runlockUnlock | waitUnlock =>
    cases edge
    have mine := held rfl
    exact ⟨by simp [Pos.holdsMutex], fun u other same =>
      absurd (Option.some.inj (same.symm.trans mine)) other⟩
  all_goals
    cases edge
    simp_all [Pos.holdsMutex, RwLock.unlockMutex, RwLock.incReaders, RwLock.decReaders,
      RwLock.semPost]

theorem updates_inside {p : Pos} (busy : updates p = true) :
    p.inLock = true ∧ p.holdsMutex = true := by
  cases p <;> first | exact ⟨rfl, rfl⟩ | cases busy

theorem rwStep_count {l l' : RwLock T} {p p' : Pos} (edge : rwStep l t p = some (l', p')) :
    l'.nReaders = if updates p then stored p l.nReaders else l.nReaders := by
  cases p <;> simp only [rwStep, Option.ite_none_right_eq_some, reduceCtorEq] at edge
  case rlockTest | runlockTest | waitTest =>
    split at edge <;> cases edge <;> rfl
  case rlockLock | rlockWait | runlockLock | wlockWait | waitBlocked | waitSem =>
    obtain ⟨_, edge⟩ := edge
    cases edge
    rfl
  all_goals
    cases edge
    rfl

attribute [local simp] State.setThread State.setZone

theorem memStep_lock {a : Label T} (fit : Fits s) (edge : memStep s a = some s') :
    (∀ u, u ≠ a.thread → s'.threads u = s.threads u) ∧
    ((∀ r, (s'.zones r).lock = (s.zones r).lock) ∧ (s.threads a.thread).pos.inLock = false ∧
        (s'.threads a.thread).pos.holdsMutex = false ∨
      ∃ l p, rwStep (s.zones (s.threads a.thread).region).lock a.thread
          (s.threads a.thread).pos = some (l, p) ∧
        s' = (s.setZone (s.threads a.thread).region
          { s.zones (s.threads a.thread).region with lock := l }).setThread a.thread
            { s.threads a.thread with pos := p }) := by
  have free (moves : Moves s s' a.thread)
      (out : (s.threads a.thread).pos.inLock = false) :
      (s'.threads a.thread).pos.holdsMutex = false := by
    have quiet : (s.threads a.thread).pos.holdsMutex = false := by
      cases pos : (s.threads a.thread).pos <;> rw [pos] at out <;> first | rfl | cases out
    cases moves with
    | stays region pos left => rw [pos, quiet]
    | enters f region call cause left =>
      cases pos : (s.threads a.thread).pos <;> rw [pos] at call <;> cases f <;>
        simp only [entry, reduceCtorEq, Option.some.injEq] at call <;> rw [← call] <;> rfl
    | leaves region pos pos' cause left => rw [pos']; rfl
    | turns f pos call left =>
      cases f <;> simp only [entry, reduceCtorEq, Option.some.injEq] at call <;> rw [← call] <;> rfl
    | rests pos pos' left => rw [pos']; rfl
  cases a with
  | call u c =>
    simp only [memStep, Option.ite_none_right_eq_some] at edge
    obtain ⟨idle, edge⟩ := edge
    cases edge
    obtain ⟨zones, others, moves, _⟩ := begin_effect idle (fit u) c
    have outside : (s.threads u).pos.inLock = false := by
      rw [out_of_idle (fit u) idle]
      rfl
    exact ⟨others, .inl ⟨fun r => by rw [zones], outside, free moves outside⟩⟩
  | step u k =>
    simp only [memStep] at edge
    split at edge
    · obtain ⟨⟨l, p⟩, move, rfl⟩ := Option.map_eq_some_iff.mp edge
      exact ⟨fun v other => by simp [show v ≠ u from other], .inr ⟨l, p, move, rfl⟩⟩
    · rename_i outside
      have out : (s.threads u).pos.inLock = false := by simpa using outside
      obtain ⟨locks, others, moves, _⟩ := opStep_effect (fit u) out edge
      exact ⟨others, .inl ⟨locks, out, free moves out⟩⟩

theorem Holds.step {a : Label T} (fit : Fits s) (h : Holds s)
    (asleep : (s.threads a.thread).pos = .waitRelease →
      (s.zones (s.threads a.thread).region).lock.mLock = none)
    (edge : memStep s a = some s') : Holds s' := by
  obtain ⟨others, ⟨locks, -, free⟩ | ⟨l, p, move, rfl⟩⟩ := memStep_lock fit edge
  · intro t held
    by_cases mine : t = a.thread
    · subst mine
      rw [free] at held
      cases held
    · rw [others t mine] at held ⊢
      rw [locks]
      exact h t held
  · obtain ⟨own, rest⟩ := rwStep_mutex move (h a.thread) asleep
    intro t held
    by_cases mine : t = a.thread
    · subst mine
      simp only [State.setThread, State.setZone, Function.update_self] at held ⊢
      exact own held
    · simp only [State.setThread, State.setZone, Function.update_of_ne mine] at held ⊢
      by_cases there : (s.threads t).region = (s.threads a.thread).region
      · rw [there, Function.update_self]
        exact rest t mine (there ▸ h t held)
      · rw [Function.update_of_ne there]
        exact h t held

theorem count_kept {a : Label T} (fit : Fits s) (h : Holds s) (edge : memStep s a = some s')
    (other : t ≠ a.thread) (held : (s.threads t).pos.holdsMutex = true) :
    (s'.zones (s.threads t).region).lock.nReaders =
      (s.zones (s.threads t).region).lock.nReaders := by
  obtain ⟨-, ⟨locks, -, -⟩ | ⟨l, p, move, rfl⟩⟩ := memStep_lock fit edge
  · rw [locks]
  · by_cases there : (s.threads t).region = (s.threads a.thread).region
    · have quiet : updates (s.threads a.thread).pos = false := by
        by_contra busy
        have holds := (updates_inside (by simpa using busy)).2
        have both := (there ▸ h t held).symm.trans (h a.thread holds)
        exact other (Option.some.inj both)
      rw [there]
      simp only [State.setThread, State.setZone, Function.update_self]
      rw [rwStep_count move, quiet]
      rfl
    · simp [there]

omit [DecidableEq T] in
theorem setReaders_self {r : Region} {n : Nat} (same : (s.zones r).lock.nReaders = n) :
    setReaders s r n = s := by
  subst same
  simp [setReaders]

end Mutex

section Calm

variable {T : Type u} [DecidableEq T] {s s' : Torn T} {t : T}

/-- What a thread has loaded is still what is stored. -/
structure Whole (s : Torn T) : Prop where
  fit : Fits s.mem
  holds : Holds s.mem
  fresh : ∀ t n, s.loaded t = some n → updates (s.mem.threads t).pos = true ∧
    n = (s.mem.zones (s.mem.threads t).region).lock.nReaders

theorem whole_init : Whole (tornSystem T).init :=
  ⟨fits_init, fun _ held => (by cases held), fun _ _ loaded => (by cases loaded)⟩

theorem Whole.step_cases (h : Whole s) {a : Label T} (edge : tornStep s a = some s') :
    (s'.mem = s.mem ∧ updates (s.mem.threads a.thread).pos = true ∧
        s'.loaded = Function.update s.loaded a.thread
          (some (s.mem.zones (s.mem.threads a.thread).region).lock.nReaders)) ∨
      memStep s.mem a = some s'.mem ∧ s'.loaded = Function.update s.loaded a.thread none := by
  have unloaded (quiet : updates (s.mem.threads a.thread).pos = false) :
      s.loaded = Function.update s.loaded a.thread none := by
    have none : s.loaded a.thread = none := by
      cases loaded : s.loaded a.thread with
      | none => rfl
      | some n =>
        rw [(h.fresh _ n loaded).1] at quiet
        cases quiet
    rw [← none, Function.update_eq_self]
  cases a with
  | call u c =>
    obtain ⟨m, goes, rfl⟩ := Option.map_eq_some_iff.mp edge
    have idle : (s.mem.threads u).pc = .idle := (Option.ite_none_right_eq_some.mp goes).1
    refine .inr ⟨goes, unloaded ?_⟩
    change updates (s.mem.threads u).pos = false
    rw [out_of_idle (h.fit u) idle]
    rfl
  | step u k =>
    simp only [tornStep] at edge
    split at edge
    · rename_i busy
      split at edge
      · obtain rfl := Option.some.inj edge
        exact .inl ⟨rfl, busy, rfl⟩
      · rename_i n loaded
        obtain ⟨m, goes, rfl⟩ := Option.map_eq_some_iff.mp edge
        have same : setReaders m (s.mem.threads u).region (stored (s.mem.threads u).pos n) = m := by
          obtain ⟨-, ⟨-, out, -⟩ | ⟨l, p, move, rfl⟩⟩ := memStep_lock h.fit goes
          · have inside := (updates_inside busy).1
            rw [show (s.mem.threads u).pos.inLock = false from out] at inside
            cases inside
          · have count := rwStep_count move
            change l.nReaders = if updates (s.mem.threads u).pos then _ else _ at count
            rw [if_pos busy] at count
            refine setReaders_self ?_
            rw [(h.fresh u n loaded).2]
            simp only [State.setThread, State.setZone, Label.thread, Function.update_self]
            exact count
        exact .inr ⟨goes.trans (congrArg some same.symm), rfl⟩
    · rename_i quiet
      obtain ⟨m, goes, rfl⟩ := Option.map_eq_some_iff.mp edge
      exact .inr ⟨goes, unloaded (Bool.eq_false_iff.mpr quiet)⟩

theorem Whole.step (h : Whole s) {a : Label T} (quiet : calm s a) (edge : tornStep s a = some s') :
    Whole s' := by
  obtain ⟨same, busy, loads⟩ | ⟨goes, unloads⟩ := h.step_cases edge
  · refine ⟨same ▸ h.fit, same ▸ h.holds, fun t n loaded => ?_⟩
    rw [same]
    by_cases mine : t = a.thread
    · subst mine
      rw [loads, Function.update_self] at loaded
      exact ⟨busy, (Option.some.inj loaded).symm⟩
    · rw [loads, Function.update_of_ne mine] at loaded
      exact h.fresh t n loaded
  · have asleep : (s.mem.threads a.thread).pos = .waitRelease →
        (s.mem.zones (s.mem.threads a.thread).region).lock.mLock = none := by
      cases a with
      | call u c =>
        intro sleeps
        have idle : (s.mem.threads u).pc = .idle := (Option.ite_none_right_eq_some.mp goes).1
        have out := out_of_idle (h.fit u) idle
        rw [show (s.mem.threads u).pos = .waitRelease from sleeps] at out
        cases out
      | step u k => exact quiet.1
    refine ⟨fits_step h.fit goes, h.holds.step h.fit asleep goes, fun t n loaded => ?_⟩
    rw [unloads] at loaded
    have other : t ≠ a.thread := by
      rintro rfl
      rw [Function.update_self] at loaded
      cases loaded
    rw [Function.update_of_ne other] at loaded
    obtain ⟨busy, count⟩ := h.fresh t n loaded
    have held := (updates_inside busy).2
    have others := (memStep_lock h.fit goes).1 t other
    rw [others, count_kept h.fit h.holds goes other held]
    exact ⟨busy, count⟩

theorem Whole.path {ok : State T → Label T → Prop} (h : Whole s)
    (path : (tornSystem T).Path (calmly ok) s s') :
    Whole s' ∧ (memSystem T).Path ok s.mem s'.mem := by
  have follows (m : Torn T) (a : Label T) (m' : Torn T) (here : Whole m) (guard : calmly ok m a)
      (edge : tornStep m a = some m') :
      Whole m' ∧ (m'.mem = m.mem ∨ ∃ b, ok m.mem b ∧ memStep m.mem b = some m'.mem) := by
    refine ⟨here.step guard.1 edge, ?_⟩
    obtain ⟨same, -⟩ | ⟨goes, -⟩ := here.step_cases edge
    · exact .inl same
    · exact .inr ⟨a, guard.2, goes⟩
  exact path.followed follows h

theorem reach_of_calm {ok : State T → Label T → Prop} (h : (tornSystem T).Reach (calmly ok) s) :
    Whole s ∧ (memSystem T).Reach ok s.mem := whole_init.path h

end Calm

end DistributedClipboard.Mem.TornCounts
