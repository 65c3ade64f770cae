/- module: DistributedClipboard/Thread/SectionRuns
   source: src/src/thread/rwlock.c
   layer: results
   digest: Threads that each run a finite sequence of sections always get to the end of it. -/

import DistributedClipboard.Thread.Sections

set_option autoImplicit false
set_option relaxedAutoImplicit false

namespace DistributedClipboard.Thread.SectionRuns

open DistributedClipboard.Lib.Counting
open DistributedClipboard.Lib.Transition
open DistributedClipboard.Thread.Rwlock
open DistributedClipboard.Thread.Sections

universe u

/-- `rw_lock_rlock..rw_lock_runlock` or `rw_lock_wlock..rw_lock_wunlock`. -/
inductive SectionKind
  | read | write
  deriving DecidableEq, Repr

def SectionKind.opens : SectionKind → Fn
  | .read => .rlock
  | .write => .wlock

/-- The threads at one lock, each with the sections it has not begun yet. -/
structure Runners (T : Type u) where
  lock : RwLock T
  pos : T → Pos
  todo : T → List SectionKind

section Step

variable {T : Type u} [DecidableEq T]

def Runners.move (s : Runners T) (t : T) (l : RwLock T) (p : Pos) : Runners T :=
  { s with lock := l, pos := Function.update s.pos t p }

/-- Outside a thread begins its next section, inside one it ends it, and in a function of the lock
it executes the next operation; `none` when it is blocked or has nothing left to do. -/
def runStep (s : Runners T) (t : T) : Option (Runners T) :=
  match s.pos t with
  | .out =>
    match s.todo t with
    | [] => none
    | k :: rest =>
      (entry k.opens .out).map fun p =>
        { s.move t s.lock p with todo := Function.update s.todo t rest }
  | .reading => (entry .runlock .reading).map (s.move t s.lock)
  | .writing => (entry .wunlock .writing).map (s.move t s.lock)
  | p => (rwStep s.lock t p).map fun r => s.move t r.1 r.2

/-- `rw_lock_init`, and threads that run the sections `plan` gives them. -/
def runSystem (plan : T → List SectionKind) : System (Runners T) T where
  init := ⟨rwLockInit, fun _ => .out, plan⟩
  step := runStep

/-- The thread has run all its sections. -/
def Runners.finished (s : Runners T) (t : T) : Prop := s.pos t = .out ∧ s.todo t = []

instance (s : Runners T) (t : T) : Decidable (s.finished t) :=
  inferInstanceAs (Decidable (_ ∧ _))

def Runners.view (s : Runners T) : LockState T := ⟨s.lock, s.pos, 0⟩

theorem runStep_cases {s s' : Runners T} {t : T} (edge : runStep s t = some s') :
    ∃ a, sectionsOnly s.view a ∧ lockStep s.view a = some s'.view := by
  have call (f : Fn) (p : Pos) (q : Pos) (there : s.pos t = p) (entered : entry f p = some q)
      (section_fn : f ≠ .waitUpdate) (lands : s'.view = s.view.move t s.lock q) :
      ∃ a, sectionsOnly s.view a ∧ lockStep s.view a = some s'.view := by
    refine ⟨.enter t f, section_fn, ?_⟩
    rw [lands]
    show (entry f (s.pos t)).map _ = _
    rw [there, entered]
    rfl
  unfold runStep at edge
  split at edge
  case h_1 there =>
    split at edge
    · cases edge
    · rename_i k rest todo
      obtain ⟨q, entered, rfl⟩ := Option.map_eq_some_iff.mp edge
      exact call k.opens .out q there entered (by cases k <;> simp [SectionKind.opens]) rfl
  case h_2 there =>
    obtain ⟨q, entered, rfl⟩ := Option.map_eq_some_iff.mp edge
    exact call .runlock .reading q there entered (by simp) rfl
  case h_3 there =>
    obtain ⟨q, entered, rfl⟩ := Option.map_eq_some_iff.mp edge
    exact call .wunlock .writing q there entered (by simp) rfl
  case h_4 =>
    obtain ⟨r, moved, rfl⟩ := Option.map_eq_some_iff.mp edge
    refine ⟨.go t, trivial, ?_⟩
    show (rwStep s.lock t (s.pos t)).map _ = _
    rw [moved]
    rfl

theorem view_reach {plan : T → List SectionKind} {s : Runners T}
    (h : (runSystem plan).Reach System.anyStep s) : (lockSystem T).Reach sectionsOnly s.view := by
  refine System.Reach.invariant
    (I := fun s : Runners T => (lockSystem T).Reach sectionsOnly s.view) h
    (System.Path.refl _) fun _ t _ reached _ edge => ?_
  obtain ⟨a, guard, moved⟩ := runStep_cases edge
  exact System.Path.trans reached (System.Path.single guard moved)

theorem runStep_of_runs {s : Runners T} {t : T} (runs : Runs s.lock s.pos t) :
    ∃ s', runStep s t = some s' := by
  obtain ⟨inside, runs⟩ := runs
  rw [← Option.isSome_iff_exists]
  unfold runStep
  split
  case h_1 out => exact absurd out inside
  case h_2 => rfl
  case h_3 => rfl
  case h_4 writing reading out =>
    rw [Option.isSome_map]
    rcases runs with outside | possible
    · cases there : s.pos t <;> simp_all [Pos.inLock]
    · exact possible

theorem runStep_of_todo {s : Runners T} {t : T} (out : s.pos t = .out) (left : s.todo t ≠ []) :
    ∃ s', runStep s t = some s' := by
  obtain ⟨k, rest, todo⟩ := List.exists_cons_of_ne_nil left
  rw [← Option.isSome_iff_exists]
  simp only [runStep, out, todo, Option.isSome_map]
  cases k <;> rfl

def rank : Pos → Nat
  | .out => 0
  | .waitRelease => 12
  | .rlockLock | .waitBlocked => 11
  | .rlockInc | .waitInc => 10
  | .rlockTest | .waitTest => 9
  | .rlockWait | .waitSem => 8
  | .rlockUnlock | .waitUnlock => 7
  | .reading => 6
  | .runlockLock => 5
  | .runlockDec | .wlockWait => 4
  | .runlockTest | .writing => 3
  | .runlockPost | .wunlockPost => 2
  | .runlockUnlock | .wunlockBroadcast => 1

/-- An upper bound on the steps a thread has left. -/
def Runners.left (s : Runners T) (t : T) : Nat := rank (s.pos t) + 12 * (s.todo t).length

theorem rwStep_rank {l l' : RwLock T} {t : T} {p p' : Pos}
    (edge : rwStep l t p = some (l', p')) : rank p' < rank p := by
  cases p <;> simp only [rwStep, Option.ite_none_right_eq_some, reduceCtorEq] at edge
  case rlockTest | runlockTest | waitTest =>
    split at edge <;> cases edge <;> simp [rank]
  case rlockLock | rlockWait | runlockLock | wlockWait | waitBlocked | waitSem =>
    obtain ⟨_, edge⟩ := edge
    cases edge
    simp [rank]
  all_goals
    cases edge
    simp [rank]

theorem runStep_left {s s' : Runners T} {t : T} (edge : runStep s t = some s') :
    s'.left t < s.left t ∧ ∀ u, u ≠ t → s'.left u = s.left u := by
  unfold runStep at edge
  split at edge
  case h_1 there =>
    split at edge
    · cases edge
    · rename_i k rest todo
      obtain ⟨q, entered, rfl⟩ := Option.map_eq_some_iff.mp edge
      constructor
      · cases k <;> cases entered <;> simp [Runners.left, Runners.move, rank, there, todo] <;> omega
      · intro u other
        simp [Runners.left, Runners.move, other]
  case h_2 there | h_3 there =>
    obtain ⟨q, entered, rfl⟩ := Option.map_eq_some_iff.mp edge
    cases entered
    constructor
    · simp [Runners.left, Runners.move, rank, there]
    · intro u other
      simp [Runners.left, Runners.move, other]
  case h_4 =>
    obtain ⟨r, moved, rfl⟩ := Option.map_eq_some_iff.mp edge
    have nearer := rwStep_rank moved
    constructor
    · simpa [Runners.left, Runners.move] using nearer
    · intro u other
      simp [Runners.left, Runners.move, other]

end Step

section Results

variable {T : Type u} [Fintype T] {l : RwLock T} {pos : T → Pos}

theorem readers_le_card (h : Inv l pos) : l.nReaders ≤ Fintype.card T := by
  rw [h.counted, count_eq_card]
  exact Finset.card_le_univ _

theorem lock_at_rest (h : Inv l pos) (out : ∀ t, pos t = .out) : l.nReaders = 0 ∧ l.sem = 1 := by
  constructor
  · rw [h.counted, count_eq_zero_iff]
    intro t
    rw [out t]
    rfl
  · apply (sem_free_iff h).mpr
    constructor
    all_goals
      intro t
      rw [out t]
      rfl

variable [DecidableEq T]

theorem sum_left_lt {s s' : Runners T} {t : T} (edge : runStep s t = some s') :
    ∑ u, s'.left u < ∑ u, s.left u := by
  obtain ⟨nearer, others⟩ := runStep_left edge
  refine Finset.sum_lt_sum (fun u _ => ?_) ⟨t, Finset.mem_univ t, nearer⟩
  by_cases same : u = t
  · subst same
    exact nearer.le
  · exact (others u same).le

theorem some_thread_goes {s : Runners T} (inv : Inv s.lock s.pos) (unfinished : ∃ t, ¬ s.finished t) :
    ∃ u s', runStep s u = some s' := by
  by_cases somebody : ∃ t, s.pos t ≠ .out
  · obtain ⟨t, inside⟩ := somebody
    obtain ⟨u, runs⟩ := someone_runs inv inside
    exact ⟨u, runStep_of_runs runs⟩
  · obtain ⟨t, unfinished⟩ := unfinished
    have out : s.pos t = .out := by
      by_contra inside
      exact somebody ⟨t, inside⟩
    exact ⟨t, runStep_of_todo out fun nothing => unfinished ⟨out, nothing⟩⟩

/-- While a thread has sections left some thread has a step, and at the end nobody is counted and
the semaphore is 1. -/
theorem sections_never_stuck (plan : T → List SectionKind) (s : Runners T)
    (h : (runSystem plan).Reach System.anyStep s) :
    ((∃ t, ¬ s.finished t) → ∃ u s', (runSystem plan).step s u = some s') ∧
    ((∀ t, s.finished t) → s.lock.nReaders = 0 ∧ s.lock.sem = 1) := by
  have inv : Inv s.lock s.pos := reach_inv (view_reach h)
  constructor
  · intro unfinished
    exact some_thread_goes inv unfinished
  · intro finished
    exact lock_at_rest inv fun t => (finished t).1

private def readerAndWriter : Bool → List SectionKind
  | false => [.read]
  | true => [.write]

private def readerFirst : List Bool := [false, false, false, false, false, false, true]

theorem sections_never_stuck_waiting : ∃ s : Runners Bool,
    s.pos false = .reading ∧ s.pos true = .wlockWait ∧ s.lock.sem = 0 ∧
    ∃ u s', (runSystem readerAndWriter).step s u = some s' := by
  have reached : (runSystem readerAndWriter).Reach System.anyStep _ :=
    System.path_of_run readerFirst (fun _ _ _ => trivial) rfl
  exact ⟨_, rfl, rfl, rfl, (sections_never_stuck readerAndWriter _ reached).1 ⟨false, by decide⟩⟩

end Results

end DistributedClipboard.Thread.SectionRuns
