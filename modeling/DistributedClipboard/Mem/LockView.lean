/- module: DistributedClipboard/Mem/LockView
   source: src/src/mem/clmem.c
   layer: refinement
   digest: Each region of the memory runs its lock as the lock's own transition system does. -/

import DistributedClipboard.Mem.Threads

set_option autoImplicit false
set_option relaxedAutoImplicit false

namespace DistributedClipboard.Mem.LockView

open DistributedClipboard.Common
open DistributedClipboard.Lib.Linearizability
open DistributedClipboard.Lib.Transition
open DistributedClipboard.Mem.Threads
open DistributedClipboard.Thread.Rwlock

universe u

/-- The positions at which a thread may be about to execute a statement. -/
def fits : Pc → Pos → Bool
  | .idle, p | .malloc, p | .fill _, p => p = .out
  | .done _, p => p = .out ∨ p.fn? = some .runlock ∨ p.fn? = some .wunlock
  | .rejected _, p | .nextZone, p => p = .out ∨ p.fn? = some .wunlock
  | .readSize, p | .saveCond, p => p = .reading ∨ p.fn? = some .rlock
  | .testCond _, p => p = .reading ∨ p.fn? = some .waitUpdate
  | .readSizeAgain, p | .readData _, p | .copy _ _ _, p => p = .reading
  | .testTerminate _, p | .testExit, p => p = .reading
  | .testNull _, p | .setTerminate, p => p = .writing ∨ p.fn? = some .wlock
  | .compare _, p | .freeOld _, p | .setData _, p | .setSize _, p | .setCond _, p => p = .writing
  | .finishTest, p | .finishFree, p | .finishNull, p => p = .writing

def Fits {T : Type u} (s : State T) : Prop :=
  ∀ t, fits (s.threads t).pc (s.threads t).pos = true

def posAt {T : Type u} (s : State T) (r : Region) (t : T) : Pos :=
  if (s.threads t).region = r then (s.threads t).pos else .out

def lockAt {T : Type u} (s : State T) (r : Region) : LockState T :=
  ⟨(s.zones r).lock, posAt s r, s.leaked r⟩

/-- In the loop of `mem_wait`. -/
def inLoop : Pc → Bool
  | .testCond _ | .testTerminate _ => true
  | _ => false

section

variable {T : Type u} [DecidableEq T] {s s' : State T} {t u : T} {r : Region} {k : Nat}

/-- Which statement of the memory calls `rw_lock_wait_update`, calls `rw_lock_runlock`, or leaves
without unlocking. -/
def Caused (s : State T) : LockLabel T → Prop
  | .enter t f =>
    (f = .waitUpdate →
      ∃ aux, (s.threads t).pc = .testTerminate aux ∧
        (s.zones (s.threads t).region).terminate = false) ∧
    (f = .runlock → inLoop (s.threads t).pc = false)
  | .go _ => True
  | .leave t => (s.threads t).pc = .testExit

inductive Moves (s s' : State T) (t : T) : Prop
  | stays (region : (s'.threads t).region = (s.threads t).region)
      (pos : (s'.threads t).pos = (s.threads t).pos) (left : s'.leaked = s.leaked)
  | enters (f : Fn) (region : (s'.threads t).region = (s.threads t).region)
      (call : entry f (s.threads t).pos = some (s'.threads t).pos) (cause : Caused s (.enter t f))
      (left : s'.leaked = s.leaked)
  | leaves (region : (s'.threads t).region = (s.threads t).region)
      (pos : (s.threads t).pos = .reading) (pos' : (s'.threads t).pos = .out)
      (cause : (s.threads t).pc = .testExit)
      (left : s'.leaked = Function.update s.leaked (s.threads t).region
        (s.leaked (s.threads t).region + 1))
  | turns (f : Fn) (pos : (s.threads t).pos = .out) (call : entry f .out = some (s'.threads t).pos)
      (left : s'.leaked = s.leaked)
  | rests (pos : (s.threads t).pos = .out) (pos' : (s'.threads t).pos = .out)
      (left : s'.leaked = s.leaked)

attribute [local simp] State.setThread State.setZone State.setBlock State.goto State.callLock
  State.decide State.fail State.finishRead

omit [DecidableEq T] in
@[simp] theorem free_threads (s : State T) (a : Nat) : (s.free a).threads = s.threads := by
  unfold State.free
  split <;> rfl

omit [DecidableEq T] in
@[simp] theorem free_zones (s : State T) (a : Nat) : (s.free a).zones = s.zones := by
  unfold State.free
  split <;> rfl

omit [DecidableEq T] in
@[simp] theorem free_leaked (s : State T) (a : Nat) : (s.free a).leaked = s.leaked := by
  unfold State.free
  split <;> rfl

def home : Pc → Pos
  | .idle | .done _ | .malloc | .fill _ | .rejected _ | .nextZone => .out
  | .readSize | .readSizeAgain | .readData _ | .copy _ _ _ => .reading
  | .saveCond | .testCond _ | .testTerminate _ | .testExit => .reading
  | .testNull _ | .compare _ | .freeOld _ | .setData _ | .setSize _ | .setCond _ => .writing
  | .setTerminate | .finishTest | .finishFree | .finishNull => .writing

theorem fits_home (pc : Pc) : fits pc (home pc) = true := by
  cases pc <;> rfl

theorem fits_outside {pc : Pc} {p : Pos} (fit : fits pc p = true) (out : p.inLock = false) :
    p = home pc := by
  have none_inside : p.fn? = none := by
    cases p <;> first | rfl | cases out
  cases pc <;>
    simpa only [home, fits, none_inside, decide_eq_true_eq, reduceCtorEq, or_false] using fit

omit [DecidableEq T] in
theorem caused_enter {f : Fn} (wait : f ≠ .waitUpdate) (leave : f ≠ .runlock) :
    Caused s (.enter t f) :=
  ⟨fun same => absurd same wait, fun same => absurd same leave⟩

/-- What a statement of one caller does: it touches no lock and no other caller, and moves its own
caller within what its lock allows. -/
structure Effect (s s' : State T) (t : T) : Prop where
  locks : ∀ r, (s'.zones r).lock = (s.zones r).lock
  others : ∀ u, u ≠ t → s'.threads u = s.threads u
  moves : Moves s s' t
  fit : fits (s'.threads t).pc (s'.threads t).pos = true

section Effect

variable {m : State T} {pc : Pc} {x : Thread}

omit [DecidableEq T] in
theorem Effect.congr (h : Effect s m t) (zones : s'.zones = m.zones)
    (threads : s'.threads = m.threads) (left : s'.leaked = m.leaked) : Effect s s' t where
  locks := zones ▸ h.locks
  others := threads ▸ h.others
  moves := by
    cases h.moves with
    | stays region pos same =>
      exact .stays (threads ▸ region) (threads ▸ pos) (left.trans same)
    | enters f region call cause same =>
      exact .enters f (threads ▸ region) (threads ▸ call) cause (left.trans same)
    | leaves region pos pos' cause less =>
      exact .leaves (threads ▸ region) pos (threads ▸ pos') cause (left.trans less)
    | turns f pos call same => exact .turns f pos (threads ▸ call) (left.trans same)
    | rests pos pos' same => exact .rests pos (threads ▸ pos') (left.trans same)
  fit := threads ▸ h.fit

theorem Effect.set (locks : ∀ r, (m.zones r).lock = (s.zones r).lock)
    (threads : m.threads = s.threads) (moves : Moves s (m.setThread t x) t)
    (fit : fits x.pc x.pos = true) : Effect s (m.setThread t x) t where
  locks := locks
  others u other := (Function.update_of_ne other ..).trans (congrFun threads u)
  moves := moves
  fit := by
    have own : (m.setThread t x).threads t = x := Function.update_self ..
    rw [own]
    exact fit

theorem Effect.goto (locks : ∀ r, (m.zones r).lock = (s.zones r).lock)
    (threads : m.threads = s.threads) (left : m.leaked = s.leaked)
    (here : (s.threads t).pos = home pc) : Effect s (m.goto t pc) t := by
  have own : (m.goto t pc).threads t = { s.threads t with pc := pc } := by
    rw [← threads]
    exact Function.update_self ..
  have region := congrArg Thread.region own
  have pos := congrArg Thread.pos own
  refine .set locks threads (.stays region pos left) ?_
  rw [threads, here]
  exact fits_home pc

theorem Effect.next (here : (s.threads t).pos = home pc) : Effect s (s.goto t pc) t :=
  .goto (fun _ => rfl) rfl rfl here

theorem Effect.callLock (f : Fn) {p : Pos} (locks : ∀ r, (m.zones r).lock = (s.zones r).lock)
    (threads : m.threads = s.threads) (left : m.leaked = s.leaked)
    (call : entry f (s.threads t).pos = some p) (cause : Caused s (.enter t f))
    (fit : fits pc p = true) : Effect s (m.callLock t pc p) t := by
  have own : (m.callLock t pc p).threads t = { s.threads t with pc := pc, pos := p } := by
    rw [← threads]
    exact Function.update_self ..
  have region := congrArg Thread.region own
  have pos := congrArg Thread.pos own
  exact .set locks threads (.enters f region (call.trans (congrArg some pos.symm)) cause left) fit

omit [DecidableEq T] in
theorem Effect.stays (zones : s'.zones = s.zones) (threads : s'.threads = s.threads)
    (left : s'.leaked = s.leaked) (here : (s.threads t).pos = home (s.threads t).pc) :
    Effect s s' t where
  locks r := by rw [zones]
  others u _ := congrFun threads u
  moves := .stays (by rw [threads]) (by rw [threads]) left
  fit := by
    rw [threads, here]
    exact fits_home _

omit [DecidableEq T] in
theorem setZone_locks {z : LockedZone T} {r : Region} (same : z.lock = (s.zones r).lock) (q : Region) :
    ((s.setZone r z).zones q).lock = (s.zones q).lock := by
  by_cases eq : q = r
  · subst eq
    have written : (s.setZone q z).zones q = z := Function.update_self ..
    rw [written, same]
  · have kept : (s.setZone r z).zones q = s.zones q := Function.update_of_ne eq ..
    rw [kept]

theorem Effect.free {a : Nat} (here : (s.threads t).pos = home pc) :
    Effect s ((s.free a).goto t pc) t :=
  .goto (fun r => by rw [free_zones]) (by rw [free_threads]) (by rw [free_leaked]) here

theorem Effect.finishRead (reading : (s.threads t).pos = .reading)
    (away : inLoop (s.threads t).pc = false) (buffer : List UInt8) :
    Effect s (s.finishRead t buffer) t := by
  have calls : Effect s (s.callLock t (.done (.bytes buffer)) .runlockLock) t := by
    have cause : Caused s (.enter t .runlock) := by
      refine ⟨fun same => ?_, fun _ => away⟩
      cases same
    refine .callLock .runlock (fun _ => rfl) rfl rfl ?_ cause rfl
    rw [reading]
    rfl
  exact calls.congr rfl rfl rfl

theorem Effect.startCopy (reading : (s.threads t).pos = .reading)
    (away : inLoop (s.threads t).pc = false) (cpSize : Nat) :
    Effect s (s.startCopy t cpSize) t := by
  by_cases empty : cpSize = 0
  · rw [State.startCopy, if_pos empty]
    exact .finishRead reading away []
  · rw [State.startCopy, if_neg empty]
    exact .next reading

end Effect

theorem opStep_effect (fit : fits (s.threads t).pc (s.threads t).pos = true)
    (out : (s.threads t).pos.inLock = false) (edge : opStep s t k = some s') : Effect s s' t := by
  have here : (s.threads t).pos = home (s.threads t).pc := fits_outside fit out
  have fails : Effect s s.fail t := .stays rfl rfl rfl here
  unfold opStep at edge
  cases pc : (s.threads t).pc
  all_goals
    simp only [pc] at edge
    rw [pc] at here
  case idle => cases edge
  case done res =>
    obtain rfl := Option.some.inj edge
    have goes : Effect s (s.goto t .idle) t := .next here
    exact goes.congr rfl rfl rfl
  case readSize =>
    have away : inLoop (s.threads t).pc = false := by rw [pc]; rfl
    split at edge
    · obtain rfl := Option.some.inj edge
      exact .next here
    · obtain rfl := Option.some.inj edge
      exact .startCopy here away _
  case readSizeAgain =>
    obtain rfl := Option.some.inj edge
    exact .startCopy here (by rw [pc]; rfl) _
  case readData cpSize =>
    split at edge
    · obtain rfl := Option.some.inj edge
      exact .next here
    · obtain rfl := Option.some.inj edge
      exact fails
  case copy cpSize src buffer =>
    split at edge
    · obtain rfl := Option.some.inj edge
      exact .finishRead here (by rw [pc]; rfl) buffer
    · split at edge
      · split at edge
        · obtain rfl := Option.some.inj edge
          exact .next here
        · obtain rfl := Option.some.inj edge
          exact fails
      · obtain rfl := Option.some.inj edge
        exact fails
  case saveCond =>
    obtain rfl := Option.some.inj edge
    exact .next here
  case testCond aux =>
    split at edge
    · obtain rfl := Option.some.inj edge
      exact .next here
    · obtain rfl := Option.some.inj edge
      exact .next here
  case testTerminate aux =>
    split at edge
    · obtain rfl := Option.some.inj edge
      exact .next here
    · rename_i live
      obtain rfl := Option.some.inj edge
      refine .callLock .waitUpdate (fun _ => rfl) rfl rfl ?_ ⟨fun _ => ⟨aux, pc, ?_⟩, ?_⟩ rfl
      · rw [here]
        rfl
      · exact Bool.eq_false_of_not_eq_true live
      · intro same
        cases same
  case testExit =>
    split at edge
    · obtain rfl := Option.some.inj edge
      -- the read lock is kept for good
      refine ⟨fun _ => rfl, fun u other => Function.update_of_ne other .., ?_, ?_⟩
      · refine .leaves ?_ here ?_ pc rfl
        · simp
        · simp
      · simp [fits]
    · obtain rfl := Option.some.inj edge
      exact .next here
  case malloc =>
    obtain rfl := Option.some.inj edge
    have goes : Effect s ((s.setBlock s.brk (some ⟨[], .caller t⟩)).goto t (.fill s.brk)) t :=
      .goto (fun _ => rfl) rfl rfl here
    exact goes.congr rfl rfl rfl
  case fill memCpy =>
    split at edge
    · split at edge
      · obtain rfl := Option.some.inj edge
        exact .callLock .wlock (fun _ => rfl) rfl rfl (by rw [here]; rfl)
          (caused_enter (by decide) (by decide)) rfl
      · obtain rfl := Option.some.inj edge
        exact .stays rfl rfl rfl (pc ▸ here)
    · obtain rfl := Option.some.inj edge
      exact fails
  case testNull memCpy =>
    split at edge
    · obtain rfl := Option.some.inj edge
      exact .next here
    · obtain rfl := Option.some.inj edge
      exact .next here
  case compare memCpy =>
    split at edge
    · obtain rfl := Option.some.inj edge
      have calls : Effect s (s.callLock t (.rejected memCpy) .wunlockPost) t :=
        .callLock .wunlock (fun _ => rfl) rfl rfl (by rw [here]; rfl)
          (caused_enter (by decide) (by decide)) rfl
      exact calls.congr rfl rfl rfl
    · obtain rfl := Option.some.inj edge
      exact .next here
  case rejected memCpy =>
    obtain rfl := Option.some.inj edge
    exact .free here
  case freeOld memCpy =>
    split at edge
    · obtain rfl := Option.some.inj edge
      exact .free here
    · obtain rfl := Option.some.inj edge
      exact .next here
  case setData memCpy | setSize memCpy =>
    obtain rfl := Option.some.inj edge
    exact .goto (setZone_locks rfl) rfl rfl here
  case setCond memCpy =>
    obtain rfl := Option.some.inj edge
    let m := s.setZone (s.threads t).region
      { s.zones (s.threads t).region with updateCond := (s.threads t).updateCond }
    have calls : Effect s
        (m.callLock t (.done (.count (s.threads t).data.length)) .wunlockPost) t :=
      .callLock .wunlock (setZone_locks rfl) rfl rfl (by rw [here]; rfl)
        (caused_enter (by decide) (by decide)) rfl
    exact calls.congr rfl rfl rfl
  case setTerminate =>
    obtain rfl := Option.some.inj edge
    exact .goto (setZone_locks rfl) rfl rfl here
  case finishTest =>
    split at edge
    · obtain rfl := Option.some.inj edge
      exact .next here
    · obtain rfl := Option.some.inj edge
      exact .next here
  case finishFree =>
    split at edge
    · obtain rfl := Option.some.inj edge
      exact .free here
    · obtain rfl := Option.some.inj edge
      exact .next here
  case finishNull =>
    obtain rfl := Option.some.inj edge
    exact .callLock .wunlock (setZone_locks rfl) rfl rfl (by rw [here]; rfl)
      (caused_enter (by decide) (by decide)) rfl
  case nextZone =>
    split at edge
    · obtain rfl := Option.some.inj edge
      exact .set (fun _ => rfl) rfl (.turns .wlock here (by simp [entry]) rfl) rfl
    · obtain rfl := Option.some.inj edge
      exact .next here

omit [DecidableEq T] in
theorem out_of_idle (fit : fits (s.threads t).pc (s.threads t).pos = true)
    (idle : (s.threads t).pc = .idle) : (s.threads t).pos = .out := by
  rw [idle] at fit
  simpa only [fits, decide_eq_true_eq] using fit

theorem begin_effect (idle : (s.threads t).pc = .idle)
    (fit : fits (s.threads t).pc (s.threads t).pos = true) (c : Call) :
    (begin s t c).zones = s.zones ∧ (∀ u, u ≠ t → (begin s t c).threads u = s.threads u) ∧
      Moves s (begin s t c) t ∧
      fits ((begin s t c).threads t).pc ((begin s t c).threads t).pos = true := by
  have out := out_of_idle fit idle
  unfold begin
  cases c <;> (repeat' split) <;> refine ⟨rfl, ?_, ?_, ?_⟩
  all_goals first
    | (intro u ne; simp [ne])
    | (refine .rests out ?_ ?_ <;> simp [out] <;> done)
    | (refine .turns .rlock out ?_ ?_ <;> simp [entry] <;> done)
    | (refine .turns .wlock out ?_ ?_ <;> simp [entry])
    | simp [fits, out, Pos.fn?]

theorem fits_go {pc : Pc} {p p' : Pos} {f : Fn} (fit : fits pc p = true) (inside : p.fn? = some f)
    (next : p'.fn? = some f ∨ p' = f.exit) : fits pc p' = true := by
  have away : p ≠ .out ∧ p ≠ .reading ∧ p ≠ .writing := by
    refine ⟨?_, ?_, ?_⟩ <;> rintro rfl <;> simp [Pos.fn?] at inside
  cases pc <;>
    simp only [fits, inside, away, false_or, decide_eq_true_eq, Option.some.injEq] at fit ⊢
  all_goals
    rcases next with next | rfl
    · simp [next, fit]
    · rcases fit with rfl | rfl <;> simp [Fn.exit]

theorem fits_step {a : Label T} (fit : Fits s) (edge : memStep s a = some s') : Fits s' := by
  cases a with
  | call t c =>
    simp only [memStep, Option.ite_none_right_eq_some] at edge
    obtain ⟨idle, edge⟩ := edge
    cases edge
    obtain ⟨_, others, _, mine⟩ := begin_effect idle (fit t) c
    intro u
    by_cases eq : u = t
    · exact eq ▸ mine
    · rw [others u eq]
      exact fit u
  | step t k =>
    simp only [memStep] at edge
    split at edge
    · obtain ⟨⟨l, p⟩, move, rfl⟩ := Option.map_eq_some_iff.mp edge
      obtain ⟨f, inside, next⟩ := rwStep_stays move
      intro u
      by_cases eq : u = t
      · subst eq
        simpa using fits_go (fit u) inside next
      · simpa [eq] using fit u
    · rename_i out
      obtain ⟨_, others, _, mine⟩ := opStep_effect (fit t) (by simpa using out) edge
      intro u
      by_cases eq : u = t
      · exact eq ▸ mine
      · rw [others u eq]
        exact fit u

private theorem lockAt_eq {l : LockState T} (lock : (s'.zones r).lock = l.lock)
    (others : ∀ u, u ≠ t → s'.threads u = s.threads u) {p : Pos}
    (pos : l.pos = Function.update (posAt s r) t p) (mine : posAt s' r t = p)
    (left : s'.leaked r = l.left) : lockAt s' r = l := by
  obtain ⟨lock', pos', left'⟩ := l
  simp only at lock pos left
  subst lock pos left
  simp only [lockAt, LockState.mk.injEq, true_and, and_true]
  funext u
  by_cases eq : u = t
  · subst eq
    simpa using mine
  · rw [Function.update_of_ne eq]
    simp [posAt, others u eq]

private theorem lockAt_moves (locks : ∀ r, (s'.zones r).lock = (s.zones r).lock)
    (others : ∀ u, u ≠ t → s'.threads u = s.threads u) (moves : Moves s s' t) (r : Region) :
    lockAt s' r = lockAt s r ∨
      ∃ b, Caused s b ∧ lockStep (lockAt s r) b = some (lockAt s' r) := by
  have same (mine : posAt s' r t = posAt s r t) (left : s'.leaked r = s.leaked r) :
      lockAt s' r = lockAt s r :=
    lockAt_eq (l := lockAt s r) (locks r) others
      (by rw [Function.update_eq_self]; rfl) mine left
  have entered {f : Fn} {p : Pos} (call : entry f (posAt s r t) = some p)
      (mine : posAt s' r t = p) (left : s'.leaked r = s.leaked r) :
      lockStep (lockAt s r) (.enter t f) = some (lockAt s' r) := by
    rw [lockAt_eq (l := (lockAt s r).move t (lockAt s r).lock p) (locks r) others rfl mine left]
    simp [lockStep, lockAt, call]
  have out (pos : (s.threads t).pos = .out) : posAt s r t = .out := by simp [posAt, pos]
  cases moves with
  | stays region pos left => exact .inl (same (by simp [posAt, region, pos]) (congrFun left r))
  | enters f region call cause left =>
    by_cases mine : (s.threads t).region = r
    · exact .inr ⟨.enter t f, cause, entered (by simpa [posAt, mine] using call)
        (by simp [posAt, region, mine]) (congrFun left r)⟩
    · exact .inl (same (by simp [posAt, region, mine]) (congrFun left r))
  | leaves region pos pos' cause left =>
    by_cases mine : (s.threads t).region = r
    · subst mine
      refine .inr ⟨.leave t, cause, ?_⟩
      rw [lockAt_eq (l := ⟨(lockAt s (s.threads t).region).lock,
        Function.update (posAt s (s.threads t).region) t .out, s.leaked (s.threads t).region + 1⟩)
        (locks _) others rfl (by simp [posAt, pos']) (by simp [left])]
      simp [lockStep, lockAt, posAt, pos, LockState.move]
    · exact .inl (same (by simp [posAt, region, mine]) (by simp [left, Ne.symm mine]))
  | turns f pos call left =>
    by_cases mine : (s'.threads t).region = r
    · refine .inr ⟨.enter t f, ⟨?_, ?_⟩, entered (by rwa [out pos]) (by simp [posAt, mine])
        (congrFun left r)⟩
      all_goals
        rintro rfl
        cases call
    · exact .inl (same (by rw [out pos]; simp [posAt, mine]) (congrFun left r))
  | rests pos pos' left =>
    exact .inl (same (by rw [out pos]; simp [posAt, pos']) (congrFun left r))

theorem lockAt_step {a : Label T} (fit : Fits s) (edge : memStep s a = some s') (r : Region) :
    lockAt s' r = lockAt s r ∨
      ∃ b, Caused s b ∧ lockStep (lockAt s r) b = some (lockAt s' r) := by
  cases a with
  | call t c =>
    simp only [memStep, Option.ite_none_right_eq_some] at edge
    obtain ⟨idle, edge⟩ := edge
    cases edge
    obtain ⟨zones, others, moves, _⟩ := begin_effect idle (fit t) c
    exact lockAt_moves (fun r => by rw [zones]) others moves r
  | step t k =>
    simp only [memStep] at edge
    split at edge
    · obtain ⟨⟨l, p⟩, move, rfl⟩ := Option.map_eq_some_iff.mp edge
      have others (u : T) (ne : u ≠ t) :
          (((s.setZone (s.threads t).region { s.zones (s.threads t).region with lock := l }).setThread
            t { s.threads t with pos := p }).threads u) = s.threads u := by simp [ne]
      by_cases mine : (s.threads t).region = r
      · subst mine
        refine .inr ⟨.go t, trivial, ?_⟩
        rw [lockAt_eq (l := (lockAt s (s.threads t).region).move t l p) (by simp [LockState.move])
          others rfl (by simp [posAt]) rfl]
        simp [lockStep, lockAt, posAt, move]
      · refine .inl (lockAt_eq (l := lockAt s r) ?_ others
          (p := posAt s r t) (by rw [Function.update_eq_self]; rfl) (by simp [posAt, mine]) rfl)
        simp [lockAt, Function.update_of_ne (Ne.symm mine)]
    · rename_i out
      obtain ⟨locks, others, moves, _⟩ := opStep_effect (fit t) (by simpa using out) edge
      exact lockAt_moves locks others moves r

theorem fits_init : Fits (memSystem T).init := fun _ => rfl

theorem lockAt_init (r : Region) : lockAt (memSystem T).init r = (lockSystem T).init := by
  simp only [lockAt, lockSystem, memSystem, LockState.mk.injEq, true_and, and_true]
  funext t
  simp [posAt]

end

end DistributedClipboard.Mem.LockView
