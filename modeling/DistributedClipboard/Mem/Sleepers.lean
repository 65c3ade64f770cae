/- module: DistributedClipboard/Mem/Sleepers
   source: src/src/mem/clmem.c, src/src/thread/rwlock.c
   layer: results
   digest: What a call of `mem_wait` can come to, and what it does to the puts and to the shutdown. -/

import DistributedClipboard.Mem.TornCounts
import DistributedClipboard.Mem.Waiters

set_option autoImplicit false
set_option relaxedAutoImplicit false

namespace DistributedClipboard.Mem.Sleepers

open DistributedClipboard.Common
open DistributedClipboard.Lib.Transition
open DistributedClipboard.Mem.Clmem (Res)
open DistributedClipboard.Mem.LockView
open DistributedClipboard.Mem.Linearizable (fields)
open DistributedClipboard.Mem.Shutdown
open DistributedClipboard.Mem.Threads
open DistributedClipboard.Mem.TornCounts
open DistributedClipboard.Mem.Waiters
open DistributedClipboard.Thread.Rwlock
open DistributedClipboard.Thread.Sections (writer_alone)

universe u

section Loop

variable {T : Type u} [DecidableEq T] {s s' : State T} {t u : T} {r : Region} {k : Nat}

/-- What the loop of `mem_wait` knows of its region: the timestamp is the one it has saved, it is
left for a shutdown only, and nobody has shut the region down under a caller that sleeps. -/
structure LoopOk (s : State T) (t : T) : Prop where
  current : ∀ aux, loopCond (s.threads t).pc = some aux →
    aux = (s.zones (s.threads t).region).updateCond
  exit : (s.threads t).pc = .testExit → (s.zones (s.threads t).region).terminate = true
  asleep : (s.threads t).pos.inWait = true → (s.zones (s.threads t).region).terminate = false

/-- The caller is in the loop of `mem_wait`, at its exit, or asleep. -/
def Knows (th : Thread) : Prop :=
  (∃ aux, loopCond th.pc = some aux) ∨ th.pc = .testExit ∨ th.pos.inWait = true

def Reads (th : Thread) : Prop := th.pos = .reading ∨ th.pos.inWait = true

omit [DecidableEq T] in
theorem reads_of_fits (fit : Fits s) (knows : Knows (s.threads t)) : Reads (s.threads t) := by
  rcases knows with ⟨aux, cond⟩ | exit | wait
  · exact place_in_loop (fit t) cond
  · have here := fit t
    simp only [exit, fits, decide_eq_true_eq] at here
    exact .inl here
  · exact .inr wait

theorem no_writer_beside [Fintype T] (regime : Balanced s r ∨ Starved s r)
    (region : (s.threads t).region = r) (reads : Reads (s.threads t))
    (there : (s.threads u).region = r) : (s.threads u).pos ≠ .writing := by
  intro write
  have writes : (posAt s r u).holdsWrite = true := by simp [posAt, there, write, Pos.holdsWrite]
  rcases regime with balanced | starved
  · have group : (posAt s r t).holdsGroup = true := by
      simp only [posAt, region, if_true]
      rcases reads with read | wait
      · rw [read]
        rfl
      · cases pos : (s.threads t).pos <;> rw [pos] at wait <;> first | rfl | cases wait
    by_cases same : t = u
    · subst same
      simp only [posAt, region, if_true, write] at group
      cases group
    · rw [(writer_alone balanced.lock writes same).2] at group
      cases group
  · have nobody := starved.lock.noWriter u
    simp only [lockAt] at nobody
    rw [writes] at nobody
    cases nobody

attribute [local simp] State.setThread State.setZone State.setBlock State.goto State.callLock
  State.decide State.fail State.finishRead

theorem loop_moves (out : (s.threads t).pos.inLock = false) (edge : opStep s t k = some s') :
    (Knows (s'.threads t) →
      (s'.threads t).region = (s.threads t).region ∧ s'.zones = s.zones) ∧
    (∀ aux, loopCond (s'.threads t).pc = some aux →
      loopCond (s.threads t).pc = some aux ∨
        (s.threads t).pc = .saveCond ∧ aux = (s.zones (s.threads t).region).updateCond) ∧
    ((s'.threads t).pc = .testExit →
      (∃ aux, loopCond (s.threads t).pc = some aux ∧
        aux ≠ (s.zones (s.threads t).region).updateCond) ∨
      (s.zones (s.threads t).region).terminate = true) ∧
    ((s'.threads t).pos.inWait = true →
      (∃ aux, (s.threads t).pc = .testTerminate aux) ∧
        (s.zones (s.threads t).region).terminate = false) := by
  have awake : (s.threads t).pos.inWait = false := by
    cases pos : (s.threads t).pos <;> rw [pos] at out <;> first | rfl | cases out
  unfold opStep at edge
  cases hpc : (s.threads t).pc <;> simp only [hpc, State.startCopy] at edge <;>
    (repeat' split at edge) <;> cases edge
  all_goals simp_all [Knows, loopCond, Pos.inWait]

omit [DecidableEq T] in
theorem terminate_kept [DecidableEq T] {a : Label T} (edge : memStep s a = some s')
    (shut : (s.zones r).terminate = true) : (s'.zones r).terminate = true := by
  cases a with
  | call u c =>
    simp only [memStep, Option.ite_none_right_eq_some] at edge
    obtain ⟨_, edge⟩ := edge
    cases edge
    unfold begin
    cases c <;> (repeat' split) <;> exact shut
  | step u k =>
    simp only [memStep] at edge
    split at edge
    · obtain ⟨⟨l, p⟩, _, rfl⟩ := Option.map_eq_some_iff.mp edge
      rw [(lock_keeps l p r u).2.2.2]
      exact shut
    · unfold opStep at edge
      by_cases mine : r = (s.threads u).region
      · subst mine
        cases hpc : (s.threads u).pc <;> simp only [hpc, State.startCopy] at edge <;>
          (repeat' split at edge) <;> cases edge <;> simp [shut]
      · cases hpc : (s.threads u).pc <;> simp only [hpc, State.startCopy] at edge <;>
          (repeat' split at edge) <;> cases edge <;> simp [mine, shut]

omit [DecidableEq T] in
theorem inWait_of_rwStep [DecidableEq T] {l l' : RwLock T} {p p' : Pos}
    (edge : rwStep l t p = some (l', p')) (wait : p'.inWait = true) : p.inWait = true := by
  obtain ⟨f, inside, next⟩ := rwStep_stays edge
  have function : p'.fn? = some .waitUpdate := by
    cases p' <;> first | rfl | cases wait
  rcases next with same | rfl
  · rw [function] at same
    obtain rfl := Option.some.inj same
    cases p <;> first | rfl | cases inside
  · cases f <;> cases wait

theorem LoopOk.step [Fintype T] {a : Label T} (fit : Fits s)
    (regimes : ∀ r, Balanced s r ∨ Starved s r) (ok : LoopOk s t)
    (edge : memStep s a = some s') : LoopOk s' t := by
  cases a with
  | call u c =>
    simp only [memStep, Option.ite_none_right_eq_some] at edge
    obtain ⟨idle, edge⟩ := edge
    cases edge
    obtain ⟨zones, others, _, _⟩ := begin_effect idle (fit u) c
    by_cases mine : t = u
    · subst mine
      have outside := out_of_idle (fit t) idle
      unfold begin
      constructor <;> cases c <;> (repeat' split) <;> simp [loopCond, Pos.inWait, outside]
    · obtain ⟨current, exit, asleep⟩ := ok
      constructor <;> rw [others t mine, zones]
      · exact current
      · exact exit
      · exact asleep
  | step u k =>
    have shut := terminate_kept (r := (s.threads t).region) edge
    simp only [memStep] at edge
    split at edge
    · obtain ⟨⟨l, p⟩, move, rfl⟩ := Option.map_eq_some_iff.mp edge
      obtain ⟨region, pc, cond, terminate⟩ :=
        lock_keeps (s := s) (u := u) l p (s.threads t).region t
      refine ⟨?_, ?_, fun wait => ?_⟩
      · rw [region, pc, cond]
        exact ok.current
      · rw [region, pc, terminate]
        exact ok.exit
      · rw [region, terminate]
        by_cases mine : t = u
        · subst mine
          simp only [State.setThread, Function.update_self] at wait
          exact ok.asleep (inWait_of_rwStep move wait)
        · simp only [State.setThread, State.setZone, Function.update_of_ne mine] at wait
          exact ok.asleep wait
    · rename_i outside
      have out : (s.threads u).pos.inLock = false := by simpa using outside
      obtain ⟨_, others, _, _⟩ := opStep_effect (fit u) out edge
      by_cases mine : t = u
      · subst mine
        obtain ⟨still, conds, exits, sleeps⟩ := loop_moves out edge
        refine ⟨fun aux cond => ?_, fun exit => ?_, fun wait => ?_⟩
        · obtain ⟨region, zones⟩ := still (.inl ⟨aux, cond⟩)
          rw [region, zones]
          rcases conds aux cond with before | ⟨_, same⟩
          · exact ok.current aux before
          · exact same
        · obtain ⟨region, _⟩ := still (.inr (.inl exit))
          rw [region]
          rcases exits exit with ⟨aux, before, moved⟩ | terminate
          · exact absurd (ok.current aux before) moved
          · exact shut terminate
        · obtain ⟨region, zones⟩ := still (.inr (.inr wait))
          rw [region, zones]
          exact (sleeps wait).2
      · have kept (reads : Reads (s.threads t)) := zone_kept (r := (s.threads t).region) (fit u)
          out edge (no_writer_beside (regimes _) rfl reads)
        constructor <;> rw [others t mine]
        · intro aux cond
          rw [(kept (reads_of_fits fit (.inl ⟨aux, cond⟩))).1]
          exact ok.current aux cond
        · exact fun exit => shut (ok.exit exit)
        · intro wait
          rw [(kept (.inr wait)).2]
          exact ok.asleep wait

/-- In every run the loop of every caller knows what it should. -/
theorem loopOk_of_reach [Fintype T] (h : (memSystem T).Reach System.anyStep s) (t : T) :
    LoopOk s t := by
  have start : LoopOk (memSystem T).init t := by
    constructor <;> simp [memSystem, loopCond, Pos.inWait]
  exact h.invariant_of (I := fun s => LoopOk s t) (fun _ => reach_balanced_or_starved) start
    fun _ a _ known ok _ edge => ok.step known.1 known.2 edge

end Loop

section Outcome

variable {T : Type u} [DecidableEq T] {s s' : State T} {t u : T} {r : Region} {k : Nat}

/-- The thread calls `mem_wait` only; the others call what they like. -/
def waitsOnly (t : T) : State T → Label T → Prop
  | _, .call u c => u = t → ∃ region size, c = .wait region size
  | _, .step _ _ => True

/-- The statements of `mem_wait` from which it returns 0. -/
def emptyHanded : Pc → Bool
  | .idle | .saveCond | .testCond _ | .testTerminate _ | .testExit => true
  | .done (.bytes buffer) => buffer.isEmpty
  | _ => false

attribute [local simp] State.setThread State.setZone State.setBlock State.goto State.callLock
  State.decide State.fail State.finishRead

theorem emptyHanded_step {a : Label T} (fit : Fits s) (ok : LoopOk s t) (guard : waitsOnly t s a)
    (empty : emptyHanded (s.threads t).pc = true) (edge : memStep s a = some s') :
    emptyHanded (s'.threads t).pc = true := by
  cases a with
  | call u c =>
    simp only [memStep, Option.ite_none_right_eq_some] at edge
    obtain ⟨idle, edge⟩ := edge
    cases edge
    by_cases mine : t = u
    · subst mine
      obtain ⟨region, size, rfl⟩ := guard rfl
      simp only [begin]
      split <;> simp [emptyHanded]
    · rw [(begin_effect idle (fit u) c).2.1 t mine]
      exact empty
  | step u k =>
    simp only [memStep] at edge
    split at edge
    · obtain ⟨⟨l, p⟩, _, rfl⟩ := Option.map_eq_some_iff.mp edge
      rw [(lock_keeps l p firstRegion t).2.1]
      exact empty
    · rename_i outside
      by_cases mine : t = u
      · subst mine
        unfold opStep at edge
        cases hpc : (s.threads t).pc <;> rw [hpc] at empty <;>
          simp only [emptyHanded, Bool.false_eq_true] at empty <;> simp only [hpc] at edge
        case testExit =>
          rw [if_pos (ok.exit hpc)] at edge
          cases edge
          simp [emptyHanded]
        all_goals
          (repeat' split at edge) <;> cases edge <;> simp [emptyHanded]
      · rw [(opStep_effect (fit u) (by simpa using outside) edge).2 t mine]
        exact empty

theorem emptyHanded_of_path [Fintype T] (h : (memSystem T).Reach System.anyStep s)
    (empty : emptyHanded (s.threads t).pc = true) (path : (memSystem T).Path (waitsOnly t) s s') :
    (memSystem T).Reach System.anyStep s' ∧ emptyHanded (s'.threads t).pc = true := by
  refine path.invariant (I := fun m => (memSystem T).Reach System.anyStep m ∧
    emptyHanded (m.threads t).pc = true) (fun m a m' known guard edge => ?_) ⟨h, empty⟩
  obtain ⟨reach, empty⟩ := known
  exact ⟨reach.trans (.single trivial edge),
    emptyHanded_step (reach_balanced_or_starved reach).1 (loopOk_of_reach reach t) guard empty edge⟩

omit [DecidableEq T] in
theorem nothing_of_emptyHanded {res : Res} (done : (s.threads t).pc = .done res)
    (empty : emptyHanded (s.threads t).pc = true) : res = .bytes [] := by
  rw [done] at empty
  cases res with
  | count n => cases empty
  | bytes buffer => rw [List.isEmpty_iff.mp empty]

/-- Whatever has happened before, whatever the other threads put, get or shut down, and in whatever
order they run, `mem_wait` never hands out a byte as long as no caller goes to sleep while another
thread holds the mutex of its region: the only value it returns is 0, and it leaves a region only
after `mem_finish` has been there. -/
theorem wait_returns_nothing [Fintype T] {s s' : Torn T} (t : T)
    (h : (tornSystem T).Reach (calmly System.anyStep) s) (idle : (s.mem.threads t).pc = .idle)
    (path : (tornSystem T).Path (calmly (waitsOnly t)) s s') :
    (∀ res, (s'.mem.threads t).pc = .done res → res = .bytes []) ∧
      ((s'.mem.threads t).pc = .testExit →
        (s'.mem.zones (s'.mem.threads t).region).terminate = true) := by
  obtain ⟨whole, before⟩ := reach_of_calm h
  obtain ⟨reach, empty⟩ := emptyHanded_of_path before (by rw [idle]; rfl) (whole.path path).2
  exact ⟨fun res done => nothing_of_emptyHanded done empty, (loopOk_of_reach reach t).exit⟩

instance (s : State T) (a : Label T) : Decidable (System.anyStep s a) := .isTrue trivial

instance (t : T) (s : State T) (a : Label T) : Decidable (waitsOnly t s a) :=
  match a with
  | .step _ _ => .isTrue trivial
  | .call _ (.wait region size) => .isTrue fun _ => ⟨region, size, rfl⟩
  | .call u (.get _ _) | .call u (.put _ _ _) | .call u .finish =>
    decidable_of_iff (u ≠ t) (by simp [waitsOnly])

instance (ok : State T → Label T → Prop) [∀ s a, Decidable (ok s a)] (s : Torn T) (a : Label T) :
    Decidable (calmly ok s a) := inferInstanceAs (Decidable (_ ∧ _))

private def shutRun {T : Type u} (t : T) : List (Label T) :=
  [Label.call t (.put 0 [1] 1)] ++ List.replicate 11 (Label.step t 0) ++ [Label.call t .finish] ++
    List.replicate 72 (Label.step t 0)

private def lateRun {T : Type u} (t : T) : List (Label T) :=
  [Label.call t (.wait 0 4)] ++ List.replicate 10 (Label.step t 0)

theorem late_wait_returns : ∃ s s' : Torn (Fin 2),
    (tornSystem (Fin 2)).Reach (calmly System.anyStep) s ∧ (s.mem.threads 1).pc = .idle ∧
    (tornSystem (Fin 2)).Path (calmly (waitsOnly 1)) s s' ∧
    ∃ data, (s'.mem.threads 1).pc = .done (.bytes data) := by
  have goes : (((tornSystem (Fin 2)).guardedRun (calmly System.anyStep) (tornSystem (Fin 2)).init
      (shutRun 0)).bind fun s =>
        ((tornSystem (Fin 2)).guardedRun (calmly (waitsOnly 1)) s (lateRun 1)).map fun s' =>
          decide ((s.mem.threads 1).pc = .idle) && match (s'.mem.threads 1).pc with
            | .done (.bytes _) => true
            | _ => false) = some true := by decide +kernel
  obtain ⟨s, first, goes⟩ := Option.bind_eq_some_iff.mp goes
  obtain ⟨s', second, seen⟩ := Option.map_eq_some_iff.mp goes
  obtain ⟨idle, seen⟩ := Bool.and_eq_true_iff.mp seen
  have reach : (tornSystem (Fin 2)).Reach (calmly System.anyStep) s :=
    System.path_of_guardedRun _ first
  have later : (tornSystem (Fin 2)).Path (calmly (waitsOnly 1)) s s' :=
    System.path_of_guardedRun _ second
  split at seen
  · rename_i data pc
    exact ⟨s, s', reach, of_decide_eq_true idle, later, data, pc⟩
  · cases seen

theorem wait_returns_nothing_late : ∃ s s' : Torn (Fin 2),
    (tornSystem (Fin 2)).Reach (calmly System.anyStep) s ∧
    (tornSystem (Fin 2)).Path (calmly (waitsOnly 1)) s s' ∧
    ∃ res, (s'.mem.threads 1).pc = .done res ∧ res = .bytes [] := by
  obtain ⟨s, s', reach, idle, later, data, pc⟩ := late_wait_returns
  exact ⟨s, s', reach, later, _, pc, (wait_returns_nothing 1 reach idle later).1 _ pc⟩

end Outcome

section Sleep

variable {T : Type u} [Fintype T] [DecidableEq T] {s s' : State T} {t u : T} {r : Region}

attribute [local simp] State.setThread State.setZone State.setBlock State.goto State.callLock
  State.decide State.fail State.finishRead

theorem waits_of_asleep (h : (memSystem T).Reach System.anyStep s)
    (asleep : (s.threads t).pos.inWait = true) : Waits s (s.threads t).region t where
  region := rfl
  cond := by
    have fit := (reach_balanced_or_starved h).1 t
    have away : (s.threads t).pos ≠ .reading ∧ (s.threads t).pos ≠ .writing ∧
        (s.threads t).pos ≠ .out := by
      refine ⟨?_, ?_, ?_⟩ <;> intro same <;> rw [same] at asleep <;> cases asleep
    have function : (s.threads t).pos.fn? = some .waitUpdate := by
      cases pos : (s.threads t).pos <;> rw [pos] at asleep <;> first | rfl | cases asleep
    cases hpc : (s.threads t).pc <;>
      simp only [hpc, fits, away, function, decide_eq_true_eq, false_or, Option.some.injEq,
        reduceCtorEq] at fit
    case testCond aux =>
      rw [← (loopOk_of_reach h t).current aux (by rw [hpc]; rfl)]
      rfl
  terminate := (loopOk_of_reach h t).asleep asleep

omit [Fintype T] in
theorem fields_kept {a : Label T} (fit : Fits s) (noWriter : ∀ u, (posAt s r u).holdsWrite = false)
    (edge : memStep s a = some s') : fields s' r = fields s r := by
  cases a with
  | call u c =>
    simp only [memStep, Option.ite_none_right_eq_some] at edge
    obtain ⟨idle, edge⟩ := edge
    cases edge
    rw [fields, fields, (begin_effect idle (fit u) c).1]
  | step u k =>
    simp only [memStep] at edge
    split at edge
    · obtain ⟨⟨l, p⟩, _, rfl⟩ := Option.map_eq_some_iff.mp edge
      by_cases mine : r = (s.threads u).region
      · subst mine
        simp [fields]
      · simp [fields, mine]
    · rename_i outside
      have here := fits_outside (fit u) (by simpa using outside)
      have quiet : (s.threads u).region = r → home (s.threads u).pc ≠ .writing := by
        intro there write
        have nobody := noWriter u
        simp [posAt, there, here, write, Pos.holdsWrite] at nobody
      unfold opStep at edge
      by_cases mine : r = (s.threads u).region
      · have notWriting := quiet mine.symm
        cases hpc : (s.threads u).pc <;> rw [hpc] at notWriting <;>
          simp only [home, ne_eq, not_true_eq_false, reduceCtorEq, not_false_eq_true] at notWriting <;>
          simp only [hpc, State.startCopy] at edge <;> (repeat' split at edge) <;> cases edge <;>
          simp [fields]
      · cases hpc : (s.threads u).pc <;>
          simp only [hpc, State.startCopy] at edge <;> (repeat' split at edge) <;> cases edge <;>
          simp [fields, mine]

/-- `mem_finish` has not got as far as shutting down the region. -/
structure FinishBefore (s : State T) (r : Region) (u : T) : Prop where
  statement : (s.threads u).pc = .setTerminate ∨ (s.threads u).pc = .finishTest ∨
    (s.threads u).pc = .finishFree ∨ (s.threads u).pc = .finishNull ∨ (s.threads u).pc = .nextZone
  notPast : (s.threads u).region ≤ r
  shutOut : (s.threads u).region = r →
    (s.threads u).pc = .setTerminate ∧ (s.threads u).pos = .wlockWait

omit [Fintype T] in
theorem finishBefore_of_begin : FinishBefore (begin s u .finish) r u where
  statement := .inl (by simp [begin, State.setThread])
  notPast := by simp [begin, State.setThread, firstRegion, Fin.le_def]
  shutOut _ := by simp [begin, State.setThread]

theorem FinishBefore.step {a : Label T} (h : FinishBefore s r u) (starved : Starved s r)
    (fit : Fits s) (edge : memStep s a = some s') : FinishBefore s' r u := by
  have taken : (s.zones r).lock.sem = 0 := starved.lock.sem
  have unmoved (same : s'.threads u = s.threads u) : FinishBefore s' r u := by
    obtain ⟨statement, notPast, shutOut⟩ := h
    constructor <;> rw [same] <;> assumption
  cases a with
  | call v c =>
    simp only [memStep, Option.ite_none_right_eq_some] at edge
    obtain ⟨idle, edge⟩ := edge
    cases edge
    refine unmoved ((begin_effect idle (fit v) c).2.1 u ?_)
    rintro rfl
    have busy := h.statement
    simp [idle] at busy
  | step v k =>
    simp only [memStep] at edge
    split at edge
    · obtain ⟨⟨l, p⟩, move, rfl⟩ := Option.map_eq_some_iff.mp edge
      by_cases mine : u = v
      · subst mine
        have before : (s.threads u).region ≠ r := by
          intro there
          rw [(h.shutOut there).2, there] at move
          simp [rwStep, taken] at move
        refine ⟨?_, ?_, ?_⟩
        · simpa [State.setThread] using h.statement
        · simpa [State.setThread] using h.notPast
        · simp [State.setThread, before]
      · exact unmoved (by simp [State.setThread, State.setZone, mine])
    · rename_i outside
      have out : (s.threads v).pos.inLock = false := by simpa using outside
      by_cases mine : u = v
      · subst mine
        have before : (s.threads u).region ≠ r := by
          intro there
          rw [(h.shutOut there).2] at out
          cases out
        have less : (s.threads u).region < r := lt_of_le_of_ne h.notPast before
        rcases h.statement with pc | pc | pc | pc | pc <;> simp only [opStep, pc] at edge
        case inr.inr.inr.inr =>
          have room : (s.threads u).region.val + 1 < nRegions :=
            lt_of_le_of_lt (Nat.succ_le_of_lt less) r.isLt
          rw [dif_pos room] at edge
          cases edge
          refine ⟨.inl ?_, ?_, fun _ => ⟨?_, ?_⟩⟩
          · simp [State.setThread]
          · simpa [State.setThread, Fin.le_def] using Nat.succ_le_of_lt less
          · simp [State.setThread]
          · simp [State.setThread]
        all_goals
          (repeat' split at edge) <;> cases edge <;>
            exact ⟨by simp [State.goto, State.callLock, State.setThread],
              by simpa [State.goto, State.callLock, State.setThread, State.setZone] using h.notPast,
              by simp [State.goto, State.callLock, State.setThread, State.setZone, before]⟩
      · exact unmoved ((opStep_effect (fit v) out edge).2 u mine)

/-- What has become of a region in which a caller sleeps. -/
structure ShutOut (s s' : State T) (r : Region) (t : T) : Prop where
  sleeps : Waits s' r t
  unchanged : fields s' r = fields s r
  puts : ∀ u memCpy, PutWaits s r u memCpy → PutWaits s' r u memCpy
  finishes : ∀ u, FinishBefore s r u → FinishBefore s' r u

theorem shutOut_of_asleep (h : (memSystem T).Reach System.anyStep s)
    (asleep : (s.threads t).pos.inWait = true) (path : (memSystem T).Path System.anyStep s s') :
    ShutOut s s' (s.threads t).region t := by
  have fit := (reach_balanced_or_starved h).1
  have starved := starved_of_waiting h asleep
  have waits := waits_of_asleep h asleep
  generalize (s.threads t).region = r at starved waits ⊢
  have keep (m : State T) (a : Label T) (m' : State T)
      (good : (Fits m ∧ Starved m r) ∧ ShutOut s m r t) (_ : System.anyStep m a)
      (edge : memStep m a = some m') : (Fits m' ∧ Starved m' r) ∧ ShutOut s m' r t := by
    obtain ⟨⟨fit, starved⟩, sleeps, unchanged, puts, finishes⟩ := good
    have noWriter := starved.lock.noWriter
    exact ⟨⟨fits_step fit edge, starved.step fit edge⟩, sleeps.step fit noWriter edge,
      (fields_kept fit noWriter edge).trans unchanged,
      fun u memCpy put => (puts u memCpy put).step starved fit edge,
      fun u before => (finishes u before).step starved fit edge⟩
  have start : (Fits s ∧ Starved s r) ∧ ShutOut s s r t :=
    ⟨⟨fit, starved⟩, waits, rfl, fun _ _ put => put, fun _ before => before⟩
  exact (System.Path.invariant keep path start).2

/-- Once a caller of `mem_wait` has gone to sleep in a region, nothing the other threads do ever
brings it back, as long as no other caller goes to sleep while a thread holds the mutex of its region:
it goes round its loop for ever, the region stays as it is, every put that comes to its lock waits for
ever, and every `mem_finish` that has not been there yet never returns. -/
theorem sleeper_stays {s s' : Torn T} (h : (tornSystem T).Reach (calmly System.anyStep) s)
    (asleep : (s.mem.threads t).pos.inWait = true)
    (path : (tornSystem T).Path (calmly System.anyStep) s s') :
    ShutOut s.mem s'.mem (s.mem.threads t).region t := by
  obtain ⟨whole, reach⟩ := reach_of_calm h
  exact shutOut_of_asleep reach asleep (whole.path path).2

end Sleep

private def waitThenFinish {T : Type u} (t u : T) : List (Label T) :=
  [Label.call t (.wait 0 4)] ++ List.replicate 10 (Label.step t 0) ++ [Label.call u .finish]

theorem sleeper_stays_finish : ∃ s : Torn (Fin 2),
    (tornSystem (Fin 2)).Reach (calmly System.anyStep) s ∧ (s.mem.threads 0).pos = .waitBlocked ∧
    ∀ s', (tornSystem (Fin 2)).Path (calmly System.anyStep) s s' →
      (s'.mem.threads 0).pc ≠ .idle ∧ (s'.mem.threads 1).pos = .wlockWait := by
  have reached : ∃ s : Torn (Fin 2), (tornSystem (Fin 2)).Reach (calmly System.anyStep) s ∧
      decide ((s.mem.threads 0).region = firstRegion ∧ (s.mem.threads 0).pos = .waitBlocked ∧
        (s.mem.threads 1).region = firstRegion ∧ (s.mem.threads 1).pc = .setTerminate ∧
        (s.mem.threads 1).pos = .wlockWait) = true :=
    System.reach_of_guardedRun _ true (waitThenFinish 0 1) (by decide +kernel)
  obtain ⟨s, reach, seen⟩ := reached
  obtain ⟨region, blocked, here, pc, pos⟩ := of_decide_eq_true seen
  refine ⟨s, reach, blocked, fun s' path => ?_⟩
  have shut := sleeper_stays (t := 0) reach (by rw [blocked]; rfl) path
  rw [region] at shut
  constructor
  · intro idle
    have cond := shut.sleeps.cond
    rw [idle] at cond
    cases cond
  · have before := shut.finishes 1 ⟨.inl pc, le_of_eq here, fun _ => ⟨pc, pos⟩⟩
    exact (before.shutOut (le_antisymm before.notPast (Nat.zero_le _))).2

end DistributedClipboard.Mem.Sleepers
