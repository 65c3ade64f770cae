/- module: DistributedClipboard/Interfaces/ShutdownRuns
   source: src/src/interfaces/clipif.c, src/src/interfaces/appif.c
   layer: result
   digest: The finalizer of an interface comes to its end once every slave has been asked to end. -/

import DistributedClipboard.Interfaces.CleanupRuns
import DistributedClipboard.Interfaces.Teardown
import DistributedClipboard.Lib.Counting
import DistributedClipboard.Lib.LockOrder
import DistributedClipboard.Lib.Termination

set_option autoImplicit false
set_option relaxedAutoImplicit false

namespace DistributedClipboard.Interfaces.ShutdownRuns

open DistributedClipboard.Interfaces.Cleanup
open DistributedClipboard.Interfaces.CleanupLedger
open DistributedClipboard.Interfaces.CleanupRuns
open DistributedClipboard.Interfaces.Teardown
open DistributedClipboard.Lib.Counting
open DistributedClipboard.Lib.Discipline
open DistributedClipboard.Lib.Transition

universe u

variable {T : Type u}

def rank : Mutex T → Nat
  | .interface => 0
  | .slot _ => 1
  | .print => 2

/-- What a slave has before it of a message or of `close_conn`. -/
def ahead : Phase T → Code T
  | .leaving rest | .closing _ rest => rest
  | _ => []

variable [DecidableEq T]

def InOrder (holder : Mutex T → Option (Holder T)) (t : T) (rest : Code T) : Prop :=
  ∃ held, Owns holder (.slave t) held ∧ Ascending rank held rest

/-- What the shutdown of an interface rests on: the order of the locks, the lock that the finalizer
has, where slaves can be cancelled, and the signal that the finalizer waits for. -/
structure Steady (s : State T) : Prop where
  order : ∀ t, InOrder s.holder t (ahead (s.slaves t).phase)
  ending : ∀ t handler rest, (s.slaves t).phase = .closing handler rest → Ending rest
  finalizer : ∀ m, s.holder m = some .finalizer →
    m = .interface ∧ (s.finalize = .test ∨ s.finalize = .unlock)
  cancellable : ∀ t, (s.slaves t).phase = .recv → (s.slaves t).enabled = true
  awake : s.finalize = .wait →
    0 < s.nConnections ∨ ∃ t ∈ s.counted, signalAhead (s.slaves t).phase = true

section Steps

variable {i : Interface} {verbose : Bool} {s s' : State T} {t u : T} {x : Slave T}
  {y : Statement (Mutex T) Effect} {rest : Code T}

theorem showInfo_ascending (verbose : Bool) : Ascending rank [] (showInfo verbose : Code T) := by
  cases verbose <;> simp [showInfo, Ascending]

theorem showWarning_ascending (verbose : Bool) :
    Ascending rank [] (showWarning verbose : Code T) := by
  cases verbose <;> simp [showWarning, Ascending]

theorem closeConn_ascending (i : Interface) (verbose isParent : Bool) (t : T) :
    Ascending rank [] (closeConn i verbose isParent t) := by
  cases i <;> cases verbose <;> cases isParent <;>
    simp [closeConn, clipifCloseConn, appifCloseConn, showInfo, Ascending, rank]

theorem InOrder.mine {holder holder' : Mutex T → Option (Holder T)}
    (change : LockChange holder holder' t y) (h : InOrder holder t (y :: rest)) :
    InOrder holder' t rest := by
  obtain ⟨held, owns, ascending⟩ := h
  cases change with
  | lock m free now =>
    subst now
    exact ⟨m :: held, owns.lock, ascending.2⟩
  | unlock m now =>
    subst now
    exact ⟨held.filter (· ≠ m), owns.unlock, ascending⟩
  | act e now =>
    subst now
    exact ⟨held, owns, ascending⟩

theorem InOrder.other {holder holder' : Mutex T → Option (Holder T)}
    (change : LockChange holder holder' t y) (apart : u ≠ t)
    (mine : ∀ m, y = .unlock m → holder m = some (.slave t)) (h : InOrder holder u rest) :
    InOrder holder' u rest := by
  obtain ⟨held, owns, ascending⟩ := h
  exact ⟨held, change.other apart mine owns, ascending⟩

omit [DecidableEq T] in
theorem signal_behind (ending : Ending (y :: rest)) (other : y ≠ .act .signal) :
    .act .signal ∈ rest := by
  by_contra none
  obtain rfl := ending.tail.empty none
  exact other (ending y rfl)

theorem signal_wakes {outcome : Outcome} {handler : Bool}
    (pc : (s.slaves t).phase = .closing handler (.act .signal :: rest))
    (edge : step i verbose s (.next t outcome) = some s') : s'.finalize ≠ .wait := by
  simp only [step, next, pc, execute, Option.map_some, Option.some.injEq] at edge
  subst edge
  simp only [State.goto, State.setSlave, effect]
  split <;> simp_all

theorem Steady.move (h : Steady s) (slaves : s'.slaves = Function.update s.slaves t x)
    (mine : InOrder s'.holder t (ahead x.phase))
    (others : ∀ u, u ≠ t → ∀ rest, InOrder s.holder u rest → InOrder s'.holder u rest)
    (ending : ∀ handler rest, x.phase = .closing handler rest → Ending rest)
    (finalizer : ∀ m, s'.holder m = some .finalizer → s.holder m = some .finalizer)
    (stays : s'.finalize = s.finalize ∨ s.finalize = .wait ∧ s'.finalize = .lock)
    (cancellable : x.phase = .recv → x.enabled = true)
    (awake : s'.finalize = .wait → s.finalize = .wait →
      0 < s'.nConnections ∨ ∃ u ∈ s'.counted, signalAhead (s'.slaves u).phase = true) : Steady s' := by
  constructor
  case order =>
    intro u
    by_cases same : u = t
    · subst same
      rw [slaves, Function.update_self]
      exact mine
    · rw [slaves, Function.update_of_ne same]
      exact others u same _ (h.order u)
  case ending =>
    intro u handler rest pc
    by_cases same : u = t
    · subst same
      rw [slaves, Function.update_self] at pc
      exact ending handler rest pc
    · rw [slaves, Function.update_of_ne same] at pc
      exact h.ending u handler rest pc
  case finalizer =>
    intro m held
    obtain ⟨only, inside⟩ := h.finalizer m (finalizer m held)
    refine ⟨only, ?_⟩
    rcases stays with same | ⟨waits, _⟩
    · rwa [same]
    · rw [waits] at inside
      simp at inside
  case cancellable =>
    intro u pc
    by_cases same : u = t
    · subst same
      rw [slaves, Function.update_self] at pc ⊢
      exact cancellable pc
    · rw [slaves, Function.update_of_ne same] at pc ⊢
      exact h.cancellable u pc
  case awake =>
    intro waits
    rcases stays with same | ⟨_, now⟩
    · exact awake waits (same ▸ waits)
    · rw [now] at waits
      cases waits

theorem Steady.goto (fault : Bool) (h : Steady s) (mine : InOrder s.holder t (ahead x.phase))
    (ending : ∀ handler rest, x.phase = .closing handler rest → Ending rest)
    (cancellable : x.phase = .recv → x.enabled = true)
    (kept : signalAhead (s.slaves t).phase = true → signalAhead x.phase = true) :
    Steady { s.setSlave t x with fault := fault } := by
  refine h.move rfl mine (fun _ _ _ order => order) ending (fun _ held => held) (.inl rfl)
    cancellable fun _ waits => ?_
  refine (h.awake waits).imp_right ?_
  rintro ⟨u, counted, signals⟩
  refine ⟨u, counted, ?_⟩
  by_cases same : u = t
  · subst same
    simpa [State.setSlave] using kept signals
  · simpa [State.setSlave, same] using signals

theorem Steady.executes (h : Steady s) (inv : Inv s) (does : Executes s s' t y)
    (pc : ahead (s.slaves t).phase = y :: rest) (now : ahead x.phase = rest)
    (ending : ∀ handler rest, x.phase = .closing handler rest → Ending rest)
    (cancellable : x.phase ≠ .recv)
    (awake : s'.finalize = .wait → s.finalize = .wait →
      0 < s'.nConnections ∨
        ∃ u ∈ s'.counted, signalAhead (Function.update s.slaves t x u).phase = true) :
    Steady (s'.setSlave t x) := by
  have holds : ∃ held, Owns s.holder (.slave t) held ∧ Disciplined held (y :: rest) := by
    have tidy := inv.tidy t
    cases phase : (s.slaves t).phase with
    | leaving code | closing handler code =>
      rw [phase] at pc
      rw [Tidy, phase] at tidy
      exact (show code = y :: rest from pc) ▸ tidy.1
    | unborn | start | enable | recv | disable | body | gone =>
      rw [phase] at pc
      cases pc
  obtain ⟨held, owns, disciplined⟩ := holds
  obtain ⟨unlocks, _⟩ := does.locks.mine owns disciplined
  have order := h.order t
  rw [pc] at order
  refine h.move (by rw [State.setSlave, does.slaves]) ?_ ?_ ending ?_ does.finalize
    (fun recv => absurd recv cancellable) (by simpa [State.setSlave, does.slaves] using awake)
  · rw [now]
    exact order.mine does.locks
  · exact fun u apart rest order => order.other does.locks apart unlocks
  · intro m held
    change s'.holder m = some .finalizer at held
    cases does.locks with
    | lock n free now =>
      rw [now] at held
      by_cases same : m = n
      · simp [same] at held
      · rwa [Function.update_of_ne same] at held
    | unlock n now =>
      rw [now] at held
      by_cases same : m = n
      · simp [same] at held
      · rwa [Function.update_of_ne same] at held
    | act e now => rwa [now] at held

theorem quiet_of_loop {p : Phase T} (loop : inLoop p = true) :
    ahead p = [] ∧ signalAhead p = false ∧ ∀ handler rest, p ≠ .closing handler rest := by
  cases p with
  | start | enable | recv | disable | body => exact ⟨rfl, rfl, by simp⟩
  | unborn | leaving | closing | gone => cases loop

theorem enabled_of_next {outcome : Outcome} (edge : next verbose s t outcome = some s')
    (recv : (s'.slaves t).phase = .recv) : (s'.slaves t).enabled = true := by
  cases pc : (s.slaves t).phase with
  | unborn | gone =>
    simp only [next, pc] at edge
    cases edge
  | start | enable | disable =>
    simp only [next, pc] at edge
    cases edge
    simp_all [State.goto, State.setSlave]
  | recv | body =>
    simp only [next, pc] at edge
    cases outcome <;> cases edge <;> simp_all [State.goto, State.setSlave]
  | leaving rest =>
    simp only [next, pc] at edge
    obtain ⟨r, _, rfl⟩ := Option.map_eq_some_iff.mp edge
    simp [State.goto, State.setSlave] at recv
  | closing handler rest =>
    simp only [next, pc] at edge
    split at edge
    · cases edge
      simp [State.goto, State.setSlave] at recv
    · obtain ⟨r, _, rfl⟩ := Option.map_eq_some_iff.mp edge
      simp [State.goto, State.setSlave] at recv

theorem Steady.finalizeStep (inv : Inv s) (h : Steady s)
    (moves : Cleanup.finalizeStep s = some s') : Steady s' := by
  obtain ⟨slaves, counted, _, total, _⟩ := finalizeStep_frame moves
  have frame (order : ∀ u rest, InOrder s.holder u rest → InOrder s'.holder u rest)
      (finalizer : ∀ m, s'.holder m = some .finalizer →
        m = .interface ∧ (s'.finalize = .test ∨ s'.finalize = .unlock))
      (awake : s'.finalize = .wait → 0 < s.nConnections) : Steady s' :=
    ⟨fun u => slaves ▸ order u _ (h.order u), slaves ▸ h.ending, finalizer, slaves ▸ h.cancellable,
      fun waits => .inl (total ▸ awake waits)⟩
  have others {m : Mutex T} {o : Option (Holder T)} (before : ∀ u, s.holder m ≠ some (.slave u))
      (after : ∀ u, o ≠ some (.slave u)) (u : T) (rest : Code T) (order : InOrder s.holder u rest) :
      InOrder (Function.update s.holder m o) u rest := by
    obtain ⟨held, owns, ascending⟩ := order
    exact ⟨held, owns.other (before u) (after u), ascending⟩
  cases pc : s.finalize with
  | wait | finished =>
    simp only [Cleanup.finalizeStep, pc] at moves
    cases moves
  | idle | cancelling | destroyCond | destroyLocks | free =>
    simp only [Cleanup.finalizeStep, pc] at moves
    obtain rfl := Option.some.inj moves
    refine frame (fun _ _ order => order) (fun m held => ?_) (by simp)
    obtain ⟨_, inside⟩ := h.finalizer m held
    rw [pc] at inside
    simp at inside
  | lock =>
    simp only [Cleanup.finalizeStep, pc] at moves
    obtain ⟨free, now⟩ := Option.ite_none_right_eq_some.mp moves
    obtain rfl := Option.some.inj now
    refine frame (others (by simp [free]) (by simp)) (fun m held => ?_) (by simp)
    by_cases same : m = .interface
    · exact ⟨same, .inl rfl⟩
    · obtain ⟨only, _⟩ := h.finalizer m (by simpa [State.setHolder, same] using held)
      exact absurd only same
  | test =>
    have held := inv.finalizer (.inl pc)
    simp only [Cleanup.finalizeStep, pc] at moves
    split at moves
    · rename_i some_
      obtain rfl := Option.some.inj moves
      refine frame (others (by simp [held]) (by simp)) (fun m mine => ?_) (fun _ => some_)
      by_cases same : m = .interface
      · simp [State.setHolder, same] at mine
      · obtain ⟨only, _⟩ := h.finalizer m (by simpa [State.setHolder, same] using mine)
        exact absurd only same
    · obtain rfl := Option.some.inj moves
      exact frame (fun _ _ order => order) (fun m mine => ⟨(h.finalizer m mine).1, .inr rfl⟩) (by simp)
  | unlock =>
    have held := inv.finalizer (.inr pc)
    simp only [Cleanup.finalizeStep, pc] at moves
    obtain rfl := Option.some.inj moves
    refine frame (others (by simp [held]) (by simp)) (fun m mine => ?_) (by simp)
    by_cases same : m = .interface
    · simp [State.setHolder, same] at mine
    · obtain ⟨only, _⟩ := h.finalizer m (by simpa [State.setHolder, same] using mine)
      exact absurd only same

theorem Steady.other {m : Mutex T} {o : Option (Holder T)} (h : Steady s)
    (before : ∀ t, s.holder m ≠ some (.slave t)) (after : ∀ t, o ≠ some (.slave t))
    (finalizer : o ≠ some .finalizer) : Steady (s.setHolder m o) := by
  refine ⟨fun t => ?_, h.ending, fun n held => ?_, h.cancellable, h.awake⟩
  · obtain ⟨held, owns, ascending⟩ := h.order t
    exact ⟨held, owns.other (before t) (after t), ascending⟩
  · by_cases same : n = m
    · subst same
      exact absurd (by simpa [State.setHolder] using held) finalizer
    · exact h.finalizer n (by simpa [State.setHolder, same] using held)

theorem Steady.step {a : Label T} (inv : Inv s) (ledger : Ledger s) (h : Steady s) (ok : orderly s a)
    (edge : step i verbose s a = some s') : Steady s' := by
  have order := h.order
  have change := change_of_step edge
  cases change with
  | register t idle unborn =>
    have mine := order t
    rw [unborn] at mine
    exact h.move rfl mine (fun _ _ _ order => order) (by simp) (fun _ held => held) (.inl rfl)
      (by simp) fun _ waits => by simp [idle] at waits
  | ask t cancelling =>
    exact h.move rfl (order t) (fun _ _ _ order => order) (h.ending t) (fun _ held => held) (.inl rfl)
      (h.cancellable t) fun _ waits => by simp [cancelling] at waits
  | turn t outcome x fault before after called late =>
    obtain ⟨empty, _, closing⟩ := quiet_of_loop after
    have mine := order t
    rw [(quiet_of_loop before).1] at mine
    refine h.goto _ (by rwa [empty]) (fun handler rest pc => absurd pc (closing handler rest))
      (fun recv => ?_) (by simp [(quiet_of_loop before).2.1])
    have enabled := @enabled_of_next _ _ verbose _ _ t _ edge
    simpa [State.setSlave] using enabled (by simpa [State.setSlave] using recv)
  | leave t outcome message fault before shown late =>
    have none_ := (inv.tidy t).loop before
    refine h.goto _ ⟨[], none_.1, ?_⟩ (by simp) (by simp) (by simp [(quiet_of_loop before).2.1])
    obtain rfl | rfl := shown
    · exact showInfo_ascending verbose
    · exact showWarning_ascending verbose
  | tells t outcome y rest s' pc does =>
    have apart := (ledger.account t)
    rw [pc] at apart
    have untouched : touches y = false := apart.2 y List.mem_cons_self
    have other : y ≠ .act .count := by
      rintro rfl
      cases untouched
    refine h.executes inv does (by rw [pc]; rfl) rfl (by simp) (by simp) fun _ waits => ?_
    rw [does.lower, does.counted, if_neg other, if_neg other]
    refine (h.awake waits).imp_right ?_
    rintro ⟨u, counted, signals⟩
    refine ⟨u, counted, ?_⟩
    have apart : u ≠ t := by
      rintro rfl
      simp [pc, signalAhead] at signals
    rwa [Function.update_of_ne apart]
  | does t outcome handler y rest left s' pc does either =>
    have kept : left = rest := by
      refine either.resolve_right ?_
      rintro ⟨rfl, rfl, -⟩
      simp [orderly, pc, atClose] at ok
    subst kept
    have ending := h.ending t handler _ pc
    refine h.executes inv does (by rw [pc]; rfl) rfl ?_ (by simp) fun still waits => ?_
    · intro handler' rest' same
      obtain ⟨-, rfl⟩ := Phase.closing.inj same
      exact ending.tail
    · have other : y ≠ .act .signal := by
        rintro rfl
        exact signal_wakes pc edge still
      have mine : signalAhead (.closing handler left : Phase T) = true :=
        decide_eq_true (signal_behind ending other)
      by_cases lowers : y = .act .count
      · refine .inr ⟨t, ?_, by simpa using mine⟩
        rw [does.counted, if_pos lowers]
        exact List.mem_cons_self
      · rw [does.lower, does.counted, if_neg lowers, if_neg lowers]
        refine (h.awake waits).imp_right ?_
        rintro ⟨u, counted, signals⟩
        refine ⟨u, counted, ?_⟩
        by_cases same : u = t
        · subst same
          simpa using mine
        · rwa [Function.update_of_ne same]
  | ends t outcome handler pc =>
    have mine := order t
    rw [pc] at mine
    exact h.goto (x := { s.slaves t with phase := .gone }) s.fault mine (by simp) (by simp)
      (by simp [pc, signalAhead])
  | calls t isParent pc =>
    have mine := inv.tidy t
    rw [Tidy, pc] at mine
    obtain ⟨⟨held, owns, disciplined⟩, _⟩ := mine
    obtain rfl : held = [] := disciplined
    refine h.goto s.fault ⟨[], owns, closeConn_ascending i verbose isParent t⟩ ?_ (by simp)
      (by simp [pc, signalAhead])
    intro handler rest same
    obtain ⟨-, rfl⟩ := Phase.closing.inj same
    exact closeConn_ending i verbose isParent t
  | handles t isParent pc =>
    have mine := inv.tidy t
    rw [Tidy, show (s.slaves t).phase = .recv from ok] at mine
    refine h.goto s.fault ⟨[], mine.1, closeConn_ascending i verbose isParent t⟩ ?_ (by simp)
      (by simp [show (s.slaves t).phase = .recv from ok, signalAhead])
    intro handler rest same
    obtain ⟨-, rfl⟩ := Phase.closing.inj same
    exact closeConn_ending i verbose isParent t
  | dies t isParent y rest pc =>
    rw [orderly, pc] at ok
    cases ok
  | finalize s' moves => exact h.finalizeStep inv moves
  | wake waits =>
    refine ⟨order, h.ending, fun m held => ?_, h.cancellable, by simp⟩
    obtain ⟨_, inside⟩ := h.finalizer m held
    rw [waits] at inside
    simp at inside
  | locks m free => exact h.other (by simp [free]) (by simp) (by simp)
  | unlocks m mine => exact h.other (by simp [mine]) (by simp) (by simp)

end Steps

section Work

variable {i : Interface} {verbose : Bool} {returns : T → Prop} {s s' : State T} {t u : T}

/-- The slaves and the finalizer go on by themselves: no packet begins to arrive and no peer goes away.
No `close` fails, a request acts on a slave where it waits for a packet, and only some slaves are
through with the packet they have begun: those that get the rest of it and whose answers are read. -/
def internal (returns : T → Prop) (s : State T) : Label T → Prop
  | .next t outcome =>
    (s.slaves t).phase ≠ .recv ∧ ((s.slaves t).phase = .body → returns t) ∧
      (outcome = .error → atClose (s.slaves t).phase = false)
  | .act t _ => (s.slaves t).phase = .recv
  | .call _ _ | .finalize => True
  | _ => False

omit [DecidableEq T] in
theorem orderly_of_internal {a : Label T} (h : internal returns s a) : orderly s a := by
  cases a with
  | next t outcome =>
    cases outcome with
    | error => exact h.2.2 rfl
    | ok | wrong | eof => trivial
  | act t isParent => exact h
  | register | cancel | call | finalize | wake | other => trivial

/-- How many statements a slave executes at most, cancelled or not, before it waits for a packet or
ends. `close_conn` has 26 at most, and a message before it six. -/
def slaveLeft : Phase T → Nat
  | .unborn | .gone => 0
  | .closing _ rest => 1 + rest.length
  | .leaving rest => 40 + rest.length
  | .recv => 50
  | .enable => 51
  | .start | .body => 52
  | .disable => 53

def finalizerLeft : Finalize → Nat
  | .idle => 9
  | .cancelling => 8
  | .lock => 7
  | .test => 6
  | .wait => 5
  | .unlock => 4
  | .destroyCond => 3
  | .destroyLocks => 2
  | .free => 1
  | .finished => 0

/-- How many statements are left of a shutdown. A statement of a slave weighs four, so that a signal,
which sends the finalizer round its loop once more, lowers it too. -/
def work (s : State T) : Nat :=
  4 * ∑ t ∈ s.registered.toFinset, slaveLeft (s.slaves t).phase + finalizerLeft s.finalize

omit [DecidableEq T] in
theorem closeConn_short (i : Interface) (verbose isParent : Bool) (t : T) :
    (closeConn i verbose isParent t).length ≤ 26 := by
  cases i <;> cases verbose <;> cases isParent <;>
    simp [closeConn, clipifCloseConn, appifCloseConn, showInfo]

theorem next_lowers {outcome : Outcome} (guard : internal returns s (.next t outcome))
    (edge : next verbose s t outcome = some s') :
    slaveLeft (s'.slaves t).phase < slaveLeft (s.slaves t).phase := by
  obtain ⟨busy, _, closes⟩ := guard
  have shorter {code rest : Code T} {m : State T} {o : Outcome}
      (here : o = .error → ∀ more, code ≠ .act .close :: more)
      (does : execute s t o code = some (m, rest)) : rest.length < code.length := by
    obtain ⟨x, rest', rfl, _, rfl | ⟨rfl, failed, _⟩⟩ := execute_spec does
    · exact Nat.lt_succ_self _
    · exact absurd rfl (here failed rest')
  cases pc : (s.slaves t).phase with
  | recv => exact absurd pc busy
  | unborn | gone =>
    simp only [next, pc] at edge
    cases edge
  | start | enable | disable =>
    simp only [next, pc] at edge
    cases edge
    simp [State.goto, State.setSlave, slaveLeft]
  | body =>
    simp only [next, pc] at edge
    cases outcome <;> cases edge <;> cases verbose <;>
      simp [State.goto, State.setSlave, slaveLeft, showInfo, showWarning]
  | leaving code =>
    simp only [next, pc] at edge
    obtain ⟨⟨m, rest⟩, does, rfl⟩ := Option.map_eq_some_iff.mp edge
    have less := shorter (by simp) does
    simpa [State.goto, State.setSlave, slaveLeft] using less
  | closing handler code =>
    simp only [next, pc] at edge
    split at edge
    · cases edge
      simp [State.goto, State.setSlave, slaveLeft]
    · obtain ⟨⟨m, rest⟩, does, rfl⟩ := Option.map_eq_some_iff.mp edge
      have less := shorter (fun failed more same => by simp [pc, same, atClose] at closes; exact closes failed) does
      simpa [State.goto, State.setSlave, slaveLeft] using less

theorem next_frame {outcome : Outcome} (change : Change i verbose s (.next t outcome) s') :
    s'.registered = s.registered ∧ (∀ u, u ≠ t → s'.slaves u = s.slaves u) ∧
      (s'.finalize = s.finalize ∨ s.finalize = .wait ∧ s'.finalize = .lock) := by
  cases change with
  | turn | leave | ends =>
    exact ⟨rfl, fun u other => by simp [State.goto, State.setSlave, other], .inl rfl⟩
  | tells _ _ _ _ _ pc does | does _ _ _ _ _ _ _ pc does either =>
    exact ⟨does.registered, fun u other => by simp [State.goto, State.setSlave, other, does.slaves],
      does.finalize⟩

theorem work_lowers (ledger : Ledger s) (born : (s.slaves t).phase ≠ .unborn)
    (registered : s'.registered = s.registered) (others : ∀ u, u ≠ t → s'.slaves u = s.slaves u)
    (finalize : s'.finalize = s.finalize ∨ s.finalize = .wait ∧ s'.finalize = .lock)
    (less : slaveLeft (s'.slaves t).phase < slaveLeft (s.slaves t).phase) : work s' < work s := by
  have member : t ∈ s.registered.toFinset := List.mem_toFinset.mpr ((ledger.registered t).mpr born)
  have change := sum_change (fun u => slaveLeft (s.slaves u).phase)
    (fun u => slaveLeft (s'.slaves u).phase) t member fun u other => by rw [others u other]
  have loop : finalizerLeft s'.finalize ≤ finalizerLeft s.finalize + 2 := by
    rcases finalize with same | ⟨waits, now⟩
    · rw [same]
      omega
    · rw [waits, now, finalizerLeft, finalizerLeft]
  unfold work
  rw [registered]
  omega

theorem work_lt {a : Label T} (ledger : Ledger s) (guard : internal returns s a)
    (edge : step i verbose s a = some s') : work s' < work s := by
  cases a with
  | next t outcome =>
    obtain ⟨registered, others, finalize⟩ := next_frame (i := i) (change_of_step edge)
    refine work_lowers ledger (fun unborn => ?_) registered others finalize (next_lowers guard edge)
    simp only [step, next, unborn] at edge
    cases edge
  | call t isParent =>
    obtain ⟨pc, now⟩ := Option.ite_none_right_eq_some.mp edge
    obtain rfl := Option.some.inj now
    refine work_lowers (t := t) ledger (by simp [pc]) rfl
      (fun u other => by simp [State.setSlave, other]) (.inl rfl) ?_
    have short := closeConn_short i verbose isParent t
    simp only [State.setSlave, Function.update_self, slaveLeft, pc, List.length_nil]
    omega
  | act t isParent =>
    have recv : (s.slaves t).phase = .recv := guard
    simp only [step, cancelled, recv] at edge
    obtain ⟨_, now⟩ := Option.ite_none_right_eq_some.mp edge
    obtain rfl := Option.some.inj now
    refine work_lowers (t := t) ledger (by simp [recv]) rfl
      (fun u other => by simp [State.setSlave, other]) (.inl rfl) ?_
    have short := closeConn_short i verbose isParent t
    simp only [State.setSlave, Function.update_self, slaveLeft, recv]
    omega
  | finalize =>
    obtain ⟨slaves, _, registered, _, _⟩ := finalizeStep_frame edge
    unfold work
    rw [slaves, registered]
    have less : finalizerLeft s'.finalize < finalizerLeft s.finalize := by
      change finalizeStep s = some s' at edge
      cases pc : s.finalize <;> simp only [finalizeStep, pc] at edge <;> (repeat' split at edge) <;>
        cases edge <;> simp [finalizerLeft]
    omega
  | register | cancel | wake | other => exact absurd guard id

end Work


section Rest

variable {i : Interface} {verbose : Bool} {returns : T → Prop} {s s' : State T} {t u : T}

def wants (s : State T) : Holder T → Option (Mutex T)
  | .slave t => wanted (ahead (s.slaves t).phase)
  | .finalizer => if s.finalize = .lock then some .interface else none
  | .other => none

/-- A slave is in the middle of a packet, with cancellation disabled, and its peer keeps it there. -/
def Detained (returns : T → Prop) (s : State T) : Prop :=
  ∃ t, (s.slaves t).phase = .body ∧ ¬ returns t

/-- Nobody else keeps a mutex, and each slave that is in its loop has been asked to end. -/
structure Asked (s : State T) : Prop where
  others : ∀ m, s.holder m ≠ some .other
  slaves : ∀ t, inLoop (s.slaves t).phase = true → (s.slaves t).pending = true

/-- The interface is gone, and so is every slave. -/
structure Completed (s : State T) : Prop where
  finalize : s.finalize = .finished
  slaves : ∀ t, (s.slaves t).phase = .unborn ∨ (s.slaves t).phase = .gone
  locks : ∀ m, s.holder m = none
  connections : s.nConnections = 0

theorem slave_of_stuck (steady : Steady s) (free : ¬ Detained returns s)
    (stuck : (cleanup i verbose).Stuck (internal returns) s) (t : T) :
    (s.slaves t).phase = .unborn ∨ (s.slaves t).phase = .gone ∨
      (s.slaves t).phase = .recv ∧ (s.slaves t).pending = false ∨
      ∃ m, wants s (.slave t) = some m ∧ s.holder m ≠ none := by
  have still (ready : (s.slaves t).phase ≠ .recv) : next verbose s t .ok = none :=
    stuck (.next t .ok) ⟨ready, fun pc => by_contra fun no => free ⟨t, pc, no⟩, by simp⟩
  have waits {x : Statement (Mutex T) Effect} {rest : Code T}
      (none_ : execute s t .ok (x :: rest) = none) :
      ∃ m, wanted (x :: rest) = some m ∧ s.holder m ≠ none := by
    cases x with
    | lock m =>
      simp only [execute, ite_eq_right_iff, reduceCtorEq, imp_false] at none_
      exact ⟨m, rfl, none_⟩
    | unlock m => cases none_
    | act e => cases e <;> cases none_
  cases pc : (s.slaves t).phase with
  | unborn => exact .inl rfl
  | gone => exact .inr (.inl rfl)
  | recv =>
    have unasked : cancelled i verbose s t false = none := stuck (.act t false) pc
    simp only [cancelled, pc, steady.cancellable t pc, atPoint, and_true, true_and,
      ite_eq_right_iff, reduceCtorEq, imp_false, Bool.not_eq_true] at unasked
    exact .inr (.inr (.inl ⟨rfl, unasked⟩))
  | start | enable | disable | body =>
    have none_ := still (by simp [pc])
    simp [next, pc] at none_
  | leaving code =>
    cases code with
    | nil =>
      have none_ := stuck (.call t false) trivial
      simp [cleanup, step, pc] at none_
    | cons x rest =>
      have none_ := still (by simp [pc])
      simp only [next, pc, Option.map_eq_none_iff] at none_
      simpa [wants, pc, ahead] using waits none_
  | closing handler code =>
    have none_ := still (by simp [pc])
    simp only [next, pc] at none_
    split at none_
    · cases none_
    · rename_i x rest some_
      cases code with
      | nil => exact absurd rfl some_
      | cons x rest =>
        rw [Option.map_eq_none_iff] at none_
        simpa [wants, pc, ahead] using waits none_

theorem finalizer_of_stuck (stuck : (cleanup i verbose).Stuck (internal returns) s) :
    s.finalize = .wait ∨ s.finalize = .finished ∨
      s.finalize = .lock ∧ s.holder .interface ≠ none := by
  have none_ : finalizeStep s = none := stuck .finalize trivial
  cases pc : s.finalize with
  | wait => exact .inl rfl
  | finished => exact .inr (.inl rfl)
  | lock =>
    simp only [finalizeStep, pc, ite_eq_right_iff, reduceCtorEq, imp_false] at none_
    exact .inr (.inr ⟨rfl, none_⟩)
  | test =>
    simp only [finalizeStep, pc] at none_
    split at none_ <;> cases none_
  | idle | cancelling | unlock | destroyCond | destroyLocks | free =>
    simp [finalizeStep, pc] at none_

theorem free_of_stuck (inv : Inv s) (steady : Steady s) (free : ¬ Detained returns s)
    (stuck : (cleanup i verbose).Stuck (internal returns) s)
    (others : ∀ m, s.holder m ≠ some .other) (m : Mutex T) : s.holder m = none := by
  by_contra some_
  obtain ⟨h, taken⟩ := Option.ne_none_iff_exists'.mp some_
  have bound (m : Mutex T) : rank m ≤ 2 := by cases m <;> simp [rank]
  have above (h : Holder T) (m n : Mutex T) (holds : s.holder n = some h)
      (next : wants s h = some m) : rank n < rank m := by
    cases h with
    | slave t =>
      obtain ⟨held, owns, ascending⟩ := steady.order t
      exact ascending.above next ((owns n).mp holds)
    | finalizer =>
      obtain ⟨_, inside⟩ := steady.finalizer n holds
      have other : s.finalize ≠ .lock := by
        rintro lock
        simp [lock] at inside
      simp [wants, other] at next
    | other => exact absurd holds (others n)
  obtain ⟨n, k, holds, goes⟩ := exists_holder_goes bound above taken
  cases k with
  | slave t =>
    have tidy := inv.tidy t
    have busy (none_ : Owns s.holder (.slave t) []) : False := by
      simpa using (none_ n).mp holds
    rcases slave_of_stuck steady free stuck t with pc | pc | ⟨pc, _⟩ | ⟨l, next, held⟩
    · rw [Tidy, pc] at tidy
      exact busy tidy.1
    · rw [Tidy, pc] at tidy
      exact busy tidy.1
    · rw [Tidy, pc] at tidy
      exact busy tidy.1
    · exact held (goes l next)
  | finalizer =>
    obtain ⟨_, inside⟩ := steady.finalizer n holds
    rcases finalizer_of_stuck stuck with pc | pc | ⟨pc, _⟩ <;> simp [pc] at inside
  | other => exact others n holds

theorem completed_of_stuck (inv : Inv s) (ledger : Ledger s) (steady : Steady s)
    (released : ¬ Detained returns s) (stuck : (cleanup i verbose).Stuck (internal returns) s) (asked : Asked s) : Completed s := by
  have free := free_of_stuck inv steady released stuck asked.others
  have ended (t : T) : (s.slaves t).phase = .unborn ∨ (s.slaves t).phase = .gone := by
    rcases slave_of_stuck steady released stuck t with pc | pc | ⟨pc, unasked⟩ | ⟨l, _, held⟩
    · exact .inl pc
    · exact .inr pc
    · rw [asked.slaves t (by rw [pc]; rfl)] at unasked
      cases unasked
    · exact absurd (free l) held
  have counted : ∀ t ∈ s.registered, t ∈ s.counted := by
    intro t member
    have tidy := inv.tidy t
    rw [Tidy, (ended t).resolve_left ((ledger.registered t).mp member)] at tidy
    exact List.count_pos_iff.mp (by rw [tidy.2.1]; exact Nat.one_pos)
  have none_ : s.nConnections = 0 := by
    rw [ledger.live, List.filter_eq_nil_iff.mpr (by simpa using counted)]
    rfl
  refine ⟨?_, ended, free, none_⟩
  rcases finalizer_of_stuck stuck with waits | finished | ⟨_, taken⟩
  · rcases steady.awake waits with some_ | ⟨t, _, signals⟩
    · omega
    · rcases ended t with pc | pc <;> simp [pc, signalAhead] at signals
  · exact finished
  · exact absurd (free _) taken

theorem steady_of_reach (h : (cleanup i verbose).Reach orderly s) : Steady s := by
  refine h.invariant_of (I := Steady)
    (fun t reach => And.intro (inv_of_reach reach) (ledger_of_reach reach)) ?_
    fun s a t known steady ok edge => steady.step known.1 known.2 ok edge
  exact ⟨fun t => ⟨[], by simp [Owns, cleanup], trivial⟩, by simp [cleanup], by simp [cleanup],
    by simp [cleanup], by simp [cleanup]⟩

theorem pending_of_next {outcome : Outcome} (edge : next verbose s t outcome = some s')
    (loop : inLoop (s'.slaves t).phase = true) :
    inLoop (s.slaves t).phase = true ∧ (s'.slaves t).pending = (s.slaves t).pending := by
  cases pc : (s.slaves t).phase with
  | unborn | gone =>
    simp only [next, pc] at edge
    cases edge
  | start | enable | disable =>
    simp only [next, pc] at edge
    cases edge
    simp [State.goto, State.setSlave, inLoop]
  | recv | body =>
    simp only [next, pc] at edge
    cases outcome <;> cases edge <;> simp_all [State.goto, State.setSlave, inLoop]
  | leaving rest =>
    simp only [next, pc] at edge
    obtain ⟨r, _, rfl⟩ := Option.map_eq_some_iff.mp edge
    simp [State.goto, State.setSlave, inLoop] at loop
  | closing handler rest =>
    simp only [next, pc] at edge
    split at edge
    · cases edge
      simp [State.goto, State.setSlave, inLoop] at loop
    · obtain ⟨r, _, rfl⟩ := Option.map_eq_some_iff.mp edge
      simp [State.goto, State.setSlave, inLoop] at loop

theorem others_of_internal {a : Label T} (guard : internal returns s a) (change : Change i verbose s a s')
    (others : ∀ m, s.holder m ≠ some .other) (m : Mutex T) : s'.holder m ≠ some .other := by
  have update {n : Mutex T} {o : Option (Holder T)} (mine : o ≠ some .other) :
      Function.update s.holder n o m ≠ some .other := by
    by_cases same : m = n
    · subst same
      rwa [Function.update_self]
    · rw [Function.update_of_ne same]
      exact others m
  cases change with
  | turn | leave | ends | calls | handles | dies => exact others m
  | tells _ _ _ _ _ pc does | does _ _ _ _ _ _ _ pc does either =>
    have locks := does.locks
    change LockChange s.holder _ _ _ at locks
    cases locks with
    | lock n free now => exact now ▸ update (by simp)
    | unlock n now => exact now ▸ update (by simp)
    | act e now => exact now ▸ others m
  | finalize s' moves =>
    cases pc : s.finalize with
    | wait | finished =>
      simp only [finalizeStep, pc] at moves
      cases moves
    | idle | cancelling | destroyCond | destroyLocks | free =>
      simp only [finalizeStep, pc] at moves
      obtain rfl := Option.some.inj moves
      exact others m
    | lock =>
      simp only [finalizeStep, pc] at moves
      obtain ⟨_, now⟩ := Option.ite_none_right_eq_some.mp moves
      obtain rfl := Option.some.inj now
      exact update (by simp)
    | test =>
      simp only [finalizeStep, pc] at moves
      split at moves
      · obtain rfl := Option.some.inj moves
        exact update (by simp)
      · obtain rfl := Option.some.inj moves
        exact others m
    | unlock =>
      simp only [finalizeStep, pc] at moves
      obtain rfl := Option.some.inj moves
      exact update (by simp)
  | register | ask | wake | locks | unlocks => exact absurd guard id

theorem Asked.step {a : Label T} (h : Asked s) (guard : internal returns s a)
    (edge : step i verbose s a = some s') : Asked s' := by
  refine ⟨others_of_internal guard (change_of_step edge) h.others, fun u loop => ?_⟩
  have apart {t : T} {x : Slave T} (quiet : inLoop x.phase = false)
      (now : s'.slaves = Function.update s.slaves t x) : (s'.slaves u).pending = true := by
    by_cases same : u = t
    · subst same
      rw [now, Function.update_self, quiet] at loop
      cases loop
    · rw [now, Function.update_of_ne same] at loop ⊢
      exact h.slaves u loop
  cases a with
  | next t outcome =>
    by_cases same : u = t
    · subst same
      obtain ⟨before, kept⟩ := pending_of_next edge loop
      rw [kept]
      exact h.slaves u before
    · obtain ⟨_, others, _⟩ := next_frame (i := i) (change_of_step edge)
      rw [others u same] at loop ⊢
      exact h.slaves u loop
  | call t isParent =>
    obtain ⟨_, now⟩ := Option.ite_none_right_eq_some.mp edge
    obtain rfl := Option.some.inj now
    exact apart (by rfl) rfl
  | act t isParent =>
    have recv : (s.slaves t).phase = .recv := guard
    simp only [Cleanup.step, cancelled, recv] at edge
    obtain ⟨_, now⟩ := Option.ite_none_right_eq_some.mp edge
    obtain rfl := Option.some.inj now
    exact apart (by rfl) rfl
  | finalize =>
    obtain ⟨slaves, _⟩ := finalizeStep_frame edge
    rw [slaves] at loop ⊢
    exact h.slaves u loop
  | register | cancel | wake | other => exact absurd guard id

/-- Once every slave has been asked to end, the slaves and the finalizer of an interface come to rest
after at most so many statements, and then, unless a peer keeps a slave in the middle of a packet, the
finalizer has come to its end, as has every slave: no wake-up is lost, and no circle of threads waits
for each other's locks. -/
theorem shutdown_completes (i : Interface) (verbose : Bool)
    (h : (cleanup i verbose).Reach orderly s) (asked : Asked s) (returns : T → Prop) :
    (cleanup i verbose).Settles (internal returns) (work s)
      (fun t => Detained returns t ∨ Completed t) s := by
  refine System.settles_of_descent
    (I := fun t => (cleanup i verbose).Reach orderly t ∧ Asked t) work
    (fun t a t' known guard edge => ?_) (fun t known stuck => ?_) ⟨h, asked⟩
  · obtain ⟨reached, asked⟩ := known
    exact ⟨⟨reached.trans (.single (orderly_of_internal guard) edge), asked.step guard edge⟩,
      work_lt (ledger_of_reach reached) guard edge⟩
  · obtain ⟨reached, asked⟩ := known
    by_cases detained : Detained returns t
    · exact .inl detained
    · exact .inr (completed_of_stuck (inv_of_reach reached) (ledger_of_reach reached)
        (steady_of_reach reached) detained stuck asked)

private def asking : List (Label Bool) :=
  [.register false, .next false .ok, .next false .ok, .register true, .next true .ok,
    .next true .ok, .next true .eof, .call true false, .next true .ok, .finalize, .cancel false,
    .finalize]

theorem shutdown_completes_asked : ∃ s, (cleanup .clipif false (T := Bool)).Reach orderly s ∧
    s.nConnections = 2 ∧ s.holder .interface = some (.slave true) ∧ Asked s ∧
    ∃ n t, (cleanup .clipif false).Steps (internal fun _ => True) n s t ∧ n ≤ work s ∧
      Completed t := by
  have reached : ∃ s, (cleanup .clipif false (T := Bool)).Reach orderly s ∧
      decide (s.nConnections = 2 ∧ s.holder .interface = some (.slave true) ∧
        (∀ t, s.holder (.slot t) ≠ some .other) ∧ s.holder .print ≠ some .other ∧
        ∀ t, inLoop (s.slaves t).phase = true → (s.slaves t).pending = true) = true :=
    System.reach_of_run _ true asking (by simp [asking, orderly]) (by decide +kernel)
  obtain ⟨s, reach, seen⟩ := reached
  obtain ⟨connections, interface, slots, print, slaves⟩ := of_decide_eq_true seen
  have asked : Asked s := by
    refine ⟨fun m => ?_, slaves⟩
    cases m with
    | interface => simp [interface]
    | slot t => exact slots t
    | print => exact print
  have settles := shutdown_completes .clipif false reach asked fun _ => True
  obtain ⟨n, t, steps, stuck⟩ := settles.ends 0 s (.refl s)
  refine ⟨s, reach, connections, interface, asked, n, t, steps, settles.short n t steps,
    (settles.done n t steps stuck).resolve_left fun detained => ?_⟩
  obtain ⟨_, _, refuses⟩ := detained
  exact refuses trivial

end Rest

end DistributedClipboard.Interfaces.ShutdownRuns
