/- module: DistributedClipboard/Interfaces/Teardown
   source: src/src/interfaces/clipif.c, src/src/interfaces/appif.c
   layer: theorem
   digest: No slave works on an interface that its finalizer has destroyed, if each has signalled. -/

import DistributedClipboard.Interfaces.CleanupLedger

set_option autoImplicit false
set_option relaxedAutoImplicit false

namespace DistributedClipboard.Interfaces.Teardown

open DistributedClipboard.Interfaces.Cleanup
open DistributedClipboard.Interfaces.CleanupLedger
open DistributedClipboard.Lib.Discipline
open DistributedClipboard.Lib.Transition

universe u

variable {T : Type u}

/-- The finalizer has left its loop. -/
def left : Finalize → Bool
  | .unlock | .destroyCond | .destroyLocks | .free | .finished => true
  | _ => false

def destroys : Finalize → Bool
  | .destroyLocks | .free | .finished => true
  | _ => false

/-- A slave that has not started or has nothing to do any more. -/
def idle : Phase T → Bool
  | .unborn | .gone | .closing _ [] => true
  | _ => false

def Ending (rest : Code T) : Prop := ∀ x, rest.getLast? = some x → x = .act .signal

variable {rest : Code T} {y : Statement (Mutex T) Effect}

theorem Ending.tail (h : Ending (y :: rest)) : Ending rest := by
  intro x last
  refine h x ?_
  rw [List.getLast?_cons, last]
  rfl

theorem Ending.closeFailed (h : Ending (.act .close :: rest)) :
    Ending (Cleanup.closeFailed ++ rest) := by
  intro x last
  cases rest with
  | nil =>
    cases h (.act .close) rfl
  | cons z rest =>
    refine h.tail x ?_
    rw [List.getLast?_append] at last
    rw [List.getLast?_cons] at last ⊢
    exact last

theorem Ending.empty (h : Ending rest) (none : .act .signal ∉ rest) : rest = [] := by
  cases last : rest.getLast? with
  | none => exact List.getLast?_eq_none_iff.mp last
  | some x =>
    obtain rfl := h x last
    exact absurd (List.mem_of_getLast? last) none

theorem closeConn_ending (i : Interface) (verbose isParent : Bool) (t : T) :
    Ending (closeConn i verbose isParent t) := by
  intro x last
  cases i with
  | clipif =>
    simp only [closeConn, clipifCloseConn, List.getLast?_append] at last
    exact (Option.some.inj last).symm
  | appif =>
    simp only [closeConn, appifCloseConn, List.getLast?_append] at last
    exact (Option.some.inj last).symm

theorem destroys_of_destroyed {f : Finalize} (h : destroyed f y = true) : destroys f = true := by
  cases f with
  | destroyLocks | free | finished => rfl
  | idle | cancelling | lock | test | wait | unlock | destroyCond => cases h

theorem idle_loop {p : Phase T} (loop : inLoop p = true) : idle p = false := by
  cases p with
  | start | enable | recv | disable | body => rfl
  | unborn | leaving | closing | gone => cases loop

variable [DecidableEq T]

/-- The slave is in `close_conn` before its `pthread_cond_signal`. -/
def signalAhead : Phase T → Bool
  | .closing _ rest => decide (.act .signal ∈ rest)
  | _ => false

/-- When the finalizer destroys the condition, each slave that has lowered `n_connections` has
signalled or has ended. -/
def signalled (s : State T) : Label T → Prop
  | .finalize =>
    s.finalize = .destroyCond → ∀ t ∈ s.counted, signalAhead (s.slaves t).phase = false
  | _ => True

structure Calm (s : State T) : Prop where
  ending : ∀ t handler rest, (s.slaves t).phase = .closing handler rest → Ending rest
  past : left s.finalize = true → ∀ t ∈ s.registered, t ∈ s.counted
  still : destroys s.finalize = true → ∀ t, idle (s.slaves t).phase = true
  fault : s.fault = false

variable {i : Interface} {verbose : Bool} {s s' : State T} {t u : T} {x : Slave T}

omit [DecidableEq T] in
theorem Calm.early (h : Calm s) (busy : idle (s.slaves t).phase = false) :
    destroys s.finalize = false := by
  rw [Bool.eq_false_iff]
  intro now
  rw [h.still now t] at busy
  cases busy

theorem Calm.move (h : Calm s) (busy : idle (s.slaves t).phase = false)
    (slaves : s'.slaves = Function.update s.slaves t x)
    (ending : ∀ handler rest, x.phase = .closing handler rest → Ending rest)
    (registered : s'.registered = s.registered) (counted : ∀ u ∈ s.counted, u ∈ s'.counted)
    (finalize : s'.finalize = s.finalize ∨ s'.finalize = .lock)
    (fault : s'.fault = true → s.fault = true ∨ destroys s.finalize = true) : Calm s' := by
  have early := h.early busy
  refine ⟨fun u handler rest pc => ?_, fun out u member => ?_, fun out => ?_, ?_⟩
  · by_cases same : u = t
    · subst same
      rw [slaves, Function.update_self] at pc
      exact ending handler rest pc
    · rw [slaves, Function.update_of_ne same] at pc
      exact h.ending u handler rest pc
  · obtain same | now := finalize
    · rw [same] at out
      rw [registered] at member
      exact counted u (h.past out u member)
    · rw [now] at out
      cases out
  · obtain same | now := finalize
    · rw [same, early] at out
      cases out
    · rw [now] at out
      cases out
  · rw [Bool.eq_false_iff]
    intro now
    obtain before | after := fault now
    · rw [h.fault] at before
      cases before
    · rw [early] at after
      cases after

theorem Calm.executes (h : Calm s) (does : Executes s s' t y)
    (busy : idle (s.slaves t).phase = false)
    (ending : ∀ handler rest, x.phase = .closing handler rest → Ending rest) :
    Calm (s'.setSlave t x) := by
  refine h.move busy (by rw [State.setSlave, does.slaves]) ending does.registered ?_
    (does.finalize.imp_right And.right) ?_
  · intro u member
    change u ∈ s'.counted
    rw [does.counted]
    split
    · exact List.mem_cons_of_mem _ member
    · exact member
  · intro now
    change s'.fault = true at now
    rw [does.fault, Bool.or_eq_true] at now
    exact now.imp_right destroys_of_destroyed

theorem finalizeStep_leaves (moves : finalizeStep s = some s') :
    (left s'.finalize = true → left s.finalize = true ∨ s.nConnections ≤ 0) ∧
      (destroys s'.finalize = true → destroys s.finalize = true ∨ s.finalize = .destroyCond) := by
  cases pc : s.finalize with
  | wait | finished =>
    simp only [finalizeStep, pc] at moves
    cases moves
  | idle | cancelling | unlock | destroyCond | destroyLocks | free =>
    simp only [finalizeStep, pc] at moves
    obtain rfl := Option.some.inj moves
    simp [left, destroys]
  | lock =>
    simp only [finalizeStep, pc] at moves
    obtain ⟨-, now⟩ := Option.ite_none_right_eq_some.mp moves
    obtain rfl := Option.some.inj now
    simp [left, destroys]
  | test =>
    simp only [finalizeStep, pc] at moves
    split at moves
    · obtain rfl := Option.some.inj moves
      simp [left, destroys]
    · obtain rfl := Option.some.inj moves
      exact ⟨fun _ => .inr (by omega), by simp [destroys]⟩

theorem counted_of_none (ledger : Ledger s) (none : s.nConnections ≤ 0) :
    ∀ t ∈ s.registered, t ∈ s.counted := by
  intro t member
  by_contra uncounted
  have live := ledger.live
  have some : t ∈ s.registered.filter (· ∉ s.counted) :=
    List.mem_filter.mpr ⟨member, decide_eq_true uncounted⟩
  have positive := List.length_pos_of_mem some
  omega

theorem idle_of_counted (ledger : Ledger s) (h : Calm s) (member : t ∈ s.counted)
    (signals : signalAhead (s.slaves t).phase = false) : idle (s.slaves t).phase = true := by
  have mine := ledger.account t
  have some := List.count_pos_iff.mpr member
  cases pc : (s.slaves t).phase with
  | unborn | gone => rfl
  | start | enable | recv | disable | body | leaving rest =>
    rw [pc] at mine
    have none := account_quiet mine (by simp [inLoop])
    omega
  | closing handler rest =>
    rw [pc] at signals
    rw [(h.ending t handler rest pc).empty (of_decide_eq_false signals)]
    rfl

theorem Calm.finalizeStep (ledger : Ledger s) (h : Calm s)
    (ok : s.finalize = .destroyCond → ∀ t ∈ s.counted, signalAhead (s.slaves t).phase = false)
    (moves : Cleanup.finalizeStep s = some s') : Calm s' := by
  obtain ⟨slaves, counted, registered, -, fault⟩ := finalizeStep_frame moves
  obtain ⟨leaves, destroys⟩ := finalizeStep_leaves moves
  refine ⟨by rw [slaves]; exact h.ending, fun out => ?_, fun out => ?_, fault.trans h.fault⟩
  · rw [registered, counted]
    obtain before | none := leaves out
    · exact h.past before
    · exact counted_of_none ledger none
  · rw [slaves]
    intro t
    obtain before | now := destroys out
    · exact h.still before t
    · by_cases born : (s.slaves t).phase = .unborn
      · rw [born]
        rfl
      · have member := h.past (by rw [now]; rfl) t ((ledger.registered t).mpr born)
        exact idle_of_counted ledger h member (ok now t member)

theorem Calm.step {a : Label T} (ledger : Ledger s) (h : Calm s) (ok : signalled s a)
    (change : Change i verbose s a s') : Calm s' := by
  cases change with
  | register t idle unborn =>
    refine ⟨fun u handler rest pc => ?_, fun out => ?_, fun out => ?_, h.fault⟩
    · by_cases same : u = t
      · subst same
        simp [State.goto, State.setSlave] at pc
      · simp only [State.goto, State.setSlave, Function.update_of_ne same] at pc
        exact h.ending u handler rest pc
    · change left s.finalize = true at out
      rw [idle] at out
      cases out
    · change destroys s.finalize = true at out
      rw [idle] at out
      cases out
  | ask t cancelling =>
    refine ⟨fun u handler rest pc => ?_, h.past, fun out => ?_, h.fault⟩
    · by_cases same : u = t
      · subst same
        simp only [State.setSlave, Function.update_self] at pc
        exact h.ending u handler rest pc
      · simp only [State.setSlave, Function.update_of_ne same] at pc
        exact h.ending u handler rest pc
    · change destroys s.finalize = true at out
      rw [cancelling] at out
      cases out
  | turn t outcome x fault before after called late =>
    refine h.move (idle_loop before) rfl ?_ rfl (fun _ member => member) (.inl rfl) fun now => ?_
    · intro handler rest pc
      rw [pc] at after
      cases after
    · refine (late now).imp_right fun finished => ?_
      rw [finished]
      rfl
  | leave t outcome message fault before shown late =>
    refine h.move (idle_loop before) rfl (by simp) rfl (fun _ member => member) (.inl rfl)
      fun now => ?_
    refine (late now).imp_right fun finished => ?_
    rw [finished]
    rfl
  | tells t outcome y rest s' pc does =>
    exact h.executes does (by rw [pc]; rfl) (by simp)
  | does t outcome handler y rest left s' pc does either =>
    have ending := h.ending t handler _ pc
    refine h.executes does (by rw [pc]; rfl) ?_
    intro handler' rest' same
    obtain ⟨-, rfl⟩ := Phase.closing.inj same
    obtain rfl | ⟨rfl, -, rfl⟩ := either
    · exact ending.tail
    · exact ending.closeFailed
  | ends t outcome handler pc =>
    refine ⟨fun u handler' rest now => ?_, h.past, fun out u => ?_, h.fault⟩
    · by_cases same : u = t
      · subst same
        simp [State.goto, State.setSlave] at now
      · simp only [State.goto, State.setSlave, Function.update_of_ne same] at now
        exact h.ending u handler' rest now
    · by_cases same : u = t
      · subst same
        simp only [State.goto, State.setSlave, Function.update_self]
        rfl
      · simp only [State.goto, State.setSlave, Function.update_of_ne same]
        exact h.still out u
  | calls t isParent pc =>
    refine h.move (by rw [pc]; rfl) rfl ?_ rfl (fun _ member => member) (.inl rfl) .inl
    intro handler rest same
    obtain ⟨-, rfl⟩ := Phase.closing.inj same
    exact closeConn_ending i verbose isParent t
  | handles t isParent pc =>
    refine h.move ?_ rfl ?_ rfl (fun _ member => member) (.inl rfl) .inl
    · obtain pc | ⟨rest, pc⟩ := pc
      · rw [pc]
        rfl
      · rw [pc]
        rfl
    · intro handler rest same
      obtain ⟨-, rfl⟩ := Phase.closing.inj same
      exact closeConn_ending i verbose isParent t
  | dies t isParent y rest pc =>
    exact h.move (by rw [pc]; rfl) rfl (by simp) rfl (fun _ member => member) (.inl rfl) .inl
  | finalize s' moves => exact h.finalizeStep ledger ok moves
  | wake waits => exact ⟨h.ending, by simp [left], by simp [destroys], h.fault⟩
  | locks m free => exact ⟨h.ending, h.past, h.still, h.fault⟩
  | unlocks m held => exact ⟨h.ending, h.past, h.still, h.fault⟩

/-- No slave works on what the finalizer of its interface has destroyed or freed, in every run in
which each slave that has lowered `n_connections` has signalled when the condition is destroyed. -/
theorem teardown_safe (i : Interface) (verbose : Bool) {s : State T}
    (h : (cleanup i verbose).Reach signalled s) : s.fault = false := by
  have calm : Calm s := by
    refine h.invariant_of (fun t => ledger_of_reach) ?_
      fun s a t ledger known ok edge => known.step ledger ok (change_of_step edge)
    exact ⟨by simp [cleanup], by simp [cleanup], by simp [cleanup, destroys], rfl⟩
  exact calm.fault

section Witness

private instance signalledDecidable : ∀ (s : State Unit) (a : Label Unit), Decidable (signalled s a)
  | s, .finalize => inferInstanceAs (Decidable (s.finalize = .destroyCond →
      ∀ t ∈ s.counted, signalAhead (s.slaves t).phase = false))
  | _, .next _ _ | _, .act _ _ | _, .register _ | _, .cancel _ | _, .call _ _ | _, .wake
  | _, .other _ _ => .isTrue trivial

private def cancelledInRecv : List (Label Unit) :=
  [.register (), .next () .ok, .next () .ok, .finalize, .cancel (), .finalize, .act () false]

theorem teardown_safe_after_wait :
    ∃ s, (cleanup .clipif false (T := Unit)).Reach signalled s ∧ s.fault = false ∧
      s.finalize = .finished ∧ s.counted = [()] := by
  have reached : ∃ s, (cleanup .clipif false (T := Unit)).Reach signalled s ∧
      decide (s.finalize = .finished ∧ s.counted = [()]) = true :=
    System.reach_of_guardedRun _ true
      (cancelledInRecv ++ List.replicate 2 Label.finalize ++
        List.replicate 12 (Label.next () .ok) ++ List.replicate 6 Label.finalize)
      (by decide +kernel)
  obtain ⟨s, reach, seen⟩ := reached
  obtain ⟨finished, counted⟩ := of_decide_eq_true seen
  exact ⟨s, reach, teardown_safe .clipif false reach, finished, counted⟩

/-- The finalizer locks the interface between the unlock of a slave and its signal, finds no
connection, and the slave signals a condition that has been destroyed and freed. -/
theorem signal_after_free :
    (∃ s, (cleanup .clipif false (T := Unit)).Reach System.anyStep s ∧ s.fault = true ∧
      s.finalize = .finished) ∧
    (∃ s, (cleanup .appif false (T := Unit)).Reach System.anyStep s ∧ s.fault = true ∧
      s.finalize = .finished) := by
  have clip : ∃ s, (cleanup .clipif false (T := Unit)).Reach System.anyStep s ∧
      decide (s.fault = true ∧ s.finalize = .finished) = true :=
    System.reach_of_run _ true (cancelledInRecv ++ List.replicate 10 (Label.next () .ok) ++
      List.replicate 6 Label.finalize ++ [Label.next () .ok]) (by simp [System.anyStep]) (by decide +kernel)
  have app : ∃ s, (cleanup .appif false (T := Unit)).Reach System.anyStep s ∧
      decide (s.fault = true ∧ s.finalize = .finished) = true :=
    System.reach_of_run _ true (cancelledInRecv ++ List.replicate 7 (Label.next () .ok) ++
      List.replicate 6 Label.finalize ++ [Label.next () .ok]) (by simp [System.anyStep]) (by decide +kernel)
  refine ⟨?_, ?_⟩
  · obtain ⟨s, reach, seen⟩ := clip
    exact ⟨s, reach, of_decide_eq_true seen⟩
  · obtain ⟨s, reach, seen⟩ := app
    exact ⟨s, reach, of_decide_eq_true seen⟩

end Witness

end DistributedClipboard.Interfaces.Teardown
