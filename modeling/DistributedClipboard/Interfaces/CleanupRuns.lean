/- module: DistributedClipboard/Interfaces/CleanupRuns
   source: src/src/interfaces/clipif.c, src/src/interfaces/appif.c
   layer: theorem
   digest: A slave cleans up once and to the end unless it is cancelled on its way or close fails. -/

import DistributedClipboard.Interfaces.CleanupLedger

set_option autoImplicit false
set_option relaxedAutoImplicit false

namespace DistributedClipboard.Interfaces.CleanupRuns

open DistributedClipboard.Interfaces.Cleanup
open DistributedClipboard.Interfaces.CleanupLedger
open DistributedClipboard.Lib.Discipline
open DistributedClipboard.Lib.Transition

universe u

variable {T : Type u}

def atClose : Phase T → Bool
  | .closing _ (.act .close :: _) => true
  | _ => false

/-- No `close` fails, and a cancellation request acts on a slave only while it waits for a packet. -/
def orderly (s : State T) : Label T → Prop
  | .next t .error => atClose (s.slaves t).phase = false
  | .act t _ => (s.slaves t).phase = .recv
  | _ => True

section Tidy

variable [DecidableEq T]

/-- `close_conn` has been begun once, and what it has not done yet is still in `rest`. -/
structure Pending (rest : Code T) (called : Nat) (cleared signalled : Bool) : Prop where
  once : called = 1
  clears : cleared = true ∨ .act .clear ∈ rest
  signals : signalled = true ∨ .act .signal ∈ rest

def Holds (holder : Mutex T → Option (Holder T)) (t : T) (rest : Code T) : Prop :=
  ∃ held, Owns holder (.slave t) held ∧ Disciplined held rest

def Tidy (s : State T) (t : T) (x : Slave T) : Prop :=
  match x.phase with
  | .closing _ rest =>
    Holds s.holder t rest ∧ Pending rest x.called (s.cleared t) (s.signalled t)
  | .gone =>
    Owns s.holder (.slave t) [] ∧ s.counted.count t = 1 ∧
      Pending ([] : Code T) x.called (s.cleared t) (s.signalled t)
  | .leaving rest => Holds s.holder t rest ∧ x.called = 0
  | _ => Owns s.holder (.slave t) [] ∧ x.called = 0

structure Inv (s : State T) : Prop where
  tidy : ∀ t, Tidy s t (s.slaves t)
  finalizer : s.finalize = .test ∨ s.finalize = .unlock → s.holder .interface = some .finalizer

variable {s s' : State T} {t u : T} {x : Slave T}

theorem Tidy.keep (h : Tidy s t x)
    (keeps : ∀ held, Owns s.holder (.slave t) held → Owns s'.holder (.slave t) held)
    (counted : s'.counted.count t = s.counted.count t) (cleared : s'.cleared t = s.cleared t)
    (signalled : s'.signalled t = s.signalled t) : Tidy s' t x := by
  unfold Tidy at h ⊢
  rw [counted, cleared, signalled]
  split at h
  · obtain ⟨⟨held, owns, disciplined⟩, pending⟩ := h
    exact ⟨⟨held, keeps held owns, disciplined⟩, pending⟩
  · exact ⟨keeps _ h.1, h.2⟩
  · obtain ⟨⟨held, owns, disciplined⟩, quiet⟩ := h
    exact ⟨⟨held, keeps held owns, disciplined⟩, quiet⟩
  · exact ⟨keeps _ h.1, h.2⟩

theorem Tidy.others {m : Mutex T} {o : Option (Holder T)} (h : Tidy s t x)
    (now : s'.holder = Function.update s.holder m o) (before : s.holder m ≠ some (.slave t))
    (after : o ≠ some (.slave t)) (counted : s'.counted = s.counted)
    (cleared : s'.cleared = s.cleared) (signalled : s'.signalled = s.signalled) : Tidy s' t x := by
  refine h.keep (fun held owns => ?_) (by rw [counted]) (by rw [cleared]) (by rw [signalled])
  rw [now]
  exact owns.other before after

theorem Tidy.loop (h : Tidy s t x) (loop : inLoop x.phase = true) :
    Owns s.holder (.slave t) [] ∧ x.called = 0 := by
  cases pc : x.phase with
  | start | enable | recv | disable | body =>
    rw [Tidy, pc] at h
    exact h
  | unborn | leaving | closing | gone =>
    rw [pc] at loop
    cases loop

theorem tidy_loop (owns : Owns s.holder (.slave t) []) (called : x.called = 0)
    (loop : inLoop x.phase = true) : Tidy s t x := by
  cases pc : x.phase with
  | start | enable | recv | disable | body =>
    rw [Tidy, pc]
    exact ⟨owns, called⟩
  | unborn | leaving | closing | gone =>
    rw [pc] at loop
    cases loop

theorem Pending.step {y : Statement (Mutex T) Effect} {rest : Code T} {called : Nat}
    (does : Executes s s' t y) (h : Pending (y :: rest) called (s.cleared t) (s.signalled t)) :
    Pending rest called (s'.cleared t) (s'.signalled t) := by
  obtain ⟨once, clears, signals⟩ := h
  constructor
  · exact once
  · rw [does.cleared]
    by_cases now : y = .act .clear
    · left
      rw [if_pos now, Function.update_self]
    · rw [if_neg now]
      refine clears.imp_right fun member => ?_
      exact (List.mem_cons.mp member).resolve_left fun same => now same.symm
  · rw [does.signalled]
    by_cases now : y = .act .signal
    · left
      rw [if_pos now, Function.update_self]
    · rw [if_neg now]
      refine signals.imp_right fun member => ?_
      exact (List.mem_cons.mp member).resolve_left fun same => now same.symm

theorem Inv.move {x' : Slave T} (h : Inv s) (slaves : s'.slaves = Function.update s.slaves t x')
    (others : ∀ u, u ≠ t → Tidy s u (s.slaves u) → Tidy s' u (s.slaves u)) (mine : Tidy s' t x')
    (finalizer : s'.finalize = .test ∨ s'.finalize = .unlock →
      s'.holder .interface = some .finalizer) : Inv s' := by
  refine ⟨fun u => ?_, finalizer⟩
  by_cases same : u = t
  · subst same
    rw [slaves, Function.update_self]
    exact mine
  · rw [slaves, Function.update_of_ne same]
    exact others u same (h.tidy u)

theorem Inv.goto {x' : Slave T} {fault : Bool} (h : Inv s) (mine : Tidy s t x') :
    Inv { s.setSlave t x' with fault := fault } :=
  h.move rfl (fun _ _ theirs => theirs) mine h.finalizer

theorem Inv.executes {x' : Slave T} {y : Statement (Mutex T) Effect} {rest : Code T} (h : Inv s)
    (does : Executes s s' t y) (holds : Holds s.holder t (y :: rest))
    (mine : Holds s'.holder t rest → Tidy s' t x') : Inv (s'.setSlave t x') := by
  obtain ⟨held, owns, disciplined⟩ := holds
  obtain ⟨unlocks, owns'⟩ := does.locks.mine owns disciplined
  refine h.move (by rw [State.setSlave, does.slaves]) ?_ (mine owns') ?_
  · intro u apart theirs
    refine theirs.keep (fun held' => does.locks.other apart unlocks) (does.count_other apart) ?_ ?_
    · change s'.cleared u = _
      rw [does.cleared]
      split
      · exact Function.update_of_ne apart _ _
      · rfl
    · change s'.signalled u = _
      rw [does.signalled]
      split
      · exact Function.update_of_ne apart _ _
      · rfl
  · intro inside
    refine does.locks.finalizer unlocks (h.finalizer ?_)
    obtain same | ⟨-, now⟩ := does.finalize
    · exact same ▸ inside
    · change s'.finalize = .test ∨ s'.finalize = .unlock at inside
      rw [now] at inside
      cases inside with
      | inl no => cases no
      | inr no => cases no

end Tidy

section Programs

variable [DecidableEq T] (t : T)

theorem showInfo_disciplined (verbose : Bool) : Disciplined [] (showInfo verbose : Code T) := by
  cases verbose <;> simp [showInfo, Disciplined]

theorem showWarning_disciplined (verbose : Bool) :
    Disciplined [] (showWarning verbose : Code T) := by
  cases verbose <;> simp [showWarning, Disciplined]

theorem closeConn_disciplined (i : Interface) (verbose isParent : Bool) :
    Disciplined [] (closeConn i verbose isParent t) := by
  cases i <;> cases verbose <;> cases isParent <;>
    simp [closeConn, clipifCloseConn, appifCloseConn, showInfo, Disciplined]

omit [DecidableEq T] in
theorem closeConn_pending (i : Interface) (verbose isParent cleared signalled : Bool) :
    Pending (closeConn i verbose isParent t) 1 cleared signalled := by
  refine ⟨rfl, .inr ?_, .inr ?_⟩
  all_goals
    cases i <;> cases verbose <;> cases isParent <;>
      simp [closeConn, clipifCloseConn, appifCloseConn, showInfo]

end Programs

section Run

variable [DecidableEq T] {i : Interface} {verbose : Bool} {s s' : State T} {t : T}

theorem tidy_begin {x : Slave T} {handler isParent : Bool} (owns : Owns s.holder (.slave t) [])
    (called : x.called = 0) :
    Tidy s t { x with
      phase := .closing handler (closeConn i verbose isParent t), called := x.called + 1 } := by
  refine ⟨⟨[], owns, closeConn_disciplined t i verbose isParent⟩, ?_⟩
  rw [called]
  exact closeConn_pending t i verbose isParent _ _

theorem Inv.finalizeStep (h : Inv s) (moves : Cleanup.finalizeStep s = some s') : Inv s' := by
  cases pc : s.finalize with
  | wait | finished =>
    simp only [Cleanup.finalizeStep, pc] at moves
    cases moves
  | idle | cancelling | destroyCond | destroyLocks | free =>
    simp only [Cleanup.finalizeStep, pc] at moves
    obtain rfl := Option.some.inj moves
    exact ⟨h.tidy, by simp⟩
  | lock =>
    simp only [Cleanup.finalizeStep, pc] at moves
    obtain ⟨free, now⟩ := Option.ite_none_right_eq_some.mp moves
    obtain rfl := Option.some.inj now
    refine ⟨fun t => ?_, fun _ => by simp [State.setHolder]⟩
    exact (h.tidy t).others (m := .interface) rfl (by simp [free]) (by simp) rfl rfl rfl
  | test =>
    have held := h.finalizer (.inl pc)
    simp only [Cleanup.finalizeStep, pc] at moves
    split at moves
    · obtain rfl := Option.some.inj moves
      refine ⟨fun t => ?_, by simp⟩
      exact (h.tidy t).others (m := .interface) rfl (by simp [held]) (by simp) rfl rfl rfl
    · obtain rfl := Option.some.inj moves
      exact ⟨h.tidy, fun _ => held⟩
  | unlock =>
    have held := h.finalizer (.inr pc)
    simp only [Cleanup.finalizeStep, pc] at moves
    obtain rfl := Option.some.inj moves
    refine ⟨fun t => ?_, by simp⟩
    exact (h.tidy t).others (m := .interface) rfl (by simp [held]) (by simp) rfl rfl rfl

theorem Inv.other {m : Mutex T} {o : Option (Holder T)} (h : Inv s)
    (slaves : ∀ t, s.holder m ≠ some (.slave t)) (finalizer : s.holder m ≠ some .finalizer)
    (after : ∀ t, o ≠ some (.slave t)) : Inv (s.setHolder m o) := by
  refine ⟨fun t => ?_, fun inside => ?_⟩
  · exact (h.tidy t).others (m := m) rfl (slaves t) (after t) rfl rfl rfl
  · have held := h.finalizer inside
    change Function.update s.holder m _ .interface = _
    rw [Function.update_of_ne, held]
    rintro rfl
    exact finalizer held

theorem Inv.step {a : Label T} (ledger : Ledger s) (h : Inv s) (ok : orderly s a)
    (change : Change i verbose s a s') : Inv s' := by
  have tidy := h.tidy
  cases change with
  | register t idle unborn =>
    have mine := tidy t
    rw [Tidy, unborn] at mine
    exact h.move rfl (fun _ _ theirs => theirs) (tidy_loop mine.1 mine.2 rfl) h.finalizer
  | ask t cancelling =>
    exact h.move rfl (fun _ _ theirs => theirs) (tidy t) h.finalizer
  | turn t outcome x fault before after called late =>
    obtain ⟨owns, none⟩ := (tidy t).loop before
    exact h.goto (tidy_loop owns (called.trans none) after)
  | leave t outcome message fault before shown late =>
    obtain ⟨owns, none⟩ := (tidy t).loop before
    refine h.goto ⟨⟨[], owns, ?_⟩, none⟩
    obtain rfl | rfl := shown
    · exact showInfo_disciplined verbose
    · exact showWarning_disciplined verbose
  | tells t outcome y rest s' pc does =>
    have mine := tidy t
    rw [Tidy, pc] at mine
    refine h.executes does mine.1 fun holds => ⟨holds, ?_⟩
    rw [does.slaves]
    exact mine.2
  | does t outcome handler y rest left s' pc does either =>
    have mine := tidy t
    rw [Tidy, pc] at mine
    have kept : left = rest := by
      refine either.resolve_right ?_
      rintro ⟨rfl, rfl, -⟩
      simp [orderly, pc, atClose] at ok
    subst kept
    refine h.executes does mine.1 fun holds => ⟨holds, ?_⟩
    rw [does.slaves]
    exact mine.2.step does
  | ends t outcome handler pc =>
    have mine := tidy t
    rw [Tidy, pc] at mine
    obtain ⟨⟨held, owns, disciplined⟩, pending⟩ := mine
    obtain rfl : held = [] := disciplined
    have counts := ledger.account t
    rw [pc] at counts
    exact h.goto ⟨owns, counts, pending⟩
  | calls t isParent pc =>
    have mine := tidy t
    rw [Tidy, pc] at mine
    obtain ⟨⟨held, owns, disciplined⟩, called⟩ := mine
    obtain rfl : held = [] := disciplined
    exact h.goto (tidy_begin owns called)
  | handles t isParent pc =>
    have mine := tidy t
    rw [Tidy, show (s.slaves t).phase = .recv from ok] at mine
    exact h.goto (tidy_begin mine.1 mine.2)
  | dies t isParent y rest pc =>
    rw [orderly, pc] at ok
    cases ok
  | finalize s' moves => exact h.finalizeStep moves
  | wake waits => exact ⟨tidy, by simp⟩
  | locks m free => exact h.other (by simp [free]) (by simp [free]) (by simp)
  | unlocks m mine => exact h.other (by simp [mine]) (by simp [mine]) (by simp)

theorem inv_of_reach (h : (cleanup i verbose).Reach orderly s) : Inv s := by
  refine h.invariant_of (fun t => ledger_of_reach) ⟨fun t => ⟨fun m => ?_, rfl⟩, by simp [cleanup]⟩
    fun s a t ledger known ok edge => known.step ledger ok (change_of_step edge)
  simp [cleanup]

end Run

section Cleaned

variable [DecidableEq T]

def program : Phase T → Code T
  | .leaving rest | .closing _ rest => rest
  | _ => []

/-- Every slave executes `close_conn` at most once and, when it has ended, has executed it to its
end; it never locks a mutex that it holds nor unlocks one that it does not hold; and the finalizer
never waits for slaves that have all ended. -/
structure Cleaned (s : State T) : Prop where
  once : ∀ t, (s.slaves t).called ≤ 1
  lowers : ∀ t, s.counted.count t ≤ 1
  complete : ∀ t, (s.slaves t).phase = .gone →
    (s.slaves t).called = 1 ∧ s.counted.count t = 1 ∧ s.cleared t = true ∧ s.signalled t = true
  released : ∀ t, (s.slaves t).phase = .gone → ∀ m, s.holder m ≠ some (.slave t)
  locks : ∀ t m, (program (s.slaves t).phase).head? = some (.lock m) →
    s.holder m ≠ some (.slave t)
  unlocks : ∀ t m, (program (s.slaves t).phase).head? = some (.unlock m) →
    s.holder m = some (.slave t)
  total : s.nConnections = (s.registered.filter (· ∉ s.counted)).length
  awaited : 0 < s.nConnections → ∃ t ∈ s.registered, (s.slaves t).phase ≠ .gone

variable {i : Interface} {verbose : Bool} {s s' : State T} {t : T}

theorem Tidy.called (h : Tidy s t (s.slaves t)) : (s.slaves t).called ≤ 1 := by
  unfold Tidy at h
  split at h
  · exact Nat.le_of_eq h.2.once
  · exact Nat.le_of_eq h.2.2.once
  · rw [h.2]
    exact Nat.zero_le 1
  · rw [h.2]
    exact Nat.zero_le 1

theorem Tidy.holds {x : Statement (Mutex T) Effect} (h : Tidy s t (s.slaves t))
    (first : (program (s.slaves t).phase).head? = some x) :
    ∃ rest, Holds s.holder t (x :: rest) := by
  obtain ⟨rest, program⟩ := List.head?_eq_some_iff.mp first
  refine ⟨rest, ?_⟩
  rw [Tidy] at h
  cases pc : (s.slaves t).phase with
  | leaving code =>
    rw [pc] at h program
    exact program ▸ h.1
  | closing handler code =>
    rw [pc] at h program
    exact program ▸ h.1
  | unborn | start | enable | recv | disable | body | gone =>
    rw [pc] at program
    cases program

/-- A slave cleans up exactly once and to the end in every run in which no `close` fails and in
which the request for its cancellation does not reach it between its last receive and the end of
`close_conn`. -/
theorem cleanup_once (i : Interface) (verbose : Bool) {s : State T}
    (h : (cleanup i verbose).Reach orderly s) : Cleaned s := by
  have inv := inv_of_reach h
  have ledger := ledger_of_reach h
  have ended : ∀ t, (s.slaves t).phase = .gone →
      Owns s.holder (.slave t) [] ∧ s.counted.count t = 1 ∧
        Pending ([] : Code T) (s.slaves t).called (s.cleared t) (s.signalled t) := by
    intro t gone
    have mine := inv.tidy t
    rw [Tidy, gone] at mine
    exact mine
  constructor
  · exact fun t => (inv.tidy t).called
  · exact List.nodup_iff_count_le_one.mp ledger.counted.1
  · intro t gone
    obtain ⟨-, counts, once, clears, signals⟩ := ended t gone
    exact ⟨once, counts, clears.resolve_right (by simp), signals.resolve_right (by simp)⟩
  · intro t gone m held
    have member := ((ended t gone).1 m).mp held
    cases member
  · intro t m first held
    obtain ⟨rest, locked, owns, disciplined⟩ := (inv.tidy t).holds first
    exact disciplined.1 ((owns m).mp held)
  · intro t m first
    obtain ⟨rest, locked, owns, disciplined⟩ := (inv.tidy t).holds first
    exact (owns m).mpr disciplined.1
  · exact ledger.live
  · intro waits
    rw [ledger.live] at waits
    obtain ⟨t, member⟩ := List.exists_mem_of_length_pos (Int.natCast_pos.mp waits)
    obtain ⟨registered, uncounted⟩ := List.mem_filter.mp member
    refine ⟨t, registered, fun gone => ?_⟩
    have counts := (ended t gone).2.1
    refine absurd ?_ (of_decide_eq_true uncounted)
    exact List.count_pos_iff.mp (by omega)

end Cleaned

section Witness

private instance orderlyDecidable : ∀ (s : State Unit) (a : Label Unit), Decidable (orderly s a)
  | s, .next t .error => inferInstanceAs (Decidable (atClose (s.slaves t).phase = false))
  | s, .act t _ => inferInstanceAs (Decidable ((s.slaves t).phase = .recv))
  | _, .next _ .ok | _, .next _ .wrong | _, .next _ .eof | _, .register _ | _, .cancel _
  | _, .call _ _ | _, .finalize | _, .wake | _, .other _ _ => .isTrue trivial

private def born : List (Label Unit) := [.register (), .next () .ok, .next () .ok]

private def cancelledWaiting : List (Label Unit) :=
  born ++ List.replicate 4 (Label.next () .ok) ++ [Label.finalize, .cancel (), .finalize, .finalize,
    .finalize, .act () false] ++ List.replicate 12 (Label.next () .ok) ++
    List.replicate 6 Label.finalize

theorem cleanup_once_cancelled :
    ∃ s, (cleanup .clipif false (T := Unit)).Reach orderly s ∧ Cleaned s ∧
      (s.slaves ()).phase = .gone ∧ s.finalize = .finished := by
  have reached : ∃ s, (cleanup .clipif false (T := Unit)).Reach orderly s ∧
      decide ((s.slaves ()).phase = .gone ∧ s.finalize = .finished) = true :=
    System.reach_of_guardedRun _ true cancelledWaiting (by decide +kernel)
  obtain ⟨s, reach, seen⟩ := reached
  obtain ⟨gone, finished⟩ := of_decide_eq_true seen
  exact ⟨s, reach, cleanup_once .clipif false reach, gone, finished⟩

/-- The peer disconnects, and then the finalizer asks for the cancellation of the slave. -/
private def asked : List (Label Unit) :=
  born ++ [Label.next () .eof, .finalize, .cancel (), .finalize, .call () false]

/-- The request acts on a slave at the `close` of `close_conn`, and the slave is gone with the lock
of its interface and, of a clipboard, without having lowered `n_connections`, or a `close` fails,
and the slave locks the `print_lock` that it holds. -/
theorem cleanup_torn :
    (∃ s, (cleanup .clipif false (T := Unit)).Reach System.anyStep s ∧ ¬ Cleaned s ∧
      (s.slaves ()).phase = .gone ∧ s.counted = [] ∧ s.nConnections = 1 ∧
      s.holder .interface = some (.slave ()) ∧ s.finalize = .lock) ∧
    (∃ s, (cleanup .appif false (T := Unit)).Reach System.anyStep s ∧ ¬ Cleaned s ∧
      (s.slaves ()).phase = .gone ∧ s.cleared () = false ∧
      s.holder .interface = some (.slave ()) ∧ s.finalize = .lock) ∧
    (∃ s, (cleanup .clipif false (T := Unit)).Reach System.anyStep s ∧ ¬ Cleaned s ∧
      (program (s.slaves ()).phase).head? = some (.lock .print) ∧
      s.holder .print = some (.slave ())) := by
  have clip : ∃ s, (cleanup .clipif false (T := Unit)).Reach System.anyStep s ∧
      decide ((s.slaves ()).phase = .gone ∧ s.counted = [] ∧ s.nConnections = 1 ∧
        s.holder .interface = some (.slave ()) ∧ s.finalize = .lock) = true :=
    System.reach_of_run _ true (asked ++ List.replicate 6 (Label.next () .ok) ++ [Label.act () false])
      (by simp [System.anyStep]) (by decide +kernel)
  have app : ∃ s, (cleanup .appif false (T := Unit)).Reach System.anyStep s ∧
      decide ((s.slaves ()).phase = .gone ∧ s.cleared () = false ∧
        s.holder .interface = some (.slave ()) ∧ s.finalize = .lock) = true :=
    System.reach_of_run _ true (asked ++ List.replicate 4 (Label.next () .ok) ++ [Label.act () false])
      (by simp [System.anyStep]) (by decide +kernel)
  have failed : ∃ s, (cleanup .clipif false (T := Unit)).Reach System.anyStep s ∧
      decide ((program (s.slaves ()).phase).head? = some (.lock .print) ∧
        s.holder .print = some (.slave ())) = true :=
    System.reach_of_run _ true
      (born ++ [Label.next () .eof, .call () false] ++ List.replicate 6 (Label.next () .ok) ++
        [Label.next () .error, .next () .ok]) (by simp [System.anyStep]) (by decide +kernel)
  refine ⟨?_, ?_, ?_⟩
  · obtain ⟨s, reach, seen⟩ := clip
    obtain ⟨gone, counted, live, held, waits⟩ := of_decide_eq_true seen
    exact ⟨s, reach, fun clean => clean.released () gone _ held, gone, counted, live, held, waits⟩
  · obtain ⟨s, reach, seen⟩ := app
    obtain ⟨gone, cleared, held, waits⟩ := of_decide_eq_true seen
    exact ⟨s, reach, fun clean => clean.released () gone _ held, gone, cleared, held, waits⟩
  · obtain ⟨s, reach, seen⟩ := failed
    obtain ⟨first, held⟩ := of_decide_eq_true seen
    exact ⟨s, reach, fun clean => clean.locks () _ first held, first, held⟩

end Witness

end DistributedClipboard.Interfaces.CleanupRuns
