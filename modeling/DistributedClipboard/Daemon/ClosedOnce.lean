/- module: DistributedClipboard/Daemon/ClosedOnce
   source: src/src/clipboard.c, src/src/interfaces/clipif.c, src/src/common.h
   layer: theorem
   digest: Each descriptor is closed once and a failed start returns its error, apart from the parent's. -/

import DistributedClipboard.Daemon.DescriptorSteps

set_option autoImplicit false
set_option relaxedAutoImplicit false

namespace DistributedClipboard.Daemon.ClosedOnce

open DistributedClipboard.Daemon.Descriptors
open DistributedClipboard.Daemon.Main
open DistributedClipboard.Daemon.MainSteps
open DistributedClipboard.Daemon.TableCloses
open DistributedClipboard.Interfaces
open DistributedClipboard.Lib.Descriptors (Closing)
open DistributedClipboard.Lib.Discipline
open DistributedClipboard.Lib.Transition
open DistributedClipboard.Utils.Packet (packetSyncSize)

/-- `main` executes its statements, and the others only unlock `print_lock`. -/
def ownStep : State → Label → Prop
  | _, .execute closes => closes = true
  | _, .other lock => lock = false
  | _, _ => False

/-- Every call of `close` finds open what it is meant to close, nothing is closed twice, and from an
interface that has failed to start `main` comes to its return with the error. -/
structure Sound (verbose : Bool) (s : State) : Prop where
  found : ∀ e ∈ s.log, e.found = some e.meant
  once : (s.log.map Closing.meant).Nodup
  returns : ∀ err, s.failed = some err →
    ∃ t, (daemon verbose).Path ownStep s t ∧ t.returned = some err

variable {verbose : Bool} {s s' : State}

theorem undisturbed_of_own (s : State) (a : Label) (own : ownStep s a) : undisturbed s a := by
  cases a with
  | execute closes => exact fun _ => own
  | other lock => trivial
  | call r | table a closes | jam t => cases own

theorem started_of_other (h : (daemon verbose).Reach undisturbed s) :
    s.print = some .other → s.started = true := by
  refine h.invariant (I := fun s => s.print = some .other → s.started = true)
    (fun other => by cases other) fun s a t known _ edge => ?_
  cases change_of_step edge with
  | locks | unlocks | inits | jams | unlocksOther => exact fun other => by cases other
  | outputs | closes | closeFails | goes | opensClips | opensApps | opensOne | opensParent | leaves
  | fails | short | moves | tableCloses => exact known
  | starts => exact fun _ => rfl
  | locksOther threads => exact fun _ => threads.1

/-- What `main` still has to do, and whether it waits. -/
def left (s : State) : Nat := 2 * s.todo.length + if s.print = some .other then 1 else 0

theorem left_of_todo {x : Statement Unit Effect} {rest : Code} (now : s.todo = x :: rest)
    (then_ : s'.todo = rest) (print : s'.print = some .other → s.print = some .other) :
    left s' < left s := by
  rw [left, left, now, then_, List.length_cons]
  split
  · rename_i other
    rw [if_pos (print other)]
    omega
  · split <;> omega

theorem advance {err : Int} (reach : (daemon verbose).Reach undisturbed s)
    (failed : s.failed = some err) {x : Statement Unit Effect} {rest : Code}
    (now : s.todo = x :: rest) :
    ∃ a t, ownStep s a ∧ step verbose s a = some t ∧ t.failed = some err ∧ left t < left s := by
  have inv := inv_of_reach reach
  have failed' : s.failed ≠ none := by simp [failed]
  have disciplined := inv.startup.disciplined (.inr failed')
  rw [now] at disciplined
  cases x with
  | lock m =>
    cases print : s.print with
    | none =>
      refine ⟨.execute true, { s with print := some .main, todo := rest }, rfl, ?_, failed,
        left_of_todo now rfl fun other => by cases other⟩
      simp [step, now, execute, print]
    | some holder =>
      cases holder with
      | main =>
        rw [held, if_pos print] at disciplined
        exact absurd (List.mem_singleton_self _) disciplined.1
      | stuck =>
        obtain ⟨t, stuck⟩ := inv.startup.jam print
        have closed := (inv.startup.quiet (.inr failed')).stuck t stuck
        rw [inv.startup.spared failed'] at closed
        cases closed
      | other =>
        have threads : Threads s := by
          refine ⟨started_of_other reach print, ?_⟩
          rw [State.returned, inv.phase.failed err failed, now]
        refine ⟨.other false, { s with print := none }, rfl, ?_, failed, ?_⟩
        · simp only [step, threads, print, and_self, if_true]
        · simp [left, print]
  | unlock m =>
    refine ⟨.execute true, { s with print := none, todo := rest }, rfl, ?_, failed,
      left_of_todo now rfl fun other => by cases other⟩
    simp [step, now, execute]
  | act e =>
    cases e with
    | output =>
      refine ⟨.execute true, { s with todo := rest }, rfl, ?_, failed, left_of_todo now rfl id⟩
      simp [step, now, execute]
    | close v =>
      refine ⟨.execute true, { s.close (s.fd v) v.object with todo := rest }, rfl, ?_, failed,
        left_of_todo now rfl id⟩
      have opened := inv.holds.mine v (by rw [now]; exact List.mem_cons_self)
      simp [step, now, execute, opened]

theorem returns_of_failed {err : Int} (reach : (daemon verbose).Reach undisturbed s)
    (failed : s.failed = some err) :
    ∃ t, (daemon verbose).Path ownStep s t ∧ t.returned = some err := by
  have goes : ∀ s, (daemon verbose).Reach undisturbed s ∧ s.failed = some err →
      s.returned = some err ∨ ∃ a t, ownStep s a ∧ (daemon verbose).step s a = some t ∧
        ((daemon verbose).Reach undisturbed t ∧ t.failed = some err) ∧ left t < left s := by
    rintro s ⟨reach, failed⟩
    cases now : s.todo with
    | nil =>
      refine .inl ?_
      rw [State.returned, (inv_of_reach reach).phase.failed err failed, now]
    | cons x rest =>
      obtain ⟨a, t, own, edge, failed, lower⟩ := advance reach failed now
      refine .inr ⟨a, t, own, edge, ⟨?_, failed⟩, lower⟩
      exact reach.trans (.single (undisturbed_of_own s a own) edge)
  obtain ⟨t, path, -, returned⟩ := System.Path.progress left goes s ⟨reach, failed⟩
  exact ⟨t, path, returned⟩

/-- Each descriptor is closed once, and each failed start returns its error, in every run in which
the parent's hello is whole and, where an interface fails, neither a slave nor a failing `close` is
in the way. -/
theorem closed_once (verbose : Bool) {s : State} (h : (daemon verbose).Reach undisturbed s) :
    Sound verbose s := by
  have inv := inv_of_reach h
  exact ⟨inv.registry.once.sound, inv.registry.once.once, fun err => returns_of_failed h⟩

section Witness

private instance undisturbedDecidable :
    ∀ (s : State) (a : Label), Decidable (undisturbed s a)
  | s, .execute closes => inferInstanceAs (Decidable (s.failed ≠ none → closes = true))
  | s, .call (.error _) =>
    inferInstanceAs (Decidable (s.pc = .appifInit → parentClosed s.tables = false))
  | _, .call (.received err) => inferInstanceAs (Decidable ((packetSyncSize : Int) ≤ err))
  | s, .table a _ => inferInstanceAs (Decidable (s.failed ≠ none → closing s.tables a = none))
  | _, .call .ok | _, .call (.socket _) | _, .call (.mode _) | _, .jam _ | _, .other _ =>
    .isTrue trivial

private def connected : List Label :=
  [.call .ok, .call (.socket (some 3)), .call (.socket (some 4)), .call .ok, .call .ok,
    .call (.mode .connected), .call (.socket (some 5)), .call .ok, .call .ok, .call .ok]

theorem closed_once_returned :
    ∃ s, (daemon false).Reach undisturbed s ∧ Sound false s ∧ s.returned = some (-1) ∧
      s.log = [⟨.clips, some .clips⟩, ⟨.apps, some .apps⟩, ⟨parent, some parent⟩] := by
  have reached : ∃ s, (daemon false).Reach undisturbed s ∧
      decide (s.returned = some (-1) ∧
        s.log = [⟨.clips, some .clips⟩, ⟨.apps, some .apps⟩, ⟨parent, some parent⟩]) = true :=
    System.reach_of_guardedRun _ true
      (connected ++ [.call (.received 5), .table (.clipSlave 0 .next) true, .other true,
        .call (.error (-1)), .other false] ++ List.replicate 8 (.execute true)) (by decide +kernel)
  obtain ⟨s, reach, seen⟩ := reached
  obtain ⟨returned, log⟩ := of_decide_eq_true seen
  exact ⟨s, reach, closed_once false reach, returned, log⟩

/-- The parent's hello is short: `clipif_init` closes its socket, `main` closes it again, and waits
for ever for the `print_lock` that it has locked itself. -/
theorem closed_twice :
    ∃ s, (daemon false).Reach System.anyStep s ∧ ¬ Sound false s ∧ s.failed = some (-3) ∧
      s.log = [⟨parent, some parent⟩, ⟨.clips, some .clips⟩, ⟨.apps, some .apps⟩, ⟨parent, none⟩] ∧
      (daemon false).AtRest s := by
  have reached : ∃ s, (daemon false).Reach System.anyStep s ∧
      decide (s.failed = some (-3) ∧ s.todo = showError ++ [.unlock ()] ∧ s.print = some .main ∧
        s.started = false ∧
        s.log = [⟨parent, some parent⟩, ⟨.clips, some .clips⟩, ⟨.apps, some .apps⟩,
          ⟨parent, none⟩]) = true :=
    System.reach_of_run _ true
      (connected ++ [.call (.received 2)] ++ List.replicate 8 (.execute true) ++
        [.execute false, .execute true])
      (by simp [System.anyStep]) (by decide +kernel)
  obtain ⟨s, reach, seen⟩ := reached
  obtain ⟨failed, todo, print, unstarted, log⟩ := of_decide_eq_true seen
  refine ⟨s, reach, fun sound => ?_, failed, log, fun a => ?_⟩
  · have last := sound.found ⟨parent, none⟩ (by simp [log])
    cases last
  · have alone : ¬ Threads s := fun threads => by simp [Threads, unstarted] at threads
    cases a with
    | execute closes => simp [daemon, step, todo, showError, execute, print]
    | call r => simp [daemon, step, todo, showError]
    | table a closes => simp [daemon, step, alone]
    | jam t => simp [daemon, step, alone]
    | other lock => cases lock <;> simp [daemon, step, alone]

end Witness

end DistributedClipboard.Daemon.ClosedOnce
