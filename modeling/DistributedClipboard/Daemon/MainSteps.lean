/- module: DistributedClipboard/Daemon/MainSteps
   source: src/src/clipboard.c, src/src/interfaces/clipif.c, src/src/interfaces/appif.c
   layer: lemma
   digest: What each step of the daemon changes. -/

import DistributedClipboard.Daemon.Main

set_option autoImplicit false
set_option relaxedAutoImplicit false

namespace DistributedClipboard.Daemon.MainSteps

open DistributedClipboard.Daemon.Main
open DistributedClipboard.Interfaces
open DistributedClipboard.Interfaces.Tables (Conn Fd Kernel closeFd)
open DistributedClipboard.Lib.Descriptors
open DistributedClipboard.Lib.Discipline
open DistributedClipboard.Utils.Packet (packetSyncSize)

def rank : Pc → Nat
  | .arguments => 0
  | .clipsSocket => 1
  | .appsSocket _ => 2
  | .bindClips => 3
  | .bindApps => 4
  | .mode => 5
  | .parentSocket => 6
  | .connect => 7
  | .timeInit => 8
  | .clipifInit => 9
  | .hello => 10
  | .appifInit => 11
  | .printLock => 12
  | .serve => 13
  | .appifFinalize => 14
  | .clipifFinalize => 15
  | .leave _ => 16

def owed : Code → List Var
  | [] => []
  | .act (.close v) :: rest => v :: owed rest
  | _ :: rest => owed rest

theorem owed_append (c d : Code) : owed (c ++ d) = owed c ++ owed d := by
  induction c with
  | nil => rfl
  | cons x c ih =>
    cases x with
    | lock m | unlock m => exact ih
    | act e =>
      cases e with
      | output => exact ih
      | close v => exact congrArg (List.cons v) ih

theorem owed_closeAll (s : State) :
    owed (closeAll s) = [.clipsSock, .appsSock] ++ if s.sock = 0 then [] else [.sock] := by
  rw [closeAll, owed_append]
  split <;> rfl

/-- `main` goes from one call to the next: it does not leave out where a socket is opened or the
interfaces start. -/
structure Onward (pc next : Pc) : Prop where
  further : rank pc < rank next
  returns : rank next < 16
  sockets : rank next ≤ 2 ∨ 3 ≤ rank pc
  clips : next ≠ .appsSocket true
  starts : rank next ≤ 10 ∨ 11 ≤ rank pc

instance (pc next : Pc) : Decidable (Onward pc next) :=
  decidable_of_iff (rank pc < rank next ∧ rank next < 16 ∧ (rank next ≤ 2 ∨ 3 ≤ rank pc) ∧
      next ≠ .appsSocket true ∧ (rank next ≤ 10 ∨ 11 ≤ rank pc))
    ⟨fun ⟨a, b, c, d, e⟩ => ⟨a, b, c, d, e⟩, fun ⟨a, b, c, d, e⟩ => ⟨a, b, c, d, e⟩⟩

inductive Change (s : State) : Label → State → Prop
  | locks (rest : Code) (todo : s.todo = .lock () :: rest) (free : s.print = none) :
    Change s (.execute true) { s with print := some .main, todo := rest }
  | unlocks (rest : Code) (todo : s.todo = .unlock () :: rest) :
    Change s (.execute true) { s with print := none, todo := rest }
  | outputs (rest : Code) (todo : s.todo = .act .output :: rest) :
    Change s (.execute true) { s with todo := rest }
  | closes (rest : Code) (v : Var) (todo : s.todo = .act (.close v) :: rest) :
    Change s (.execute true) { s.close (s.fd v) v.object with todo := rest }
  | closeFails (rest : Code) (v : Var) (todo : s.todo = .act (.close v) :: rest) :
    Change s (.execute false) { s.close (s.fd v) v.object with todo := closeFailed ++ rest }
  | goes (r : Result) (pc : Pc) (todo : Code) (idle : s.todo = []) (onward : Onward s.pc pc)
      (message : todo = [] ∨ todo = showError) :
    Change s (.call r) { s.goto pc with todo := todo }
  | opensClips (fd : Fd) (idle : s.todo = []) (pc : s.pc = .clipsSocket) (free : s.Free fd) :
    Change s (.call (.socket (some fd)))
      { (s.opens fd .clips).goto (.appsSocket true) with clips := fd }
  | opensApps (fd : Fd) (idle : s.todo = []) (pc : s.pc = .appsSocket true) (free : s.Free fd) :
    Change s (.call (.socket (some fd)))
      { (s.opens fd .apps).goto .bindClips with apps := fd }
  | opensOne (fd : Fd) (idle : s.todo = []) (pc : s.pc = .appsSocket false) (free : s.Free fd) :
    Change s (.call (.socket (some fd)))
      { (s.opens fd .apps).leave ERR_SOCKET showError with apps := fd }
  | opensParent (fd : Fd) (idle : s.todo = []) (pc : s.pc = .parentSocket) (free : s.Free fd) :
    Change s (.call (.socket (some fd)))
      { (s.opens fd parent).goto .connect with sock := fd }
  | leaves (r : Result) (code : Int) (todo : Code) (idle : s.todo = []) (before : rank s.pc < 16)
      (some : (owed todo).Sublist [.clipsSock, .appsSock])
      (opened : owed todo ≠ [] → 3 ≤ rank s.pc) :
    Change s (.call r) (s.leave code todo)
  | fails (err : Int) (idle : s.todo = []) (pc : s.pc = .clipifInit ∨ s.pc = .appifInit) :
    Change s (.call (.error err)) (s.fail err (showError ++ closeAll s))
  | short (err : Int) (idle : s.todo = []) (pc : s.pc = .hello) (missing : err < packetSyncSize) :
    Change s (.call (.received err))
      (s.fail (-3) (showError ++ [.act (.close .sock)] ++ closeAll s))
  | starts (r : Result) (idle : s.todo = [])
      (pc : s.pc = .clipifInit ∧ s.sock = 0 ∨ s.pc = .hello) :
    Change s (.call r) ((start s).goto .appifInit)
  | inits (idle : s.todo = []) (pc : s.pc = .printLock) :
    Change s (.call .ok) { s.goto .serve with print := none }
  | moves (a : Tables.Label) (t : Tables.State) (threads : Threads s) (admitted : admits s a)
      (edge : Tables.step s.tables a = some t) (closing : closing s.tables a = none) :
    Change s (.table a true) { s with tables := t }
  | tableCloses (a : Tables.Label) (closes : Bool) (t : Tables.State) (c : Conn) (fd : Fd)
      (stuck : Thread → Bool) (threads : Threads s) (edge : Tables.step s.tables a = some t)
      (closing : closing s.tables a = some (c, fd))
      (kept : ∀ u, s.stuck u = true → stuck u = true)
      (jammed : ∀ u, stuck u = true → s.stuck u = true ∨ thread a = some u) :
    Change s (.table a closes)
      { s with
        tables := t
        sockets := Function.update s.sockets fd none
        log := s.log ++ [⟨.conn c, s.denotes fd⟩]
        stuck := stuck }
  | jams (t : Thread) (threads : Threads s) (stuck : s.stuck t = true) (free : s.print = none) :
    Change s (.jam t) { s with print := some .stuck }
  | locksOther (threads : Threads s) (free : s.print = none) :
    Change s (.other true) { s with print := some .other }
  | unlocksOther (threads : Threads s) (held : s.print = some .other) :
    Change s (.other false) { s with print := none }

variable {verbose : Bool} {s s' : State} {label : Label}

theorem change_of_execute {closes : Bool} (edge : step verbose s (.execute closes) = some s') :
    Change s (.execute closes) s' := by
  simp only [step] at edge
  cases todo : s.todo with
  | nil =>
    rw [todo] at edge
    cases edge
  | cons x rest =>
    simp only [todo] at edge
    cases x with
    | lock m =>
      simp only [execute, Option.ite_none_right_eq_some, Option.some.injEq] at edge
      obtain ⟨⟨rfl, free⟩, rfl⟩ := edge
      exact .locks rest todo free
    | unlock m =>
      simp only [execute, Option.ite_none_right_eq_some, Option.some.injEq] at edge
      obtain ⟨rfl, rfl⟩ := edge
      exact .unlocks rest todo
    | act e =>
      cases e with
      | output =>
        simp only [execute, Option.ite_none_right_eq_some, Option.some.injEq] at edge
        obtain ⟨rfl, rfl⟩ := edge
        exact .outputs rest todo
      | close v =>
        simp only [execute] at edge
        repeat' split at edge
        all_goals cases edge
        · rename_i yes _
          obtain rfl := yes
          exact .closes rest v todo
        · rename_i no
          obtain rfl := Bool.eq_false_iff.mpr no
          exact .closeFails rest v todo

theorem Change.onward {r : Result} {pc next : Pc} (now : s.pc = pc) (idle : s.todo = [])
    (onward : Onward pc next) : Change s (.call r) (s.goto next) := by
  subst now
  have change := Change.goes r next [] idle onward (.inl rfl)
  have same : ({ s.goto next with todo := [] } : State) = s.goto next := by
    rw [← idle]
    rfl
  rwa [same] at change

theorem Change.quits {r : Result} {pc : Pc} {code : Int} (shown : Code) (now : s.pc = pc)
    (idle : s.todo = []) (before : rank pc < 16) (silent : owed shown = []) (opened : 3 ≤ rank pc) :
    Change s (.call r) (s.leave code (shown ++ closeSockets)) := by
  subst now
  refine .leaves r code _ idle before ?_ fun _ => opened
  rw [owed_append, silent]
  exact List.Sublist.refl _

theorem Change.gives {r : Result} {pc : Pc} {code : Int} {shown : Code} (now : s.pc = pc)
    (idle : s.todo = []) (before : rank pc < 16) (silent : owed shown = []) :
    Change s (.call r) (s.leave code shown) := by
  subst now
  refine .leaves r code _ idle before ?_ fun some => absurd silent some
  rw [silent]
  exact List.nil_sublist _

theorem change_of_call {r : Result} (edge : step verbose s (.call r) = some s') :
    Change s (.call r) s' := by
  simp only [step, Option.ite_none_right_eq_some] at edge
  obtain ⟨idle, edge⟩ := edge
  have silent : owed showError = [] := rfl
  have info : owed (showError ++ showInfo verbose) = [] := by
    cases verbose <;> rfl
  cases pc : s.pc with
  | arguments =>
    cases r <;> simp only [call, pc, reduceCtorEq, Option.some.injEq] at edge
    · exact edge ▸ .onward pc idle (by decide)
    · exact edge ▸ .gives pc idle (by decide) info
  | clipsSocket =>
    cases r with
    | socket fd =>
      cases fd with
      | none =>
        obtain rfl : s.goto (.appsSocket false) = s' := by simpa [call, pc] using edge
        exact .onward pc idle (by decide)
      | some fd =>
        simp only [call, pc, Option.ite_none_right_eq_some, Option.some.injEq] at edge
        obtain ⟨free, rfl⟩ := edge
        exact .opensClips fd idle pc free
    | ok | error err | mode m | received err => simp [call, pc] at edge
  | appsSocket created =>
    cases r with
    | socket fd =>
      cases fd with
      | none =>
        obtain rfl : s.leave ERR_SOCKET showError = s' := by simpa [call, pc] using edge
        exact .gives pc idle (Nat.le_of_ble_eq_true rfl) silent
      | some fd =>
        simp only [call, pc, Option.ite_none_right_eq_some] at edge
        obtain ⟨free, edge⟩ := edge
        cases created with
        | false =>
          obtain rfl := Option.some.inj edge
          exact .opensOne fd idle pc free
        | true =>
          obtain rfl := Option.some.inj edge
          exact .opensApps fd idle pc free
    | ok | error err | mode m | received err => simp [call, pc] at edge
  | bindClips =>
    cases r <;> simp only [call, pc, reduceCtorEq, Option.some.injEq] at edge
    · exact edge ▸ .onward pc idle (by decide)
    · subst edge
      refine .leaves _ _ _ idle (by rw [pc]; decide) ?_ fun _ => by rw [pc]; decide
      decide
  | bindApps =>
    cases r <;> simp only [call, pc, reduceCtorEq, Option.some.injEq] at edge
    · exact edge ▸ .onward pc idle (by decide)
    · exact edge ▸ .quits showError pc idle (by decide) silent (by decide)
  | mode =>
    cases r with
    | mode m =>
      cases m <;> simp only [call, pc, Mode.error, reduceCtorEq, if_true, if_false,
        Option.some.injEq] at edge
      case single | connected => exact edge ▸ .onward pc idle (by decide)
      all_goals exact edge ▸ .quits showError pc idle (by decide) silent (by decide)
    | ok | error err | socket fd | received err => simp [call, pc] at edge
  | parentSocket =>
    cases r with
    | socket fd =>
      cases fd with
      | none =>
        obtain rfl : s.leave ERR_SOCKET (showError ++ closeSockets) = s' := by
          simpa [call, pc] using edge
        exact .quits showError pc idle (by decide) silent (by decide)
      | some fd =>
        simp only [call, pc, Option.ite_none_right_eq_some, Option.some.injEq] at edge
        obtain ⟨free, rfl⟩ := edge
        exact .opensParent fd idle pc free
    | ok | error err | mode m | received err => simp [call, pc] at edge
  | connect =>
    cases r <;> simp only [call, pc, reduceCtorEq, Option.some.injEq] at edge
    · exact edge ▸ .onward pc idle (by decide)
    · exact edge ▸ .quits showError pc idle (by decide) silent (by decide)
  | timeInit =>
    cases r <;> simp only [call, pc, reduceCtorEq, Option.some.injEq] at edge
    · exact edge ▸ .onward pc idle (by decide)
    · exact edge ▸ .goes _ .clipifInit showError idle (by rw [pc]; decide) (.inr rfl)
  | clipifInit =>
    cases r with
    | ok =>
      simp only [call, pc] at edge
      split at edge
      · rename_i alone
        obtain rfl := Option.some.inj edge
        exact .starts _ idle (.inl ⟨pc, alone⟩)
      · obtain rfl := Option.some.inj edge
        exact .onward pc idle (by decide)
    | error err =>
      simp only [call, pc, Option.ite_none_right_eq_some, Option.some.injEq] at edge
      obtain ⟨-, rfl⟩ := edge
      exact .fails err idle (.inl pc)
    | socket fd | mode m | received err => simp [call, pc] at edge
  | hello =>
    cases r with
    | received err =>
      simp only [call, pc] at edge
      split at edge
      · rename_i missing
        obtain rfl := Option.some.inj edge
        exact .short err idle pc missing
      · obtain rfl := Option.some.inj edge
        exact .starts _ idle (.inr pc)
    | ok | error err | socket fd | mode m => simp [call, pc] at edge
  | appifInit =>
    cases r with
    | ok =>
      obtain rfl : s.goto .printLock = s' := by simpa [call, pc] using edge
      exact .onward pc idle (by decide)
    | error err =>
      simp only [call, pc, Option.ite_none_right_eq_some, Option.some.injEq] at edge
      obtain ⟨-, rfl⟩ := edge
      exact .fails err idle (.inr pc)
    | socket fd | mode m | received err => simp [call, pc] at edge
  | printLock =>
    cases r <;> simp only [call, pc, reduceCtorEq, Option.some.injEq] at edge
    exact edge ▸ .inits idle pc
  | serve =>
    cases r <;> simp only [call, pc, reduceCtorEq, Option.ite_none_right_eq_some,
      Option.some.injEq] at edge
    exact edge.2 ▸ .onward pc idle (by decide)
  | appifFinalize =>
    cases r <;> simp only [call, pc, reduceCtorEq, Option.ite_none_right_eq_some,
      Option.some.injEq] at edge
    exact edge.2 ▸ .onward pc idle (by decide)
  | clipifFinalize =>
    cases r <;> simp only [call, pc, reduceCtorEq, Option.ite_none_right_eq_some,
      Option.some.injEq] at edge
    exact edge.2 ▸ .quits [] pc idle (by decide) rfl (by decide)
  | leave code => simp [call, pc] at edge

theorem change_of_table {a : Tables.Label} {closes : Bool}
    (edge : step verbose s (.table a closes) = some s') : Change s (.table a closes) s' := by
  simp only [step, Option.ite_none_right_eq_some, tableStep] at edge
  obtain ⟨threads, ⟨admitted, -⟩, edge⟩ := edge
  obtain ⟨t, moved, edge⟩ := Option.bind_eq_some_iff.mp edge
  cases closed : closing s.tables a with
  | none =>
    simp only [closed, Option.ite_none_right_eq_some, Option.some.injEq] at edge
    obtain ⟨rfl, rfl⟩ := edge
    exact .moves a t threads admitted moved closed
  | some target =>
    obtain ⟨c, fd⟩ := target
    simp only [closed] at edge
    split at edge
    · split at edge
      · cases edge
      · obtain rfl := Option.some.inj edge
        exact .tableCloses a closes t c fd s.stuck threads moved closed (fun _ => id)
          fun u stuck => .inl stuck
    · obtain rfl := Option.some.inj edge
      refine .tableCloses a closes t c fd _ threads moved closed (fun u stuck => ?_)
        fun u stuck => ?_
      · rw [stuck, Bool.true_or]
      · simpa [or_comm] using stuck

theorem change_of_step (edge : step verbose s label = some s') : Change s label s' := by
  cases label with
  | execute closes => exact change_of_execute edge
  | call r => exact change_of_call edge
  | table a closes => exact change_of_table edge
  | jam t =>
    simp only [step, Option.ite_none_right_eq_some, Option.some.injEq] at edge
    obtain ⟨⟨threads, stuck, free⟩, rfl⟩ := edge
    exact .jams t threads stuck free
  | other lock =>
    cases lock <;> simp only [step, Option.ite_none_right_eq_some, Option.some.injEq] at edge
    · obtain ⟨⟨threads, held⟩, rfl⟩ := edge
      exact .unlocksOther threads held
    · obtain ⟨⟨threads, free⟩, rfl⟩ := edge
      exact .locksOther threads free

end DistributedClipboard.Daemon.MainSteps
