/- module: DistributedClipboard/Daemon/Descriptors
   source: src/src/clipboard.c, src/src/interfaces/clipif.c, src/src/interfaces/appif.c
   layer: refinement
   digest: What is open, and who still closes it, in every state of the daemon. -/

import DistributedClipboard.Daemon.MainSteps
import DistributedClipboard.Daemon.TableCloses

set_option autoImplicit false
set_option relaxedAutoImplicit false

namespace DistributedClipboard.Daemon.Descriptors

open DistributedClipboard.Daemon.Main
open DistributedClipboard.Daemon.MainSteps
open DistributedClipboard.Daemon.TableCloses
open DistributedClipboard.Interfaces
open DistributedClipboard.Interfaces.Tables (Conn Fd Kernel closeFd)
open DistributedClipboard.Lib.Descriptors
open DistributedClipboard.Lib.Discipline
open DistributedClipboard.Utils.Packet (packetSyncSize)

variable {s s' : State} {fd : Fd} {o : Obj}

section Denotes

theorem kernel_free (free : s.denotes fd = none) : s.tables.kernel fd = none := by
  unfold State.denotes at free
  split at free
  · cases free
  · assumption

theorem denotes_kernel {c : Conn} (opened : s.tables.kernel fd = some c) :
    s.denotes fd = some (.conn c) := by
  rw [State.denotes, opened]

theorem kernel_other (opened : s.denotes fd = some o) (other : ∀ c, o ≠ .conn c) :
    s.tables.kernel fd = none := by
  cases found : s.tables.kernel fd with
  | none => rfl
  | some c =>
    rw [denotes_kernel found] at opened
    exact absurd (Option.some.inj opened).symm (other c)

theorem denotes_same (sockets : s'.sockets = s.sockets)
    (kernel : s'.tables.kernel = s.tables.kernel) : s'.denotes = s.denotes := by
  funext g
  rw [State.denotes, sockets, kernel]
  rfl

theorem opens_denotes (free : s.denotes fd = none) :
    (s.opens fd o).denotes = Function.update s.denotes fd (some o) := by
  funext g
  by_cases same : g = fd
  · subst same
    simp [State.denotes, State.opens, kernel_free free]
  · simp [State.denotes, State.opens, same]

theorem denotes_accept {c : Conn} (sockets : s'.sockets = s.sockets)
    (kernel : s'.tables.kernel = Function.update s.tables.kernel fd (some c)) :
    s'.denotes = Function.update s.denotes fd (some (.conn c)) := by
  funext g
  rw [State.denotes, sockets, kernel]
  by_cases same : g = fd
  · subst same
    rw [Function.update_self, Function.update_self]
  · rw [Function.update_of_ne same, Function.update_of_ne same]
    rfl

theorem denotes_close (sockets : s'.sockets = Function.update s.sockets fd none)
    (kernel : s'.tables.kernel = closeFd s.tables.kernel fd) :
    s'.denotes = Function.update s.denotes fd none := by
  funext g
  rw [State.denotes, sockets, kernel, closeFd]
  by_cases same : g = fd
  · subst same
    rw [Function.update_self, Function.update_self, Function.update_self]
  · rw [Function.update_of_ne same, Function.update_of_ne same, Function.update_of_ne same]
    rfl

theorem close_denotes : (s.close fd o).denotes = Function.update s.denotes fd none :=
  denotes_close rfl rfl

theorem close_tables (none : s.tables.kernel fd = none) : (s.close fd o).tables = s.tables := by
  have same : closeFd s.tables.kernel fd = s.tables.kernel := by
    rw [closeFd, Function.update_eq_self_iff, none]
  change { s.tables with kernel := closeFd s.tables.kernel fd } = s.tables
  rw [same]

end Denotes

section Registry

def Known (s : State) : Obj → Prop
  | .clips => 1 < rank s.pc
  | .apps => 2 < rank s.pc
  | .conn (.clip k) => k < s.tables.clip.accepted ∧ (k = 0 → 6 < rank s.pc)
  | .conn (.app k) => k < s.tables.app.accepted

structure Later (s s' : State) : Prop where
  rank : rank s.pc ≤ rank s'.pc
  clip : s.tables.clip.accepted ≤ s'.tables.clip.accepted
  app : s.tables.app.accepted ≤ s'.tables.app.accepted

theorem Later.known (h : Later s s') (known : Known s o) : Known s' o := by
  have further := h.rank
  have clip := h.clip
  have app := h.app
  cases o with
  | clips =>
    change 1 < MainSteps.rank s'.pc
    have before : 1 < MainSteps.rank s.pc := known
    omega
  | apps =>
    change 2 < MainSteps.rank s'.pc
    have before : 2 < MainSteps.rank s.pc := known
    omega
  | conn c =>
    cases c with
    | clip k =>
      obtain ⟨number, first⟩ := known
      refine ⟨Nat.lt_of_lt_of_le number clip, fun zero => ?_⟩
      have before := first zero
      omega
    | app k => exact Nat.lt_of_lt_of_le known app

/-- All closings have closed what they were meant for, and what is open or has been closed has been
opened before. -/
structure Registry (s : State) : Prop where
  once : ClosedOnce s.denotes s.log
  known : ∀ fd o, s.denotes fd = some o → Known s o
  logged : ∀ e ∈ s.log, Known s e.meant
  numbered : 0 < s.tables.clip.accepted

theorem Registry.keep (h : Registry s) (denotes : s'.denotes = s.denotes) (log : s'.log = s.log)
    (later : Later s s') : Registry s' := by
  refine ⟨?_, ?_, ?_, Nat.lt_of_lt_of_le h.numbered later.clip⟩
  · rw [denotes, log]
    exact h.once
  · intro fd o opened
    rw [denotes] at opened
    exact later.known (h.known fd o opened)
  · intro e member
    rw [log] at member
    exact later.known (h.logged e member)

theorem Registry.close (h : Registry s) (mine : s.denotes fd = some o)
    (denotes : s'.denotes = Function.update s.denotes fd none)
    (log : s'.log = s.log ++ [⟨o, s.denotes fd⟩]) (later : Later s s') : Registry s' := by
  refine ⟨?_, ?_, ?_, Nat.lt_of_lt_of_le h.numbered later.clip⟩
  · rw [denotes, log]
    exact h.once.close mine
  · intro g p opened
    rw [denotes] at opened
    exact later.known (h.known g p (of_update_none opened))
  · intro e member
    rw [log] at member
    obtain before | last := List.mem_append.mp member
    · exact later.known (h.logged e before)
    · obtain rfl := List.mem_singleton.mp last
      exact later.known (h.known fd o mine)

theorem Registry.open (h : Registry s) (new : ¬ Known s o) (now : Known s' o)
    (denotes : s'.denotes = Function.update s.denotes fd (some o)) (log : s'.log = s.log)
    (later : Later s s') : Registry s' := by
  refine ⟨?_, ?_, ?_, Nat.lt_of_lt_of_le h.numbered later.clip⟩
  · rw [denotes, log]
    refine h.once.open (fun g opened => new (h.known g o opened)) ?_
    rintro e member rfl
    exact new (h.logged e member)
  · intro g p opened
    rw [denotes] at opened
    by_cases same : g = fd
    · subst same
      rw [Function.update_self] at opened
      exact Option.some.inj opened ▸ now
    · rw [Function.update_of_ne same] at opened
      exact later.known (h.known g p opened)
  · intro e member
    rw [log] at member
    exact later.known (h.logged e member)

end Registry

/-- The parent's hello is received whole, `appif_init` does not fail once the parent's slave has
closed its connection, and once an interface has failed no slave closes a connection and no `close`
of `main` fails. -/
def undisturbed (s : State) : Label → Prop
  | .execute closes => s.failed ≠ none → closes = true
  | .call (.error _) => s.pc = .appifInit → parentClosed s.tables = false
  | .call (.received err) => (packetSyncSize : Int) ≤ err
  | .table a _ => s.failed ≠ none → closing s.tables a = none
  | _ => True

structure Phase (s : State) : Prop where
  unstarted : s.started = false → s.tables = (Tables.tables 0).init
  begun : rank s.pc < 16 → (s.started = true ↔ 11 ≤ rank s.pc)
  failed : ∀ err, s.failed = some err → s.pc = .leave err
  tables : s.started = true → s.failed = none → Connections.Inv s.tables

structure Holds (s : State) : Prop where
  mine : ∀ v ∈ owed s.todo, s.denotes (s.fd v) = some v.object
  once : (owed s.todo).Nodup
  ours : .sock ∈ owed s.todo → s.failed ≠ none
  idle : rank s.pc < 16 → owed s.todo = []
  clips : s.pc = .appsSocket true ∨ 3 ≤ rank s.pc → rank s.pc < 16 →
    s.denotes s.clips = some .clips
  apps : 3 ≤ rank s.pc → rank s.pc < 16 → s.denotes s.apps = some .apps
  alone : rank s.pc ≤ 6 → s.sock = 0
  parent : rank s.pc ≤ 11 → s.sock ≠ 0 → parentClosed s.tables = false →
    s.denotes s.sock = some parent

/-- Nothing but the parent's slave has been started. -/
structure Quiet (s : State) : Prop where
  idle : Idle s.tables
  stuck : ∀ t, s.stuck t = true → parentClosed s.tables = true
  alone : s.sock = 0 → (s.tables.clip.slaves 0).pc = .unborn

/-- What `main` has locked. -/
def held (s : State) : List Unit := if s.print = some .main then [()] else []

structure Startup (s : State) : Prop where
  quiet : rank s.pc ≤ 12 ∨ s.failed ≠ none → Quiet s
  spared : s.failed ≠ none → parentClosed s.tables = false
  jam : s.print = some .stuck → ∃ t, s.stuck t = true
  disciplined : rank s.pc < 16 ∨ s.failed ≠ none → Disciplined (held s) s.todo

structure Inv (s : State) : Prop where
  registry : Registry s
  phase : Phase s
  holds : Holds s
  startup : Startup s

theorem object_injective {v w : Var} (same : v.object = w.object) : v = w := by
  cases v <;> cases w <;> first | rfl | cases same

section Start

theorem Phase.early (h : Phase s) (early : rank s.pc ≤ 10) :
    s.started = false ∧ s.tables = (Tables.tables 0).init := by
  have unstarted : s.started = false := by
    by_contra started
    have late := (h.begun (by omega)).mp (by simpa using started)
    omega
  exact ⟨unstarted, h.unstarted unstarted⟩

theorem Phase.unfailed (h : Phase s) (before : rank s.pc < 16) : s.failed = none := by
  by_contra failed
  obtain ⟨err, failed⟩ := Option.ne_none_iff_exists'.mp failed
  rw [h.failed err failed] at before
  exact absurd before (Nat.lt_irrefl 16)

theorem start_denotes (h : Inv s) (early : rank s.pc ≤ 10) : (start s).denotes = s.denotes := by
  have kernel : ∀ g, s.tables.kernel g = none := by
    intro g
    rw [(h.phase.early early).2]
    rfl
  funext g
  by_cases alone : s.sock = 0
  · simp [State.denotes, start, Tables.tables, alone, kernel g]
  · have spared : parentClosed s.tables = false := by
      rw [(h.phase.early early).2]
      rfl
    have mine := h.holds.parent (by omega) alone spared
    by_cases same : g = s.sock
    · rw [same, mine]
      simp [State.denotes, start, Tables.tables, alone, parent]
    · simp [State.denotes, start, Tables.tables, alone, same, kernel g]

end Start

variable {label : Label}

theorem rank_le (pc : Pc) : rank pc ≤ 16 := by
  cases pc <;> exact Nat.le_of_ble_eq_true rfl

theorem Inv.closes (h : Inv s) {a : Tables.Label} {closes : Bool} {c : Conn}
    (ok : undisturbed s (.table a closes)) (threads : Threads s)
    (closed : closing s.tables a = some (c, fd)) :
    s.failed = none ∧ s.denotes fd = some (.conn c) := by
  have unfailed : s.failed = none := by
    by_contra failed
    rw [ok failed] at closed
    cases closed
  exact ⟨unfailed, denotes_kernel (closing_opened (h.phase.tables threads.1 unfailed) closed)⟩

theorem Inv.registry_step (h : Inv s) (ok : undisturbed s label) (change : Change s label s') :
    Registry s' := by
  cases change with
  | locks | unlocks | outputs | jams | locksOther | unlocksOther =>
    exact h.registry.keep rfl rfl ⟨Nat.le_refl _, Nat.le_refl _, Nat.le_refl _⟩
  | closes rest v todo =>
    have mine := h.holds.mine v (by rw [todo]; exact List.mem_cons_self)
    exact h.registry.close mine (denotes_close rfl rfl) rfl
      ⟨Nat.le_refl _, Nat.le_refl _, Nat.le_refl _⟩
  | closeFails rest v todo =>
    have mine := h.holds.mine v (by rw [todo]; exact List.mem_cons_self)
    exact h.registry.close mine (denotes_close rfl rfl) rfl
      ⟨Nat.le_refl _, Nat.le_refl _, Nat.le_refl _⟩
  | goes r pc todo idle onward message =>
    exact h.registry.keep rfl rfl ⟨Nat.le_of_lt onward.further, Nat.le_refl _, Nat.le_refl _⟩
  | opensClips fd idle pc free =>
    refine h.registry.open (o := .clips) ?_ ?_ (opens_denotes free.2) rfl
      ⟨?_, Nat.le_refl _, Nat.le_refl _⟩
    · simp [Known, pc, rank]
    · exact Nat.lt_succ_self 1
    · rw [pc]
      exact Nat.le_succ 1
  | opensApps fd idle pc free =>
    refine h.registry.open (o := .apps) ?_ ?_ (opens_denotes free.2) rfl
      ⟨?_, Nat.le_refl _, Nat.le_refl _⟩
    · simp [Known, pc, rank]
    · exact Nat.lt_succ_self 2
    · rw [pc]
      exact Nat.le_succ 2
  | opensOne fd idle pc free =>
    refine h.registry.open (o := .apps) ?_ ?_ (opens_denotes free.2) rfl
      ⟨rank_le _, Nat.le_refl _, Nat.le_refl _⟩
    · simp [Known, pc, rank]
    · exact Nat.le_add_left 3 13
  | opensParent fd idle pc free =>
    refine h.registry.open (o := parent) ?_ ?_ (opens_denotes free.2) rfl
      ⟨?_, Nat.le_refl _, Nat.le_refl _⟩
    · simp [Known, parent, pc, rank]
    · exact ⟨h.registry.numbered, fun _ => Nat.lt_succ_self 6⟩
    · rw [pc]
      exact Nat.le_succ 6
  | leaves | fails | short =>
    exact h.registry.keep rfl rfl ⟨rank_le _, Nat.le_refl _, Nat.le_refl _⟩
  | starts r idle pc =>
    have early : rank s.pc ≤ 10 := by
      obtain ⟨pc, -⟩ | pc := pc <;> rw [pc] <;> decide
    have initial := (h.phase.early early).2
    refine h.registry.keep (start_denotes h early) rfl
      ⟨Nat.le_trans early (Nat.le_succ 10), ?_, ?_⟩
    · rw [initial]
      exact Nat.le_refl 1
    · rw [initial]
      exact Nat.le_refl 0
  | inits idle pc =>
    refine h.registry.keep rfl rfl ⟨?_, Nat.le_refl _, Nat.le_refl _⟩
    rw [pc]
    exact Nat.le_succ 12
  | moves a t threads admitted edge closed =>
    cases kernel_of_step edge with
    | same _ kernel clip app =>
      exact h.registry.keep (denotes_same rfl kernel) rfl ⟨Nat.le_refl _, clip, app⟩
    | closes c fd closes =>
      rw [closed] at closes
      cases closes
    | clipAccepts fd same free kernel clip app =>
      refine h.registry.open (o := .conn (.clip s.tables.clip.accepted)) ?_ ?_
        (denotes_accept rfl kernel) rfl
        ⟨Nat.le_refl _, Nat.le_of_lt (clip ▸ Nat.lt_succ_self _), Nat.le_of_eq app.symm⟩
      · exact fun known => absurd known.1 (Nat.lt_irrefl _)
      · refine ⟨clip ▸ Nat.lt_succ_self _, fun zero => ?_⟩
        exact absurd zero (Nat.pos_iff_ne_zero.mp h.registry.numbered)
    | appAccepts fd same free kernel clip app =>
      refine h.registry.open (o := .conn (.app s.tables.app.accepted)) ?_ ?_
        (denotes_accept rfl kernel) rfl
        ⟨Nat.le_refl _, Nat.le_of_eq clip.symm, Nat.le_of_lt (app ▸ Nat.lt_succ_self _)⟩
      · exact Nat.lt_irrefl _
      · change s.tables.app.accepted < t.app.accepted
        rw [app]
        exact Nat.lt_succ_self _
  | tableCloses a closes t c fd stuck threads edge closed kept jammed =>
    have mine := (h.closes ok threads closed).2
    cases kernel_of_step edge with
    | closes c' fd' closes kernel clip app =>
      rw [closed] at closes
      cases closes
      exact h.registry.close mine (denotes_close rfl kernel) rfl
        ⟨Nat.le_refl _, Nat.le_of_eq clip.symm, Nat.le_of_eq app.symm⟩
    | same none =>
      rw [closed] at none
      cases none
    | clipAccepts fd' same =>
      subst same
      cases closed
    | appAccepts fd' same =>
      subst same
      cases closed

theorem Inv.close_tables (h : Inv s) {v : Var} (mine : v ∈ owed s.todo)
    (unfailed : s.failed = none) : (s.close (s.fd v) v.object).tables = s.tables := by
  have opened := h.holds.mine v mine
  refine Descriptors.close_tables (kernel_other opened ?_)
  cases v with
  | clipsSock | appsSock => exact fun c same => by cases same
  | sock => exact absurd unfailed (h.holds.ours mine)

theorem Inv.close_phase (h : Inv s) {v : Var} (mine : v ∈ owed s.todo) {todo : Code} :
    Phase { s.close (s.fd v) v.object with todo := todo } := by
  refine ⟨fun unstarted => ?_, h.phase.begun, h.phase.failed, fun started unfailed => ?_⟩
  · have initial := h.phase.unstarted unstarted
    refine (Descriptors.close_tables (o := v.object) ?_).trans initial
    rw [initial]
    rfl
  · change Connections.Inv (s.close (s.fd v) v.object).tables
    rw [h.close_tables mine unfailed]
    exact h.phase.tables started unfailed

theorem Phase.still (h : Phase s) {pc : Pc} (before : rank s.pc ≤ 10) (after : rank pc ≤ 10) :
    rank pc < 16 → (s.started = true ↔ 11 ≤ rank pc) := by
  intro _
  rw [(h.early before).1]
  constructor
  · intro started
    cases started
  · intro late
    omega

theorem Inv.phase_step (h : Inv s) (change : Change s label s') : Phase s' := by
  have unfailed : ∀ {pc err}, rank s.pc < 16 → s.failed = some err → pc = Pc.leave err := by
    intro pc err before failed
    rw [h.phase.unfailed before] at failed
    cases failed
  cases change with
  | locks | unlocks | outputs | jams | locksOther | unlocksOther =>
    exact ⟨h.phase.unstarted, h.phase.begun, h.phase.failed, h.phase.tables⟩
  | closes rest v todo =>
    exact h.close_phase (by rw [todo]; exact List.mem_cons_self)
  | closeFails rest v todo =>
    exact h.close_phase (by rw [todo]; exact List.mem_cons_self)
  | goes r pc todo idle onward message =>
    have before := Nat.lt_trans onward.further onward.returns
    refine ⟨h.phase.unstarted, fun _ => ?_, fun err => unfailed before, h.phase.tables⟩
    have further := onward.further
    have starts := onward.starts
    refine (h.phase.begun before).trans ?_
    change 11 ≤ rank s.pc ↔ 11 ≤ rank pc
    omega
  | opensClips fd idle pc free =>
    have before : rank s.pc = 1 := by rw [pc]; rfl
    exact ⟨h.phase.unstarted, h.phase.still (by omega) (Nat.le_of_ble_eq_true rfl),
      fun err => unfailed (by omega), h.phase.tables⟩
  | opensApps fd idle pc free =>
    have before : rank s.pc = 2 := by rw [pc]; rfl
    exact ⟨h.phase.unstarted, h.phase.still (by omega) (Nat.le_of_ble_eq_true rfl),
      fun err => unfailed (by omega), h.phase.tables⟩
  | opensOne fd idle pc free =>
    have before : rank s.pc = 2 := by rw [pc]; rfl
    exact ⟨h.phase.unstarted, fun late => absurd late (Nat.lt_irrefl 16),
      fun err => unfailed (by omega), h.phase.tables⟩
  | opensParent fd idle pc free =>
    have before : rank s.pc = 6 := by rw [pc]; rfl
    exact ⟨h.phase.unstarted, h.phase.still (by omega) (Nat.le_of_ble_eq_true rfl),
      fun err => unfailed (by omega), h.phase.tables⟩
  | leaves r code todo idle before =>
    exact ⟨h.phase.unstarted, fun late => absurd late (Nat.lt_irrefl 16),
      fun err => unfailed before, h.phase.tables⟩
  | fails err | short err =>
    refine ⟨h.phase.unstarted, fun late => absurd late (Nat.lt_irrefl 16), ?_, ?_⟩
    · intro err' same
      cases same
      rfl
    · intro _ none
      cases none
  | starts r idle pc =>
    have before : rank s.pc < 16 := by
      obtain ⟨pc, -⟩ | pc := pc <;> rw [pc] <;> decide
    refine ⟨fun unstarted => ?_, fun _ => ⟨fun _ => Nat.le_refl 11, fun _ => rfl⟩,
      fun err => unfailed before, fun _ _ => Connections.Inv.init s.sock⟩
    cases unstarted
  | inits idle pc =>
    have before : rank s.pc = 12 := by rw [pc]; rfl
    refine ⟨h.phase.unstarted, fun _ => ?_, fun err => unfailed (by omega), h.phase.tables⟩
    refine (h.phase.begun (by omega)).trans ⟨fun _ => ?_, fun _ => by omega⟩
    exact Nat.le_of_ble_eq_true rfl
  | moves a t threads admitted edge closed =>
    refine ⟨fun unstarted => ?_, h.phase.begun, h.phase.failed, fun started unfailed => ?_⟩
    · rw [threads.1] at unstarted
      cases unstarted
    · exact (h.phase.tables started unfailed).step a edge
  | tableCloses a closes t c fd stuck threads edge closed kept jammed =>
    refine ⟨fun unstarted => ?_, h.phase.begun, h.phase.failed, fun started unfailed => ?_⟩
    · rw [threads.1] at unstarted
      cases unstarted
    · exact (h.phase.tables started unfailed).step a edge

end DistributedClipboard.Daemon.Descriptors
