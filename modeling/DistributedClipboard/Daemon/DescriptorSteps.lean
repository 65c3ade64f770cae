/- module: DistributedClipboard/Daemon/DescriptorSteps
   source: src/src/clipboard.c, src/src/interfaces/clipif.c, src/src/interfaces/appif.c
   layer: lemma
   digest: Every step keeps what the daemon knows of its descriptors, on the way up and back from a failure. -/

import DistributedClipboard.Daemon.Descriptors

set_option autoImplicit false
set_option relaxedAutoImplicit false

namespace DistributedClipboard.Daemon.Descriptors

open DistributedClipboard.Daemon.Main
open DistributedClipboard.Daemon.MainSteps
open DistributedClipboard.Daemon.TableCloses
open DistributedClipboard.Interfaces
open DistributedClipboard.Interfaces.Tables (Conn Fd Kernel closeFd)
open DistributedClipboard.Lib.Descriptors
open DistributedClipboard.Lib.Discipline

variable {s s' : State} {fd : Fd} {o : Obj} {label : Label}

section Balance

theorem held_of_ne (other : s.print ≠ some .main) : held s = [] := if_neg other

theorem Startup.free (h : Startup s) (before : rank s.pc < 16) (idle : s.todo = []) :
    held s = [] := by
  have disciplined := h.disciplined (.inl before)
  rwa [idle] at disciplined

theorem disciplined_showError {rest : Code} (h : Disciplined [] rest) :
    Disciplined [] (showError ++ rest) := by
  simpa [showError, Disciplined] using h

theorem disciplined_closeAll (s : State) : Disciplined [] (closeAll s) := by
  unfold closeAll closeSockets
  split <;> simp [Disciplined]

theorem disciplined_step {closes : Bool} (h : Disciplined (held s) s.todo)
    (change : Change s (.execute closes) s') (fine : closes = true) :
    Disciplined (held s') s'.todo := by
  cases change with
  | locks rest todo free =>
    rw [todo, held_of_ne (by simp [free])] at h
    exact h.2
  | unlocks rest todo =>
    rw [todo] at h
    have mine : s.print = some .main := by
      by_contra other
      have empty := h.1
      rw [held_of_ne other] at empty
      cases empty
    have rest' := h.2
    rw [held, if_pos mine] at rest'
    exact rest'
  | outputs rest todo =>
    rw [todo] at h
    exact h
  | closes rest v todo =>
    rw [todo] at h
    exact h
  | closeFails => cases fine

end Balance

theorem Quiet.same (h : Quiet s) (clip : s'.tables.clip = s.tables.clip)
    (app : s'.tables.app = s.tables.app) (stuck : s'.stuck = s.stuck)
    (alone : s'.sock = 0 → s.sock = 0) : Quiet s' := by
  have closed : parentClosed s'.tables = parentClosed s.tables := by
    rw [parentClosed, clip]
    rfl
  refine ⟨⟨?_, ?_, ?_, ?_⟩, ?_, ?_⟩
  · rw [clip]
    exact h.idle.clipListen
  · rw [app]
    exact h.idle.appListen
  · rw [clip]
    exact h.idle.clips
  · rw [app]
    exact h.idle.apps
  · rw [stuck, closed]
    exact h.stuck
  · rw [clip]
    exact fun now => h.alone (alone now)

theorem Inv.quiet_table (h : Inv s) {a : Tables.Label} {t : Tables.State}
    (now : rank s.pc ≤ 12 ∨ s.failed ≠ none) (admitted : admits s a)
    (edge : Tables.step s.tables a = some t) :
    Idle t ∧ parentClosed t = (parentClosed s.tables || (closing s.tables a).isSome) ∧
      (s.sock = 0 → (t.clip.slaves 0).pc = .unborn) := by
  have quiet := h.startup.quiet now
  have waits : s.pc ≠ .serve := by
    intro pc
    obtain early | failed := now
    · rw [pc] at early
      exact absurd early (by decide)
    · obtain ⟨err, failed⟩ := Option.ne_none_iff_exists'.mp failed
      have left := h.phase.failed err failed
      rw [pc] at left
      cases left
  obtain ⟨idle, closed, born⟩ := quiet.idle.step
    (fun fd same => waits (by subst same; exact admitted.1))
    (fun fd same => waits (by subst same; exact admitted.1)) edge
  exact ⟨idle, closed, fun alone => born (quiet.alone alone)⟩

theorem Inv.execute_startup (h : Inv s) {closes : Bool} (ok : undisturbed s (.execute closes))
    (change : Change s (.execute closes) s') : Startup s' := by
  have quiet := h.startup.quiet
  have disciplined := h.startup.disciplined
  cases change with
  | locks rest todo free =>
    exact ⟨fun now => (quiet now).same rfl rfl rfl id, h.startup.spared, fun jam => (by cases jam),
      fun now => disciplined_step (disciplined now) (.locks rest todo free) rfl⟩
  | unlocks rest todo =>
    exact ⟨fun now => (quiet now).same rfl rfl rfl id, h.startup.spared, fun jam => (by cases jam),
      fun now => disciplined_step (disciplined now) (.unlocks rest todo) rfl⟩
  | outputs rest todo =>
    exact ⟨fun now => (quiet now).same rfl rfl rfl id, h.startup.spared, h.startup.jam,
      fun now => disciplined_step (disciplined now) (.outputs rest todo) rfl⟩
  | closes rest v todo =>
    exact ⟨fun now => (quiet now).same rfl rfl rfl id, h.startup.spared, h.startup.jam,
      fun now => disciplined_step (disciplined now) (.closes rest v todo) rfl⟩
  | closeFails rest v todo =>
    refine ⟨fun now => (quiet now).same rfl rfl rfl id, h.startup.spared, h.startup.jam, ?_⟩
    rintro (before | failed)
    · have none := h.holds.idle before
      rw [todo] at none
      cases none
    · cases ok failed

theorem Inv.call_startup (h : Inv s) {r : Result} (ok : undisturbed s (.call r))
    (change : Change s (.call r) s') : Startup s' := by
  have quiet := h.startup.quiet
  have unfailed : ∀ {P : Prop}, rank s.pc < 16 → s.failed ≠ none → P := by
    intro P before failed
    exact absurd (h.phase.unfailed before) failed
  have failing : ∀ {err todo}, s.todo = [] → rank s.pc ≤ 12 → parentClosed s.tables = false →
      Disciplined [] todo → Startup (s.fail err todo) := by
    intro err todo idle before spared rest
    refine ⟨fun _ => (quiet (.inl before)).same rfl rfl rfl id, fun _ => spared, h.startup.jam, ?_⟩
    intro _
    change Disciplined (held s) todo
    rw [h.startup.free (by omega) idle]
    exact rest
  cases change with
  | goes r pc todo idle onward message =>
    have before := Nat.lt_trans onward.further onward.returns
    have further := onward.further
    refine ⟨?_, unfailed before, h.startup.jam, fun _ => ?_⟩
    · rintro (early | failed)
      · refine (quiet (.inl ?_)).same rfl rfl rfl id
        change rank pc ≤ 12 at early
        omega
      · exact unfailed before failed
    · change Disciplined (held s) todo
      rw [h.startup.free before idle]
      obtain rfl | rfl := message
      · rfl
      · exact disciplined_showError rfl
  | opensClips fd idle pc free =>
    have before : rank s.pc = 1 := by rw [pc]; rfl
    exact ⟨fun _ => (quiet (.inl (by omega))).same rfl rfl rfl id, unfailed (by omega),
      h.startup.jam, fun _ => h.startup.disciplined (.inl (by omega))⟩
  | opensApps fd idle pc free =>
    have before : rank s.pc = 2 := by rw [pc]; rfl
    exact ⟨fun _ => (quiet (.inl (by omega))).same rfl rfl rfl id, unfailed (by omega),
      h.startup.jam, fun _ => h.startup.disciplined (.inl (by omega))⟩
  | opensOne fd idle pc free =>
    have before : rank s.pc = 2 := by rw [pc]; rfl
    refine ⟨fun _ => (quiet (.inl (by omega))).same rfl rfl rfl id, unfailed (by omega),
      h.startup.jam, fun _ => ?_⟩
    change Disciplined (held s) showError
    rw [h.startup.free (by omega) idle]
    exact disciplined_showError rfl
  | opensParent fd idle pc free =>
    have before : rank s.pc = 6 := by rw [pc]; rfl
    refine ⟨fun _ => (quiet (.inl (by omega))).same rfl rfl rfl fun zero => ?_, unfailed (by omega),
      h.startup.jam, fun _ => h.startup.disciplined (.inl (by omega))⟩
    exact absurd zero (Nat.pos_iff_ne_zero.mp free.1)
  | leaves r code todo idle before =>
    refine ⟨?_, unfailed before, h.startup.jam, ?_⟩
    · rintro (early | failed)
      · change 16 ≤ 12 at early
        omega
      · exact unfailed before failed
    · rintro (early | failed)
      · exact absurd early (Nat.lt_irrefl 16)
      · exact unfailed before failed
  | fails err idle pc =>
    have before : rank s.pc ≤ 12 := by
      obtain pc | pc := pc <;> rw [pc] <;> decide
    refine failing idle before ?_ (disciplined_showError (disciplined_closeAll s))
    obtain pc | pc := pc
    · rw [(h.phase.early (by rw [pc]; decide)).2]
      rfl
    · exact ok pc
  | short err idle pc missing => exact absurd ok (Int.not_le.mpr missing)
  | starts r idle pc =>
    have early : rank s.pc ≤ 10 := by
      obtain ⟨pc, -⟩ | pc := pc <;> rw [pc] <;> decide
    refine ⟨fun _ => ⟨Idle.init s.sock, fun t stuck => ?_, fun alone => ?_⟩, unfailed (by omega),
      h.startup.jam, fun _ => h.startup.disciplined (.inl (by omega))⟩
    · have closed := (quiet (.inl (by omega))).stuck t stuck
      rw [(h.phase.early early).2] at closed
      cases closed
    · have zero : s.sock = 0 := alone
      simp [State.goto, start, Tables.tables, Tables.clipInit, zero]
  | inits idle pc =>
    have before : rank s.pc = 12 := by rw [pc]; rfl
    refine ⟨?_, unfailed (by omega), fun jam => (by cases jam), fun _ => ?_⟩
    · rintro (late | failed)
      · exact absurd late (Nat.lt_irrefl 12)
      · exact unfailed (by omega) failed
    · change Disciplined [] s.todo
      rw [idle]
      rfl

theorem Inv.table_startup (h : Inv s) {a : Tables.Label} {closes : Bool}
    (ok : undisturbed s (.table a closes)) (change : Change s (.table a closes) s') :
    Startup s' := by
  cases change with
  | moves _ t threads admitted edge closed =>
    refine ⟨fun now => ?_, fun failed => ?_, h.startup.jam, h.startup.disciplined⟩
    · obtain ⟨idle, same, alone⟩ := h.quiet_table now admitted edge
      rw [closed, Option.isSome_none, Bool.or_false] at same
      exact ⟨idle, fun u stuck => same.trans ((h.startup.quiet now).stuck u stuck), alone⟩
    · obtain ⟨-, same, -⟩ := h.quiet_table (.inr failed) admitted edge
      rw [closed, Option.isSome_none, Bool.or_false] at same
      exact same.trans (h.startup.spared failed)
  | tableCloses _ _ t c fd stuck threads edge closed kept jammed =>
    have unfailed := (h.closes ok threads closed).1
    have admitted : admits s a := by
      cases a with
      | clipAccept fd | appAccept fd => cases closed
      | clipListen | clipSlave | broadcast | clock | appListen | appSlave => trivial
    refine ⟨fun now => ?_, fun failed => absurd unfailed failed, fun jam => ?_,
      h.startup.disciplined⟩
    · obtain ⟨idle, same, alone⟩ := h.quiet_table now admitted edge
      rw [closed, Option.isSome_some, Bool.or_true] at same
      exact ⟨idle, fun _ _ => same, alone⟩
    · obtain ⟨u, before⟩ := h.startup.jam jam
      exact ⟨u, kept u before⟩

theorem Inv.startup_step (h : Inv s) (ok : undisturbed s label) (change : Change s label s') :
    Startup s' := by
  cases label with
  | execute closes => exact h.execute_startup ok change
  | call r => exact h.call_startup ok change
  | table a closes => exact h.table_startup ok change
  | jam t =>
    cases change with
    | jams _ threads stuck free =>
      refine ⟨fun now => (h.startup.quiet now).same rfl rfl rfl id, h.startup.spared,
        fun _ => ⟨t, stuck⟩, fun now => ?_⟩
      have disciplined := h.startup.disciplined now
      rwa [held_of_ne (by simp [free])] at disciplined
  | other lock =>
    cases change with
    | locksOther threads free =>
      refine ⟨fun now => (h.startup.quiet now).same rfl rfl rfl id, h.startup.spared,
        fun jam => (by cases jam), fun now => ?_⟩
      have disciplined := h.startup.disciplined now
      rwa [held_of_ne (by simp [free])] at disciplined
    | unlocksOther threads other =>
      refine ⟨fun now => (h.startup.quiet now).same rfl rfl rfl id, h.startup.spared,
        fun jam => (by cases jam), fun now => ?_⟩
      have disciplined := h.startup.disciplined now
      rwa [held_of_ne (by simp [other])] at disciplined

theorem update_open {denotes : Fd → Option Obj} {g : Fd} {p : Obj} (free : denotes fd = none)
    (opened : denotes g = some p) : Function.update denotes fd (some o) g = some p := by
  have other : g ≠ fd := by
    rintro rfl
    rw [free] at opened
    cases opened
  rwa [Function.update_of_ne other]

theorem Holds.keep (h : Holds s) (pc : s'.pc = s.pc) (todo : owed s'.todo = owed s.todo)
    (vars : s'.fd = s.fd) (denotes : s'.denotes = s.denotes)
    (closed : parentClosed s'.tables = parentClosed s.tables) (failed : s'.failed = s.failed) :
    Holds s' := by
  have clips : s'.clips = s.clips := congrFun vars .clipsSock
  have apps : s'.apps = s.apps := congrFun vars .appsSock
  have sock : s'.sock = s.sock := congrFun vars .sock
  constructor
  · rw [todo, denotes, vars]
    exact h.mine
  · rw [todo]
    exact h.once
  · rw [todo, failed]
    exact h.ours
  · rw [pc, todo]
    exact h.idle
  · rw [pc, denotes, clips]
    exact h.clips
  · rw [pc, denotes, apps]
    exact h.apps
  · rw [pc, sock]
    exact h.alone
  · rw [pc, sock, closed, denotes]
    exact h.parent

theorem Inv.close_holds (h : Inv s) {v : Var} {rest todo : Code}
    (now : s.todo = .act (.close v) :: rest) (same : owed todo = owed rest) :
    Holds { s.close (s.fd v) v.object with todo := todo } := by
  have split : owed s.todo = v :: owed rest := by
    rw [now]
    rfl
  have late : 16 ≤ rank s.pc := by
    by_contra early
    have none := h.holds.idle (by omega)
    rw [split] at none
    cases none
  have mine := h.holds.mine v (by rw [split]; exact List.mem_cons_self)
  have once := h.holds.once
  rw [split, List.nodup_cons] at once
  have early : ∀ {n : Nat} {P : Prop}, rank s.pc ≤ n → n < 16 → P := by
    intro n P before bound
    omega
  constructor
  · intro w member
    change w ∈ owed todo at member
    rw [same] at member
    change (s.close (s.fd v) v.object).denotes (s.fd w) = some w.object
    rw [close_denotes]
    have theirs := h.holds.mine w (by rw [split]; exact List.mem_cons_of_mem v member)
    refine update_keeps mine theirs ?_
    intro equal
    exact once.1 (object_injective equal ▸ member)
  · change (owed todo).Nodup
    rw [same]
    exact once.2
  · intro member
    change Var.sock ∈ owed todo at member
    rw [same] at member
    exact h.holds.ours (by rw [split]; exact List.mem_cons_of_mem v member)
  · exact fun before => early (Nat.le_of_lt_succ before) (Nat.lt_succ_self 15)
  · exact fun _ before => early (Nat.le_of_lt_succ before) (Nat.lt_succ_self 15)
  · exact fun _ before => early (Nat.le_of_lt_succ before) (Nat.lt_succ_self 15)
  · exact fun before => early before (by omega)
  · exact fun before => early before (by omega)

theorem Inv.execute_holds (h : Inv s) {closes : Bool} (change : Change s (.execute closes) s') :
    Holds s' := by
  cases change with
  | locks rest todo | unlocks rest todo | outputs rest todo =>
    exact h.holds.keep rfl (by rw [todo]; rfl) rfl rfl rfl rfl
  | closes rest v todo => exact h.close_holds todo rfl
  | closeFails rest v todo => exact h.close_holds todo rfl

theorem leave_holds (err : Option Int) {code : Int} {todo : Code}
    (mine : ∀ v ∈ owed todo, s.denotes (s.fd v) = some v.object) (once : (owed todo).Nodup)
    (ours : .sock ∈ owed todo → err ≠ none) : Holds { s.leave code todo with failed := err } := by
  have late : ∀ {n : Nat} {P : Prop}, 16 ≤ n → n < 16 → P := by
    intro n P before bound
    omega
  refine ⟨mine, once, ours, late (Nat.le_refl 16), fun _ => late (Nat.le_refl 16),
    fun _ => late (Nat.le_refl 16), fun early => ?_, fun early => ?_⟩
  · exact late (Nat.le_refl 16) (Nat.lt_of_le_of_lt early (Nat.le_of_ble_eq_true rfl))
  · exact late (Nat.le_refl 16) (Nat.lt_of_le_of_lt early (Nat.le_of_ble_eq_true rfl))

theorem Holds.sockets (h : Holds s) (from_ : 3 ≤ rank s.pc) (before : rank s.pc < 16) :
    ∀ v ∈ [Var.clipsSock, Var.appsSock], s.denotes (s.fd v) = some v.object := by
  intro v member
  cases v with
  | clipsSock => exact h.clips (.inr from_) before
  | appsSock => exact h.apps from_ before
  | sock => simp at member

theorem Holds.all (h : Holds s) (from_ : 3 ≤ rank s.pc) (before : rank s.pc ≤ 11)
    (spared : parentClosed s.tables = false) :
    ∀ v ∈ owed (closeAll s), s.denotes (s.fd v) = some v.object := by
  intro v member
  rw [owed_closeAll, List.mem_append] at member
  obtain listens | mine := member
  · exact h.sockets from_ (by omega) v listens
  · split at mine
    · cases mine
    · rename_i connected
      obtain rfl := List.mem_singleton.mp mine
      exact h.parent before connected spared

theorem owed_all_once (s : State) : (owed (closeAll s)).Nodup := by
  rw [owed_closeAll]
  split <;> decide

theorem Inv.call_holds (h : Inv s) {r : Result} (ok : undisturbed s (.call r))
    (change : Change s (.call r) s') : Holds s' := by
  have nothing : ∀ {v : Var} {P : Prop}, s.todo = [] → v ∈ owed s.todo → P := by
    intro v P idle member
    rw [idle] at member
    cases member
  have none : s.todo = [] → owed s.todo = [] := by
    intro idle
    rw [idle]
    rfl
  cases change with
  | goes r pc todo idle onward message =>
    have silent : owed todo = [] := by
      obtain rfl | rfl := message <;> rfl
    have before := Nat.lt_trans onward.further onward.returns
    have further := onward.further
    have sockets := onward.sockets
    refine ⟨?_, ?_, ?_, fun _ => silent, ?_, ?_, ?_, ?_⟩
    · change ∀ v ∈ owed todo, _
      rw [silent]
      intro v member
      cases member
    · change (owed todo).Nodup
      rw [silent]
      exact List.nodup_nil
    · change Var.sock ∈ owed todo → _
      rw [silent]
      intro member
      cases member
    · rintro (same | late) _
      · exact absurd same onward.clips
      · change 3 ≤ rank pc at late
        exact h.holds.clips (.inr (by omega)) before
    · intro late _
      change 3 ≤ rank pc at late
      exact h.holds.apps (by omega) before
    · intro early
      change rank pc ≤ 6 at early
      exact h.holds.alone (by omega)
    · intro early
      change rank pc ≤ 11 at early
      exact h.holds.parent (by omega)
  | opensClips fd idle pc free =>
    have before : rank s.pc = 1 := by rw [pc]; rfl
    have alone : s.sock = 0 := h.holds.alone (by omega)
    refine ⟨fun v => nothing idle, ?_, nothing idle, fun _ => none idle, fun _ _ => ?_,
      fun late => ?_, fun _ => alone, fun _ connected => absurd alone connected⟩
    · exact h.holds.once
    · change (s.opens fd .clips).denotes fd = some .clips
      rw [opens_denotes free.2, Function.update_self]
    · change 3 ≤ 2 at late
      omega
  | opensApps fd idle pc free =>
    have before : rank s.pc = 2 := by rw [pc]; rfl
    have alone : s.sock = 0 := h.holds.alone (by omega)
    refine ⟨fun v => nothing idle, h.holds.once, nothing idle, fun _ => none idle, fun _ _ => ?_,
      fun _ _ => ?_, fun _ => alone, fun _ connected => absurd alone connected⟩
    · change (s.opens fd .apps).denotes s.clips = some .clips
      rw [opens_denotes free.2]
      exact update_open free.2 (h.holds.clips (.inl pc) (by omega))
    · change (s.opens fd .apps).denotes fd = some .apps
      rw [opens_denotes free.2, Function.update_self]
  | opensOne fd idle pc free =>
    have before : rank s.pc = 2 := by rw [pc]; rfl
    exact leave_holds (s := { s.opens fd .apps with apps := fd }) s.failed
      (fun v member => by cases member) List.nodup_nil fun member => by cases member
  | opensParent fd idle pc free =>
    have before : rank s.pc = 6 := by rw [pc]; rfl
    refine ⟨fun v => nothing idle, h.holds.once, nothing idle, fun _ => none idle, fun _ _ => ?_,
      fun _ _ => ?_, fun early => ?_, fun _ _ _ => ?_⟩
    · change (s.opens fd parent).denotes s.clips = some .clips
      rw [opens_denotes free.2]
      exact update_open free.2 (h.holds.clips (.inr (by omega)) (by omega))
    · change (s.opens fd parent).denotes s.apps = some .apps
      rw [opens_denotes free.2]
      exact update_open free.2 (h.holds.apps (by omega) (by omega))
    · change 7 ≤ 6 at early
      omega
    · change (s.opens fd parent).denotes fd = some parent
      rw [opens_denotes free.2, Function.update_self]
  | leaves r code todo idle before some opened =>
    refine leave_holds s.failed ?_ (some.nodup (by decide)) fun member => ?_
    · intro v member
      exact h.holds.sockets (opened (List.ne_nil_of_mem member)) before v (some.subset member)
    · have other := some.subset member
      simp at other
  | fails err idle pc =>
    refine leave_holds (.some err) ?_ ?_ fun _ => Option.some_ne_none err
    · rw [owed_append]
      obtain pc | pc := pc
      · have initial := (h.phase.early (by rw [pc]; decide)).2
        exact h.holds.all (by rw [pc]; decide) (by rw [pc]; decide) (by rw [initial]; rfl)
      · exact h.holds.all (by rw [pc]; decide) (by rw [pc]; decide) (ok pc)
    · rw [owed_append]
      exact owed_all_once s
  | short err idle pc missing => exact absurd ok (Int.not_le.mpr missing)
  | starts r idle pc =>
    have early : 3 ≤ rank s.pc ∧ rank s.pc ≤ 10 := by
      obtain ⟨pc, -⟩ | pc := pc <;> rw [pc] <;> decide
    have same : ((start s).goto .appifInit).denotes = s.denotes := start_denotes h early.2
    refine ⟨fun v => nothing idle, h.holds.once, nothing idle, fun _ => none idle, fun _ _ => ?_,
      fun _ _ => ?_, fun late => ?_, fun _ connected _ => ?_⟩
    · rw [same]
      exact h.holds.clips (.inr early.1) (by omega)
    · rw [same]
      exact h.holds.apps early.1 (by omega)
    · change 11 ≤ 6 at late
      omega
    · rw [same]
      refine h.holds.parent (by omega) connected ?_
      rw [(h.phase.early early.2).2]
      rfl
  | inits idle pc =>
    have before : rank s.pc = 12 := by rw [pc]; rfl
    refine ⟨fun v => nothing idle, h.holds.once, nothing idle, fun _ => none idle,
      fun _ _ => h.holds.clips (.inr (by omega)) (by omega),
      fun _ _ => h.holds.apps (by omega) (by omega), fun late => ?_, fun late => ?_⟩
    · change 13 ≤ 6 at late
      omega
    · change 13 ≤ 11 at late
      omega

theorem Inv.open_holds (h : Inv s) {t : Tables.State} {fd : Fd} {c : Conn}
    (late : s.pc = .serve) (free : s.denotes fd = none)
    (denotes : State.denotes { s with tables := t } =
      Function.update s.denotes fd (some (.conn c))) :
    Holds { s with tables := t } := by
  have before : rank s.pc = 13 := by rw [late]; rfl
  have idle := h.holds.idle (by omega)
  refine ⟨fun v member => ?_, h.holds.once, h.holds.ours, h.holds.idle, fun kind bound => ?_,
    fun from_ bound => ?_, h.holds.alone, fun early => ?_⟩
  · change v ∈ owed s.todo at member
    rw [idle] at member
    cases member
  · rw [denotes]
    exact update_open free (h.holds.clips kind bound)
  · rw [denotes]
    exact update_open free (h.holds.apps from_ bound)
  · change rank s.pc ≤ 11 at early
    omega

theorem Inv.table_holds (h : Inv s) {a : Tables.Label} {closes : Bool}
    (ok : undisturbed s (.table a closes)) (change : Change s (.table a closes) s') : Holds s' := by
  cases change with
  | moves _ t threads admitted edge closed =>
    cases kernel_of_step edge with
    | same _ kernel clip app =>
      have denotes : State.denotes { s with tables := t } = s.denotes := denotes_same rfl kernel
      refine ⟨?_, h.holds.once, h.holds.ours, h.holds.idle, ?_, ?_, h.holds.alone, ?_⟩
      · rw [denotes]
        exact h.holds.mine
      · rw [denotes]
        exact h.holds.clips
      · rw [denotes]
        exact h.holds.apps
      · intro early connected spared
        have quiet := (h.quiet_table (.inl (Nat.le_succ_of_le early)) admitted edge).2.1
        rw [closed, Option.isSome_none, Bool.or_false] at quiet
        rw [denotes]
        exact h.holds.parent early connected (quiet.symm.trans spared)
    | closes c fd closes =>
      rw [closed] at closes
      cases closes
    | clipAccepts fd same free kernel =>
      subst same
      have unused : s.denotes fd = none := by
        rw [State.denotes, free]
        exact admitted.2 fd rfl
      exact h.open_holds admitted.1 unused (denotes_accept rfl kernel)
    | appAccepts fd same free kernel =>
      subst same
      have unused : s.denotes fd = none := by
        rw [State.denotes, free]
        exact admitted.2 fd rfl
      exact h.open_holds admitted.1 unused (denotes_accept rfl kernel)
  | tableCloses _ _ t c fd stuck threads edge closed kept jammed =>
    obtain ⟨unfailed, mine⟩ := h.closes ok threads closed
    have kernel : t.kernel = closeFd s.tables.kernel fd := by
      cases kernel_of_step edge with
      | same none =>
        rw [closed] at none
        cases none
      | closes c' fd' closes kernel =>
        rw [closed] at closes
        cases closes
        exact kernel
      | clipAccepts fd' same | appAccepts fd' same =>
        subst same
        cases closed
    have denotes : State.denotes { s with
        tables := t
        sockets := Function.update s.sockets fd none
        log := s.log ++ [⟨.conn c, s.denotes fd⟩]
        stuck := stuck } = Function.update s.denotes fd none := denotes_close rfl kernel
    have admitted : admits s a := by
      cases a with
      | clipAccept fd | appAccept fd => cases closed
      | clipListen | clipSlave | broadcast | clock | appListen | appSlave => trivial
    refine ⟨fun v member => ?_, h.holds.once, h.holds.ours, h.holds.idle, fun kind bound => ?_,
      fun from_ bound => ?_, h.holds.alone, fun early connected spared => ?_⟩
    · rw [denotes]
      refine update_keeps mine (h.holds.mine v member) ?_
      cases v with
      | clipsSock | appsSock => exact fun same => by cases same
      | sock => exact absurd unfailed (h.holds.ours member)
    · rw [denotes]
      exact update_keeps mine (h.holds.clips kind bound) (by simp)
    · rw [denotes]
      exact update_keeps mine (h.holds.apps from_ bound) (by simp)
    · have gone := (h.quiet_table (.inl (Nat.le_succ_of_le early)) admitted edge).2.1
      rw [closed, Option.isSome_some, Bool.or_true] at gone
      rw [gone] at spared
      cases spared

theorem Inv.holds_step (h : Inv s) (ok : undisturbed s label) (change : Change s label s') :
    Holds s' := by
  cases label with
  | execute closes => exact h.execute_holds change
  | call r => exact h.call_holds ok change
  | table a closes => exact h.table_holds ok change
  | jam t | other lock => cases change <;> exact h.holds.keep rfl rfl rfl rfl rfl rfl

theorem Inv.step (h : Inv s) (ok : undisturbed s label) (change : Change s label s') : Inv s' where
  registry := h.registry_step ok change
  phase := h.phase_step change
  holds := h.holds_step ok change
  startup := h.startup_step ok change

section Run

variable {verbose : Bool}

theorem Inv.init : Inv (daemon verbose).init where
  registry := by
    have none : ∀ fd, (daemon verbose).init.denotes fd = none := by
      intro fd
      simp [State.denotes, daemon, Tables.tables]
    refine ⟨ClosedOnce.init none, fun fd o opened => ?_, fun e member => ?_, Nat.one_pos⟩
    · rw [none fd] at opened
      cases opened
    · cases member
  phase := by
    refine ⟨fun _ => rfl, fun _ => by simp [daemon, rank], fun err failed => ?_,
      fun started => ?_⟩
    · cases failed
    · cases started
  holds := by
    refine ⟨fun v member => ?_, List.nodup_nil, fun member => ?_, fun _ => rfl, fun kind => ?_,
      fun late => ?_, fun _ => rfl, fun _ connected => absurd rfl connected⟩
    · cases member
    · cases member
    · simp [daemon, rank] at kind
    · simp [daemon, rank] at late
  startup := by
    refine ⟨fun _ => ⟨Idle.init 0, fun t stuck => ?_, fun _ => rfl⟩,
      fun failed => absurd rfl failed, fun jam => ?_, fun _ => rfl⟩
    · cases stuck
    · cases jam

theorem inv_of_reach (h : (daemon verbose).Reach undisturbed s) : Inv s :=
  h.invariant Inv.init fun _ _ _ inv ok edge => inv.step ok (change_of_step edge)

end Run

end DistributedClipboard.Daemon.Descriptors
