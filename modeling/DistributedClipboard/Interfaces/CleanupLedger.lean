/- module: DistributedClipboard/Interfaces/CleanupLedger
   source: src/src/interfaces/clipif.c, src/src/interfaces/appif.c
   layer: theorem
   digest: What one step of a cleanup can do, and the account of `n_connections` in every run. -/

import DistributedClipboard.Interfaces.Cleanup
import Mathlib.Data.List.Nodup

set_option autoImplicit false
set_option relaxedAutoImplicit false

namespace DistributedClipboard.Interfaces.CleanupLedger

open DistributedClipboard.Interfaces.Cleanup
open DistributedClipboard.Lib.Discipline
open DistributedClipboard.Lib.Transition

universe u

variable {T : Type u}

/-! What the messages do. -/

theorem showInfo_apart (verbose : Bool) : ∀ y ∈ (showInfo verbose : Code T), touches y = false := by
  cases verbose <;> simp [showInfo, touches]

theorem showWarning_apart (verbose : Bool) :
    ∀ y ∈ (showWarning verbose : Code T), touches y = false := by
  cases verbose <;> simp [showWarning, touches]

theorem closeFailed_apart : ∀ y ∈ (closeFailed : Code T), touches y = false := by
  simp [closeFailed, showError, touches]

section Execute

variable [DecidableEq T]

inductive LockChange (holder holder' : Mutex T → Option (Holder T)) (t : T) :
    Statement (Mutex T) Effect → Prop
  | lock (m : Mutex T) (free : holder m = none)
      (now : holder' = Function.update holder m (some (.slave t))) :
      LockChange holder holder' t (.lock m)
  | unlock (m : Mutex T) (now : holder' = Function.update holder m none) :
      LockChange holder holder' t (.unlock m)
  | act (e : Effect) (now : holder' = holder) : LockChange holder holder' t (.act e)

structure Executes (s s' : State T) (t : T) (x : Statement (Mutex T) Effect) : Prop where
  slaves : s'.slaves = s.slaves
  registered : s'.registered = s.registered
  locks : LockChange s.holder s'.holder t x
  counted : s'.counted = if x = .act .count then t :: s.counted else s.counted
  lower : s'.nConnections = if x = .act .count then s.nConnections - 1 else s.nConnections
  cleared : s'.cleared = if x = .act .clear then Function.update s.cleared t true else s.cleared
  signalled : s'.signalled =
    if x = .act .signal then Function.update s.signalled t true else s.signalled
  finalize : s'.finalize = s.finalize ∨ s.finalize = .wait ∧ s'.finalize = .lock
  fault : s'.fault = (s.fault || destroyed s.finalize x)

variable {s s' : State T} {t u : T} {outcome : Outcome} {code rest : Code T}

theorem execute_spec (h : execute s t outcome code = some (s', rest)) :
    ∃ x rest', code = x :: rest' ∧ Executes s s' t x ∧
      (rest = rest' ∨ x = .act .close ∧ outcome = .error ∧ rest = closeFailed ++ rest') := by
  cases code with
  | nil => cases h
  | cons x code =>
    refine ⟨x, code, rfl, ?_⟩
    cases x with
    | lock m =>
      simp only [execute] at h
      split at h
      · rename_i free
        cases h
        exact ⟨⟨rfl, rfl, .lock m free rfl, rfl, rfl, rfl, rfl, .inl rfl, rfl⟩, .inl rfl⟩
      · cases h
    | unlock m =>
      cases h
      exact ⟨⟨rfl, rfl, .unlock m rfl, rfl, rfl, rfl, rfl, .inl rfl, rfl⟩, .inl rfl⟩
    | act e =>
      cases e with
      | close =>
        simp only [execute] at h
        split at h
        · cases h
          exact ⟨⟨rfl, rfl, .act _ rfl, rfl, rfl, rfl, rfl, .inl rfl, rfl⟩, .inl rfl⟩
        · cases h
          exact ⟨⟨rfl, rfl, .act _ rfl, rfl, rfl, rfl, rfl, .inl rfl, rfl⟩, .inr ⟨rfl, rfl, rfl⟩⟩
        · cases h
        · cases h
      | signal =>
        cases h
        refine ⟨⟨rfl, rfl, .act _ rfl, rfl, rfl, rfl, rfl, ?_, rfl⟩, .inl rfl⟩
        by_cases waits : s.finalize = .wait
        · exact .inr ⟨waits, if_pos waits⟩
        · exact .inl (if_neg waits)
      | clear | count | detach | take | role | output =>
        cases h
        exact ⟨⟨rfl, rfl, .act _ rfl, rfl, rfl, rfl, rfl, .inl rfl, rfl⟩, .inl rfl⟩

variable {holder holder' : Mutex T → Option (Holder T)}

theorem LockChange.other {y : Statement (Mutex T) Effect} {held : List (Mutex T)}
    (change : LockChange holder holder' t y) (apart : u ≠ t)
    (mine : ∀ m, y = .unlock m → holder m = some (.slave t))
    (owns : Owns holder (.slave u) held) : Owns holder' (.slave u) held := by
  have apart' : some (Holder.slave t) ≠ some (Holder.slave u) := by
    intro same
    exact apart (Holder.slave.inj (Option.some.inj same)).symm
  cases change with
  | lock m free now =>
    subst now
    refine owns.other ?_ apart'
    rw [free]
    exact (Option.some_ne_none _).symm
  | unlock m now =>
    subst now
    refine owns.other ?_ (Option.some_ne_none _).symm
    rw [mine m rfl]
    exact apart'
  | act e now => exact now ▸ owns

theorem LockChange.mine {y : Statement (Mutex T) Effect} {held : List (Mutex T)} {rest : Code T}
    (change : LockChange holder holder' t y) (owns : Owns holder (.slave t) held)
    (disciplined : Disciplined held (y :: rest)) :
    (∀ m, y = .unlock m → holder m = some (.slave t)) ∧
      ∃ held', Owns holder' (.slave t) held' ∧ Disciplined held' rest := by
  cases change with
  | lock m free now =>
    subst now
    exact ⟨nofun, m :: held, owns.lock, disciplined.2⟩
  | unlock m now =>
    subst now
    refine ⟨?_, held.filter (· ≠ m), owns.unlock, disciplined.2⟩
    intro n same
    obtain rfl := Statement.unlock.inj same
    exact (owns m).mpr disciplined.1
  | act e now =>
    subst now
    exact ⟨nofun, held, owns, disciplined⟩

theorem LockChange.finalizer {y : Statement (Mutex T) Effect} {m : Mutex T}
    (change : LockChange holder holder' t y)
    (mine : ∀ m, y = .unlock m → holder m = some (.slave t)) (held : holder m = some .finalizer) :
    holder' m = some .finalizer := by
  cases change with
  | lock n free now =>
    subst now
    rw [Function.update_of_ne, held]
    rintro rfl
    rw [free] at held
    cases held
  | unlock n now =>
    subst now
    rw [Function.update_of_ne, held]
    rintro rfl
    rw [mine m rfl] at held
    cases held
  | act e now => exact now ▸ held

end Execute

section Change

variable [DecidableEq T] (i : Interface) (verbose : Bool)

def inLoop : Phase T → Bool
  | .start | .enable | .recv | .disable | .body => true
  | _ => false

inductive Change (s : State T) : Label T → State T → Prop
  | register (t : T) (idle : s.finalize = .idle) (unborn : (s.slaves t).phase = .unborn) :
      Change s (.register t)
        { s.goto t .start with
          nConnections := s.nConnections + 1
          registered := t :: s.registered }
  | ask (t : T) (cancelling : s.finalize = .cancelling) :
      Change s (.cancel t) (s.setSlave t { s.slaves t with pending := true })
  | turn (t : T) (outcome : Outcome) (x : Slave T) (fault : Bool)
      (before : inLoop (s.slaves t).phase = true) (after : inLoop x.phase = true)
      (called : x.called = (s.slaves t).called)
      (late : fault = true → s.fault = true ∨ s.finalize = .finished) :
      Change s (.next t outcome) { s.setSlave t x with fault := fault }
  | leave (t : T) (outcome : Outcome) (message : Code T) (fault : Bool)
      (before : inLoop (s.slaves t).phase = true)
      (shown : message = showInfo verbose ∨ message = showWarning verbose)
      (late : fault = true → s.fault = true ∨ s.finalize = .finished) :
      Change s (.next t outcome) { s.goto t (.leaving message) with fault := fault }
  | tells (t : T) (outcome : Outcome) (y : Statement (Mutex T) Effect) (rest : Code T) (s' : State T)
      (pc : (s.slaves t).phase = .leaving (y :: rest)) (does : Executes s s' t y) :
      Change s (.next t outcome) (s'.goto t (.leaving rest))
  | does (t : T) (outcome : Outcome) (handler : Bool) (y : Statement (Mutex T) Effect)
      (rest left : Code T) (s' : State T) (pc : (s.slaves t).phase = .closing handler (y :: rest))
      (does : Executes s s' t y)
      (either : left = rest ∨ y = .act .close ∧ outcome = .error ∧ left = closeFailed ++ rest) :
      Change s (.next t outcome) (s'.goto t (.closing handler left))
  | ends (t : T) (outcome : Outcome) (handler : Bool)
      (pc : (s.slaves t).phase = .closing handler []) : Change s (.next t outcome) (s.goto t .gone)
  | calls (t : T) (isParent : Bool) (pc : (s.slaves t).phase = .leaving []) :
      Change s (.call t isParent) (s.setSlave t { s.slaves t with
        phase := .closing false (closeConn i verbose isParent t)
        called := (s.slaves t).called + 1 })
  | handles (t : T) (isParent : Bool)
      (pc : (s.slaves t).phase = .recv ∨ ∃ rest, (s.slaves t).phase = .leaving rest) :
      Change s (.act t isParent) (s.setSlave t { s.slaves t with
        phase := .closing true (closeConn i verbose isParent t)
        called := (s.slaves t).called + 1 })
  | dies (t : T) (isParent : Bool) (y : Statement (Mutex T) Effect) (rest : Code T)
      (pc : (s.slaves t).phase = .closing false (y :: rest)) :
      Change s (.act t isParent) (s.goto t .gone)
  | finalize (s' : State T) (moves : finalizeStep s = some s') : Change s .finalize s'
  | wake (waits : s.finalize = .wait) : Change s .wake { s with finalize := .lock }
  | locks (m : Mutex T) (free : s.holder m = none) :
      Change s (.other m true) (s.setHolder m (some .other))
  | unlocks (m : Mutex T) (held : s.holder m = some .other) :
      Change s (.other m false) (s.setHolder m none)

variable {i verbose} {s s' : State T} {t : T}

theorem late_of_or {fault b : Bool} {p : Prop} [Decidable p] (h : b = (fault || decide p)) :
    b = true → fault = true ∨ p := by
  intro now
  rw [h, Bool.or_eq_true, decide_eq_true_eq] at now
  exact now

theorem change_of_next {outcome : Outcome} (edge : next verbose s t outcome = some s') :
    Change i verbose s (.next t outcome) s' := by
  cases pc : (s.slaves t).phase with
  | unborn | gone =>
    simp only [next, pc] at edge
    cases edge
  | start =>
    simp only [next, pc] at edge
    obtain rfl := Option.some.inj edge
    exact .turn t outcome _ _ (by rw [pc]; rfl) rfl rfl (late_of_or rfl)
  | enable | disable =>
    simp only [next, pc] at edge
    obtain rfl := Option.some.inj edge
    exact .turn t outcome _ s.fault (by rw [pc]; rfl) rfl rfl .inl
  | recv =>
    simp only [next, pc] at edge
    cases outcome with
    | ok | wrong =>
      obtain rfl := Option.some.inj edge
      exact .turn t _ _ s.fault (by rw [pc]; rfl) rfl rfl .inl
    | eof =>
      obtain rfl := Option.some.inj edge
      exact .leave t _ _ s.fault (by rw [pc]; rfl) (.inl rfl) .inl
    | error =>
      obtain rfl := Option.some.inj edge
      exact .leave t _ _ s.fault (by rw [pc]; rfl) (.inr rfl) .inl
  | body =>
    simp only [next, pc] at edge
    cases outcome with
    | ok | wrong =>
      obtain rfl := Option.some.inj edge
      exact .turn t _ _ _ (by rw [pc]; rfl) rfl rfl (late_of_or rfl)
    | eof =>
      obtain rfl := Option.some.inj edge
      exact .leave t _ _ _ (by rw [pc]; rfl) (.inl rfl) (late_of_or rfl)
    | error =>
      obtain rfl := Option.some.inj edge
      exact .leave t _ _ _ (by rw [pc]; rfl) (.inr rfl) (late_of_or rfl)
  | leaving code =>
    simp only [next, pc] at edge
    obtain ⟨⟨u, rest⟩, moved, rfl⟩ := Option.map_eq_some_iff.mp edge
    obtain ⟨y, rest', rfl, does, left⟩ := execute_spec moved
    obtain rfl : rest = rest' := left.resolve_right (by simp)
    exact .tells t outcome y rest u pc does
  | closing handler code =>
    simp only [next, pc] at edge
    split at edge
    · obtain rfl := Option.some.inj edge
      exact .ends t outcome handler pc
    · obtain ⟨⟨u, rest⟩, moved, rfl⟩ := Option.map_eq_some_iff.mp edge
      obtain ⟨y, rest', rfl, does, left⟩ := execute_spec moved
      exact .does t outcome handler y rest' rest u pc does left

theorem change_of_step {a : Label T} (edge : step i verbose s a = some s') :
    Change i verbose s a s' := by
  cases a with
  | register t =>
    obtain ⟨⟨idle, unborn, -⟩, now⟩ := Option.ite_none_right_eq_some.mp edge
    obtain rfl := Option.some.inj now
    exact .register t idle unborn
  | cancel t =>
    obtain ⟨cancelling, now⟩ := Option.ite_none_right_eq_some.mp edge
    obtain rfl := Option.some.inj now
    exact .ask t cancelling
  | next t outcome => exact change_of_next edge
  | call t isParent =>
    obtain ⟨pc, now⟩ := Option.ite_none_right_eq_some.mp edge
    obtain rfl := Option.some.inj now
    exact .calls t isParent pc
  | act t isParent =>
    obtain ⟨⟨-, -, point⟩, now⟩ := Option.ite_none_right_eq_some.mp edge
    split at now
    case h_1 pc =>
      obtain rfl := Option.some.inj now
      exact .handles t isParent (.inl pc)
    case h_2 rest pc =>
      obtain rfl := Option.some.inj now
      exact .handles t isParent (.inr ⟨rest, pc⟩)
    case h_3 rest pc =>
      obtain rfl := Option.some.inj now
      cases rest with
      | nil =>
        rw [pc] at point
        cases point
      | cons y rest => exact .dies t isParent y rest pc
    case h_4 => cases now
  | finalize => exact .finalize s' edge
  | wake =>
    obtain ⟨waits, now⟩ := Option.ite_none_right_eq_some.mp edge
    obtain rfl := Option.some.inj now
    exact .wake waits
  | other m lock =>
    cases lock with
    | true =>
      obtain ⟨free, now⟩ := Option.ite_none_right_eq_some.mp edge
      obtain rfl := Option.some.inj now
      exact .locks m free
    | false =>
      obtain ⟨held, now⟩ := Option.ite_none_right_eq_some.mp edge
      obtain rfl := Option.some.inj now
      exact .unlocks m held

end Change

section Ledger

variable [DecidableEq T]

/-- How often a slave in this phase has lowered `n_connections`. Its messages do not lower it. -/
def account : Phase T → Nat → Prop
  | .leaving rest, n => n = 0 ∧ ∀ y ∈ rest, touches y = false
  | .closing _ rest, n => n + rest.count (.act .count) = 1
  | .gone, n => n ≤ 1
  | _, n => n = 0

/-- The account of `n_connections`. -/
structure Ledger (s : State T) : Prop where
  account : ∀ t, account (s.slaves t).phase (s.counted.count t)
  registered : ∀ t, t ∈ s.registered ↔ (s.slaves t).phase ≠ .unborn
  distinct : s.registered.Nodup
  total : s.nConnections = s.registered.length - s.counted.length

variable {i : Interface} {verbose : Bool} {s s' : State T} {t u : T} {x : Slave T}
  {y : Statement (Mutex T) Effect} {rest : Code T}

theorem account_quiet {p : Phase T} {n : Nat} (h : account p n)
    (quiet : inLoop p = true ∨ p = .unborn ∨ ∃ rest, p = .leaving rest) : n = 0 := by
  obtain loop | rfl | ⟨rest, rfl⟩ := quiet
  · cases p with
    | start | enable | recv | disable | body => exact h
    | unborn | leaving | closing | gone => cases loop
  · exact h
  · exact h.1

theorem account_loop {p : Phase T} (loop : inLoop p = true) : account p 0 := by
  cases p with
  | start | enable | recv | disable | body => exact rfl
  | unborn | leaving | closing | gone => cases loop

omit [DecidableEq T] in
theorem born_of_loop {p : Phase T} (loop : inLoop p = true) : p ≠ .unborn := by
  rintro rfl
  cases loop

theorem count_of_apart (apart : ∀ y ∈ rest, touches y = false) : rest.count (.act .count) = 0 := by
  rw [List.count_eq_zero]
  intro member
  cases apart _ member

theorem closeConn_counts (i : Interface) (verbose isParent : Bool) (t : T) :
    (closeConn i verbose isParent t).count (.act .count) = 1 := by
  have shows : (showInfo verbose : Code T).count (.act .count) = 0 :=
    count_of_apart (showInfo_apart verbose)
  have parent : (if isParent then showInfo verbose else [] : Code T).count (.act .count) = 0 := by
    cases isParent with
    | true => exact shows
    | false => rfl
  cases i with
  | clipif =>
    simp only [closeConn, clipifCloseConn, List.count_append, shows, parent]
    rfl
  | appif =>
    simp only [closeConn, appifCloseConn, List.count_append, shows]
    rfl

theorem Executes.total (does : Executes s s' t y) :
    s'.nConnections + s'.counted.length = s.nConnections + s.counted.length := by
  rw [does.counted, does.lower]
  split
  · rw [List.length_cons]
    omega
  · rfl

theorem Executes.count_other (does : Executes s s' t y) (apart : u ≠ t) :
    s'.counted.count u = s.counted.count u := by
  rw [does.counted]
  split
  · exact List.count_cons_of_ne (Ne.symm apart)
  · rfl

theorem Executes.count_self (does : Executes s s' t y) (rest : Code T) :
    s'.counted.count t + rest.count (.act .count) =
      s.counted.count t + (y :: rest).count (.act .count) := by
  rw [does.counted]
  by_cases now : y = .act .count
  · subst now
    rw [if_pos rfl, List.count_cons_self, List.count_cons_self]
    omega
  · rw [if_neg now, List.count_cons_of_ne now]

theorem Ledger.move (h : Ledger s) (slaves : s'.slaves = Function.update s.slaves t x)
    (counts : ∀ u, u ≠ t → s'.counted.count u = s.counted.count u)
    (mine : CleanupLedger.account x.phase (s'.counted.count t))
    (registered : s'.registered = s.registered)
    (born : x.phase = .unborn ↔ (s.slaves t).phase = .unborn)
    (total : s'.nConnections + s'.counted.length = s.nConnections + s.counted.length) :
    Ledger s' := by
  refine ⟨fun u => ?_, fun u => ?_, registered ▸ h.distinct, ?_⟩
  · by_cases same : u = t
    · subst same
      rw [slaves, Function.update_self]
      exact mine
    · rw [slaves, Function.update_of_ne same, counts u same]
      exact h.account u
  · rw [registered, slaves]
    by_cases same : u = t
    · subst same
      rw [Function.update_self, h.registered u]
      exact (not_congr born).symm
    · rw [Function.update_of_ne same]
      exact h.registered u
  · have before := h.total
    rw [registered]
    omega

theorem Ledger.goto {fault : Bool} (h : Ledger s)
    (mine : CleanupLedger.account x.phase (s.counted.count t))
    (born : x.phase = .unborn ↔ (s.slaves t).phase = .unborn) :
    Ledger { s.setSlave t x with fault := fault } :=
  h.move rfl (fun _ _ => rfl) mine rfl born rfl

theorem Ledger.keep (h : Ledger s) (slaves : s'.slaves = s.slaves) (counted : s'.counted = s.counted)
    (registered : s'.registered = s.registered) (total : s'.nConnections = s.nConnections) :
    Ledger s' := by
  constructor
  · rw [slaves, counted]
    exact h.account
  · rw [slaves, registered]
    exact h.registered
  · rw [registered]
    exact h.distinct
  · rw [total, registered, counted]
    exact h.total

theorem finalizeStep_frame (moves : finalizeStep s = some s') :
    s'.slaves = s.slaves ∧ s'.counted = s.counted ∧ s'.registered = s.registered ∧
      s'.nConnections = s.nConnections ∧ s'.fault = s.fault := by
  cases pc : s.finalize with
  | wait | finished =>
    simp only [finalizeStep, pc] at moves
    cases moves
  | idle | cancelling | unlock | destroyCond | destroyLocks | free =>
    simp only [finalizeStep, pc] at moves
    obtain rfl := Option.some.inj moves
    exact ⟨rfl, rfl, rfl, rfl, rfl⟩
  | lock =>
    simp only [finalizeStep, pc] at moves
    obtain ⟨free, now⟩ := Option.ite_none_right_eq_some.mp moves
    obtain rfl := Option.some.inj now
    exact ⟨rfl, rfl, rfl, rfl, rfl⟩
  | test =>
    simp only [finalizeStep, pc] at moves
    split at moves
    · obtain rfl := Option.some.inj moves
      exact ⟨rfl, rfl, rfl, rfl, rfl⟩
    · obtain rfl := Option.some.inj moves
      exact ⟨rfl, rfl, rfl, rfl, rfl⟩

theorem Ledger.step {a : Label T} (h : Ledger s) (change : Change i verbose s a s') : Ledger s' := by
  have account := h.account
  cases change with
  | register t idle unborn =>
    have fresh : t ∉ s.registered := fun member => (h.registered t).mp member unborn
    refine ⟨fun u => ?_, fun u => ?_, List.nodup_cons.mpr ⟨fresh, h.distinct⟩, ?_⟩
    · by_cases same : u = t
      · subst same
        simp only [State.goto, State.setSlave, Function.update_self]
        exact account_quiet (account u) (.inr (.inl unborn))
      · simp only [State.goto, State.setSlave, Function.update_of_ne same]
        exact account u
    · by_cases same : u = t
      · subst same
        simp [State.goto, State.setSlave]
      · simp only [State.goto, State.setSlave, Function.update_of_ne same, List.mem_cons, same,
          false_or]
        exact h.registered u
    · have before := h.total
      simp only [List.length_cons]
      change s.nConnections + 1 = _ - (s.counted.length : Int)
      omega
  | ask t cancelling => exact h.move rfl (fun _ _ => rfl) (account t) rfl Iff.rfl rfl
  | turn t outcome x fault before after called late =>
    refine h.goto ?_ (iff_of_false (born_of_loop after) (born_of_loop before))
    rw [account_quiet (account t) (.inl before)]
    exact account_loop after
  | leave t outcome message fault before shown late =>
    refine h.goto ?_ (iff_of_false (by simp) (born_of_loop before))
    refine ⟨account_quiet (account t) (.inl before), ?_⟩
    obtain rfl | rfl := shown
    · exact showInfo_apart verbose
    · exact showWarning_apart verbose
  | tells t outcome y rest s' pc does =>
    have mine := account t
    rw [pc] at mine
    obtain ⟨none, apart⟩ := mine
    have apart' := fun z member => apart z (List.mem_cons_of_mem y member)
    refine h.move (by rw [State.goto, State.setSlave, does.slaves]) (fun u => does.count_other) ?_
      does.registered (by simp [pc]) does.total
    have step := Executes.count_self does rest
    rw [count_of_apart apart, count_of_apart apart', none] at step
    exact ⟨step, apart'⟩
  | does t outcome handler y rest left s' pc does either =>
    have mine := account t
    rw [pc] at mine
    refine h.move (by rw [State.goto, State.setSlave, does.slaves]) (fun u => does.count_other) ?_
      does.registered (by simp [pc]) does.total
    have step := Executes.count_self does rest
    have same : left.count (.act .count) = rest.count (.act .count) := by
      obtain rfl | ⟨-, -, rfl⟩ := either
      · rfl
      · rw [List.count_append, count_of_apart closeFailed_apart, Nat.zero_add]
    change s'.counted.count t + left.count (.act .count) = 1
    rw [same, step]
    exact mine
  | ends t outcome handler pc =>
    have mine := account t
    rw [pc] at mine
    refine h.move rfl (fun _ _ => rfl) ?_ rfl (by simp [pc]) rfl
    exact Nat.le_of_eq mine
  | calls t isParent pc =>
    refine h.move rfl (fun _ _ => rfl) ?_ rfl (by simp [pc]) rfl
    have none := account_quiet (account t) (.inr (.inr ⟨_, pc⟩))
    change s.counted.count t + _ = 1
    rw [none, closeConn_counts]
  | handles t isParent pc =>
    have none : s.counted.count t = 0 := by
      refine account_quiet (account t) ?_
      obtain pc | pc := pc
      · exact .inl (by rw [pc]; rfl)
      · exact .inr (.inr pc)
    refine h.move rfl (fun _ _ => rfl) ?_ rfl ?_ rfl
    · change s.counted.count t + _ = 1
      rw [none, closeConn_counts]
    · obtain pc | ⟨rest, pc⟩ := pc
      · simp [pc]
      · simp [pc]
  | dies t isParent y rest pc =>
    have mine := account t
    rw [pc] at mine
    refine h.move rfl (fun _ _ => rfl) ?_ rfl (by simp [pc]) rfl
    exact Nat.le_trans (Nat.le_add_right _ _) (Nat.le_of_eq mine)
  | finalize s' moves =>
    obtain ⟨slaves, counted, registered, total, -⟩ := finalizeStep_frame moves
    exact h.keep slaves counted registered total
  | wake waits => exact h.keep rfl rfl rfl rfl
  | locks m free => exact h.keep rfl rfl rfl rfl
  | unlocks m held => exact h.keep rfl rfl rfl rfl

theorem Ledger.counted (h : Ledger s) : s.counted.Nodup ∧ ∀ t ∈ s.counted, t ∈ s.registered := by
  constructor
  · rw [List.nodup_iff_count_le_one]
    intro t
    have mine := h.account t
    cases pc : (s.slaves t).phase with
    | unborn | start | enable | recv | disable | body | leaving rest =>
      rw [pc] at mine
      have none := account_quiet mine (by simp [inLoop])
      omega
    | closing handler rest =>
      rw [pc] at mine
      exact Nat.le_trans (Nat.le_add_right _ _) (Nat.le_of_eq mine)
    | gone =>
      rw [pc] at mine
      exact mine
  · intro t member
    rw [h.registered]
    intro unborn
    have none := account_quiet (h.account t) (.inr (.inl unborn))
    exact absurd member (List.count_eq_zero.mp none)

theorem Ledger.live (h : Ledger s) :
    s.nConnections = (s.registered.filter (· ∉ s.counted)).length := by
  obtain ⟨distinct, among⟩ := h.counted
  have same : (s.registered.filter (· ∈ s.counted)).Perm s.counted := by
    rw [List.perm_ext_iff_of_nodup (h.distinct.filter _) distinct]
    intro t
    simp only [List.mem_filter, decide_eq_true_eq]
    exact ⟨fun both => both.2, fun member => ⟨among t member, member⟩⟩
  have split := List.length_eq_length_filter_add (l := s.registered) (· ∈ s.counted)
  rw [same.length_eq] at split
  simp only [← decide_not] at split
  have total := h.total
  omega

theorem ledger_of_reach {ok : State T → Label T → Prop}
    (h : (cleanup i verbose).Reach ok s) : Ledger s := by
  refine h.invariant ?_ fun s a t known _ edge => known.step (change_of_step edge)
  exact ⟨fun _ => rfl, fun t => by simp [cleanup], List.nodup_nil, rfl⟩

end Ledger

end DistributedClipboard.Interfaces.CleanupLedger
