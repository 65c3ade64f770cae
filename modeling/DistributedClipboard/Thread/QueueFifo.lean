/- module: DistributedClipboard/Thread/QueueFifo
   source: src/src/thread/queue.c
   layer: results
   digest: The broadcast queue is a first-in first-out list as long as its counter does not wrap. -/

import DistributedClipboard.Thread.QueueMemory

set_option autoImplicit false
set_option relaxedAutoImplicit false

namespace DistributedClipboard.Thread.QueueFifo

open DistributedClipboard.Lib.Linked
open DistributedClipboard.Lib.Transition
open DistributedClipboard.Thread.Queue
open DistributedClipboard.Thread.QueueLocks
open DistributedClipboard.Thread.QueueMemory

universe u v

section

variable {T : Type u} [DecidableEq T] {D : Type v} {s s' : State T D} {t : T}

def acceptedBy (s : State T D) (t : T) : List D :=
  s.accepted.filterMap fun x => if x.1 = t then some x.2 else none

def successes (x : Caller D) : List D :=
  x.returned.filterMap fun r => if r.2 = 0 then some r.1 else none

def returning : Pc D → List D
  | .unlock d | .signal d => [d]
  | _ => []

/-- The accepted pushes are those that return 0. -/
def Accounted (s : State T D) : Prop :=
  ∀ t, acceptedBy s t = successes (s.threads t) ++ returning (s.threads t).pc

/-- The queue is the list of what has been accepted and not been popped yet. -/
structure Fifo (s : State T D) : Prop where
  order : s.popped <+: s.accepted.map Prod.snd
  pushes : Accounted s
  null : s.consumer = .ended → s.q.terminate = true ∧ s.popped = s.accepted.map Prod.snd
  chain : s.q.lock = none → ∃ chain : List (Addr × D), Chain s.heap s.q.first chain ∧
    s.accepted.map Prod.snd = s.popped ++ inHand s.heap s.consumer ++ chain.map Prod.snd ∧
    s.q.nElements.toNat = chain.length ∧ s.q.last = chain.getLast?.map Prod.fst ∧
    (s.q.first = none ↔ s.q.last = none) ∧ (s.q.last = none ↔ s.q.nElements = 0)

/-- The statement `q->n_elements++`. -/
def increments : Pc D → Bool
  | .count _ _ => true
  | _ => false

/-- `q->n_elements++` does not wrap around. -/
def counts (s : State T D) : Label T D → Prop
  | .next t _ => increments (s.threads t).pc = true → s.q.nElements.toNat + 1 < UInt32.size
  | _ => True

instance : (s : State T D) → (a : Label T D) → Decidable (counts s a)
  | s, .next t _ => inferInstanceAs (Decidable
      (increments (s.threads t).pc = true → s.q.nElements.toNat + 1 < UInt32.size))
  | _, .push _ _ => .isTrue trivial
  | _, .terminate _ => .isTrue trivial
  | _, .pop => .isTrue trivial
  | _, .consume => .isTrue trivial
  | _, .wake => .isTrue trivial

attribute [local simp] State.setThread State.goto State.ret State.setCell State.fail State.setLock
  State.popGoto

theorem callerStep_accounted {new : Option Addr} (h : Accounted s)
    (edge : callerStep s t new = some s') : Accounted s' := by
  intro u
  have before := h u
  unfold acceptedBy at before ⊢
  by_cases mine : u = t
  · subst mine
    cases pc : (s.threads u).pc
    all_goals
      simp only [callerStep, pc] at edge
      rw [pc] at before
      repeat' split at edge
      all_goals try cases edge
    all_goals
      simp only [returning, List.append_nil] at before
      simp [before, returning, successes, pc]
  · obtain ⟨others, _⟩ := callerStep_others edge
    rw [others u mine, ← before]
    unfold callerStep at edge
    split at edge <;> (repeat' split at edge) <;> cases edge
    all_goals simp [Ne.symm mine]

theorem Accounted.step {a : Label T D} (h : Accounted s) (edge : Queue.step s a = some s') :
    Accounted s' := by
  cases a with
  | next t new => exact callerStep_accounted h edge
  | consume =>
    intro u
    have before := h u
    rw [popStep_threads edge, ← before]
    have edge : popStep s = some s' := edge
    unfold popStep at edge
    split at edge <;> (repeat' split at edge) <;> cases edge
    all_goals simp [acceptedBy]
  | push t d | terminate t =>
    simp only [Queue.step] at edge
    split at edge <;> cases edge
    rename_i idle
    intro u
    have before := h u
    by_cases mine : u = t
    · subst mine
      rw [idle] at before
      simpa [acceptedBy, successes, returning] using before
    · simpa [acceptedBy, mine] using before
  | pop | wake =>
    simp only [Queue.step] at edge
    split at edge <;> cases edge
    exact h

/-- In every run the accepted pushes are those that return 0. -/
theorem accounted_of_reach {ok : State T D → Label T D → Prop}
    (h : (queueSystem T D).Reach ok s) : Accounted s :=
  h.invariant (fun _ => rfl) fun _ _ _ accounted _ edge => accounted.step edge

omit [DecidableEq T] in
theorem shape_count (chain : List (Addr × D)) : (shape s chain).count = chain.length := by
  unfold shape
  split
  · rfl
  · rename_i t _
    cases (s.threads t).pc <;> rfl
  · cases s.consumer <;> rfl

def Counted (s : State T D) : Prop := ∃ own chain, Inv own chain s ∧ chain.length < UInt32.size

theorem Counted.step {a : Label T D} (h : Counted s) (locks : Locks s) (room : counts s a)
    (edge : Queue.step s a = some s') : Counted s' := by
  obtain ⟨own, chain, inv, small⟩ := h
  obtain ⟨own', chain', inv', shorter | ⟨t, new, b, d, rfl, pc, longer⟩⟩ := inv.step locks edge
  · exact ⟨own', chain', inv', by omega⟩
  · have fits := inv.fits_caller (locks.caller (t := t) (by rw [pc]; rfl))
    rw [pc] at fits
    have count : s.q.nElements = UInt32.ofNat chain.length := fits.count
    simp only [counts, pc, increments, count, UInt32.toNat_ofNat_of_lt' small, forall_const] at room
    refine ⟨own', chain', inv', ?_⟩
    rw [longer, List.length_append, List.length_singleton]
    exact room

theorem counted_of_reach (h : (queueSystem T D).Reach counts s) : Counted s :=
  h.invariant_of (fun _ reach => locks_of_reach reach)
    ⟨fun _ => .free, [], inv_init, Nat.zero_lt_succ _⟩
    fun _ _ _ locks counted room edge => counted.step locks room edge

theorem null_of_ended (h : (queueSystem T D).Reach counts s) (ended : s.consumer = .ended) :
    s.q.terminate = true ∧ s.popped = s.accepted.map Prod.snd := by
  obtain ⟨own, chain, inv, small⟩ := counted_of_reach h
  obtain ⟨closed, zero⟩ := (closed_of_reach h).null (by rw [ended]; rfl)
  have empty : chain = [] := by
    have count := inv.fits.count
    have size := UInt32.toNat_ofNat_of_lt' small
    rw [zero, shape_count] at count
    rw [← count] at size
    exact List.length_eq_zero_iff.mp size.symm
  refine ⟨closed, ?_⟩
  rw [inv.contents, ended, empty]
  simp [inHand, taken]

/-- The queue is a first-in first-out list in every run that does not wrap its counter. -/
theorem queue_fifo (h : (queueSystem T D).Reach counts s) : Fifo s := by
  obtain ⟨own, chain, inv, small⟩ := counted_of_reach h
  have size : (UInt32.ofNat chain.length).toNat = chain.length := UInt32.toNat_ofNat_of_lt' small
  constructor
  · refine ⟨inHand s.heap s.consumer ++ chain.map Prod.snd, ?_⟩
    rw [inv.contents, List.append_assoc]
  · exact accounted_of_reach h
  · exact null_of_ended h
  · intro free
    have fits : Fits s.q s.heap (whole chain) := by
      have shaped : shape s chain = whole chain := by rw [shape, free]
      exact shaped ▸ inv.fits
    have linked : Chain s.heap s.q.first chain := fits.linked
    have last : s.q.last = chain.getLast?.map Prod.fst := fits.last
    have count : s.q.nElements.toNat = chain.length := by
      rw [show s.q.nElements = UInt32.ofNat chain.length from fits.count, size]
    have lastNone : s.q.last = none ↔ chain = [] := by simp [last]
    refine ⟨chain, linked, inv.contents, count, last, ?_, ?_⟩
    · rw [linked.nil_iff, lastNone]
    · rw [lastNone, ← UInt32.toNat_inj, count]
      simp

/-- Nobody is inside the queue, which is open. -/
structure Quiet (s : State T D) : Prop where
  lock : s.q.lock = none
  terminate : s.q.terminate = false
  idle : ∀ t, (s.threads t).pc = .idle
  consumer : s.consumer = .outside

private def wholePush {T : Type u} {D : Type v} (t : T) (d : D) (new : Addr) : List (Label T D) :=
  .push t d :: List.replicate 9 (.next t (some new))

section QuietCalls

variable {pc : Pc D} {q : QueueVars T} {heap : Addr → Option (Cell Addr D)} {new : Addr} {d : D}

private def busy (s : State T D) (t : T) (pc : Pc D) (q : QueueVars T)
    (heap : Addr → Option (Cell Addr D)) : State T D :=
  { s with
    q := q
    heap := heap
    threads := Function.update s.threads t { s.threads t with pc := pc } }

theorem busy_pc : ((busy s t pc q heap).threads t).pc = pc := by
  have own : (busy s t pc q heap).threads t = { s.threads t with pc := pc } :=
    Function.update_self ..
  rw [own]

theorem busy_goto (s : State T D) (t : T) (pc : Pc D) (q : QueueVars T)
    (heap : Addr → Option (Cell Addr D)) (pc' : Pc D) :
    (busy s t pc q heap).goto t pc' = busy s t pc' q heap := by
  simp [busy]

private def pushed (s : State T D) (t : T) (d : D) (q : QueueVars T)
    (heap : Addr → Option (Cell Addr D)) : State T D :=
  { s with
    q := q
    heap := heap
    threads := Function.update s.threads t ⟨.idle, (s.threads t).returned ++ [(d, 0)]⟩
    accepted := s.accepted ++ [(t, d)] }

theorem push_enters (quiet : Quiet s) (fresh : s.heap new = none) :
    (queueSystem T D).run s (.push t d :: List.replicate 3 (.next t (some new))) =
      some (busy s t (.link new d) { s.q with lock := some (.caller t) }
        (Function.update s.heap new (some ⟨none, d⟩))) := by
  let allocated := Function.update s.heap new (some ⟨none, d⟩)
  have calls : Queue.step s (.push t d) = some (busy s t (.malloc d) s.q s.heap) := by
    rw [Queue.step, quiet.idle t]
    rfl
  have mallocs : callerStep (busy s t (.malloc d) s.q s.heap) t (some new) =
      some (busy s t (.lock new d) s.q allocated) := by
    rw [callerStep, busy_pc]
    refine (if_pos fresh).trans (congrArg some ?_)
    exact busy_goto s t _ s.q allocated _
  have locks : callerStep (busy s t (.lock new d) s.q allocated) t (some new) =
      some (busy s t (.test new d) { s.q with lock := some (.caller t) } allocated) := by
    rw [callerStep, busy_pc]
    refine (if_pos quiet.lock).trans (congrArg some ?_)
    exact busy_goto s t _ { s.q with lock := some (.caller t) } allocated _
  have tests : callerStep
      (busy s t (.test new d) { s.q with lock := some (.caller t) } allocated) t (some new) =
        some (busy s t (.link new d) { s.q with lock := some (.caller t) } allocated) := by
    rw [callerStep, busy_pc]
    refine (if_neg (Bool.eq_false_iff.mp quiet.terminate)).trans (congrArg some ?_)
    exact busy_goto s t _ { s.q with lock := some (.caller t) } allocated _
  simp only [List.replicate, System.run, queueSystem, Queue.step] at calls ⊢
  simp only [calls, mallocs, locks, tests, Option.bind_some, allocated]

theorem push_leaves (outside : s.consumer = .outside) (t : T) (d : D) (new : Addr)
    (q : QueueVars T) (heap : Addr → Option (Cell Addr D)) : ∃ first, (queueSystem T D).run
      (busy s t (.setLast new d) q heap) (List.replicate 5 (.next t (some new))) =
        some (pushed s t d ⟨none, first, some new, q.nElements + 1, q.terminate⟩ heap) := by
  let q₁ : QueueVars T := { q with last := some new }
  have setsLast : callerStep (busy s t (.setLast new d) q heap) t (some new) =
      some (busy s t (.setFirst new d) q₁ heap) := by
    rw [callerStep, busy_pc]
    exact congrArg some (busy_goto s t _ q₁ heap _)
  obtain ⟨first, setsFirst⟩ : ∃ first, callerStep (busy s t (.setFirst new d) q₁ heap) t
      (some new) = some (busy s t (.count new d) { q₁ with first := first } heap) := by
    rw [callerStep, busy_pc]
    by_cases empty : q.first = none
    · refine ⟨some new, (if_pos empty).trans (congrArg some ?_)⟩
      exact busy_goto s t _ { q₁ with first := some new } heap _
    · exact ⟨q.first, (if_neg empty).trans (congrArg some (busy_goto s t _ q₁ heap _))⟩
  let s₁ : State T D := { s with accepted := s.accepted ++ [(t, d)] }
  let q₂ : QueueVars T := { q₁ with first := first, nElements := q.nElements + 1 }
  have counts : callerStep (busy s t (.count new d) { q₁ with first := first } heap) t
      (some new) = some (busy s₁ t (.unlock d) q₂ heap) := by
    rw [callerStep, busy_pc]
    exact congrArg some (busy_goto s₁ t _ q₂ heap _)
  have unlocks : callerStep (busy s₁ t (.unlock d) q₂ heap) t (some new) =
      some (busy s₁ t (.signal d) { q₂ with lock := none } heap) := by
    rw [callerStep, busy_pc]
    exact congrArg some (busy_goto s₁ t _ { q₂ with lock := none } heap _)
  have signals : callerStep (busy s₁ t (.signal d) { q₂ with lock := none } heap) t
      (some new) = some (pushed s t d { q₂ with lock := none } heap) := by
    let last := busy s₁ t (.signal d) { q₂ with lock := none } heap
    have nobody : last.signal = last := by
      rw [State.signal, show last.consumer = .outside from outside]
    rw [callerStep, busy_pc]
    refine congrArg some ((congrArg (State.ret · t d 0) nobody).trans ?_)
    simp [last, busy, pushed, s₁]
  refine ⟨first, ?_⟩
  simp only [List.replicate, System.run, queueSystem, Queue.step]
  simp only [setsLast, setsFirst, counts, unlocks, signals, Option.bind_some]
  rfl

theorem last_live (reach : (queueSystem T D).Reach System.anyStep s)
    (quiet : Quiet s) {l : Addr} (last : s.q.last = some l) : ∃ c, s.heap l = some c := by
  obtain ⟨own, chain, inv⟩ := inv_of_reach reach
  have shaped : shape s chain = whole chain := by rw [shape, quiet.lock]
  have fits : Fits s.q s.heap (whole chain) := shaped ▸ inv.fits
  have lastIs : s.q.last = chain.getLast?.map Prod.fst := fits.last
  rw [last] at lastIs
  obtain ⟨y, back, rfl⟩ := Option.map_eq_some_iff.mp lastIs.symm
  exact Option.ne_none_iff_exists'.mp
    (fits.linked.live_fst (List.mem_map_of_mem (List.mem_of_getLast? back)))

theorem quiet_push (reach : (queueSystem T D).Reach System.anyStep s) (quiet : Quiet s) (t : T)
    (d : D) {new : Addr} (fresh : s.heap new = none) :
    ∃ s', (queueSystem T D).run s (wholePush t d new) = some s' ∧ Quiet s' ∧
      s'.accepted = s.accepted ++ [(t, d)] ∧ s'.popped = s.popped ∧
      ∀ a, a ≠ new → s.heap a = none → s'.heap a = none := by
  let q : QueueVars T := { s.q with lock := some (.caller t) }
  let allocated := Function.update s.heap new (some ⟨none, d⟩)
  have kept : ∀ a, a ≠ new → s.heap a = none → allocated a = none := fun a other dead =>
    (Function.update_of_ne other ..).trans dead
  obtain ⟨heap, links, dead⟩ : ∃ heap, callerStep (busy s t (.link new d) q allocated) t
      (some new) = some (busy s t (.setLast new d) q heap) ∧
        ∀ a, a ≠ new → s.heap a = none → heap a = none := by
    rw [callerStep, busy_pc]
    cases last : s.q.last with
    | none =>
      have nobody : (busy s t (.link new d) q allocated).q.last = none := last
      refine ⟨allocated, ?_, kept⟩
      simp only [nobody, busy_goto]
    | some l =>
      obtain ⟨c, cell⟩ := last_live reach quiet last
      have apart : l ≠ new := by
        rintro rfl
        rw [fresh] at cell
        cases cell
      have before : (busy s t (.link new d) q allocated).q.last = some l := last
      have behind : (busy s t (.link new d) q allocated).heap l = some c :=
        (Function.update_of_ne apart ..).trans cell
      let joined := Function.update allocated l (some { c with next := some new })
      refine ⟨joined, ?_, fun a other dead => ?_⟩
      · simp only [before, behind]
        exact congrArg some (busy_goto s t _ q joined _)
      · have elsewhere : a ≠ l := by
          rintro rfl
          rw [dead] at cell
          cases cell
        exact (Function.update_of_ne elsewhere ..).trans (kept a other dead)
  obtain ⟨first, leaves⟩ := push_leaves quiet.consumer t d new q heap
  have enters : (queueSystem T D).run s (.push t d :: List.replicate 3 (.next t (some new))) =
      some (busy s t (.link new d) q allocated) := push_enters quiet fresh
  have linked : (queueSystem T D).step (busy s t (.link new d) q allocated)
      (.next t (some new)) = some (busy s t (.setLast new d) q heap) := links
  have parts : wholePush t d new = (Label.push t d :: List.replicate 3 (.next t (some new))) ++
      Label.next t (some new) :: List.replicate 5 (.next t (some new)) := rfl
  refine ⟨pushed s t d ⟨none, first, some new, q.nElements + 1, q.terminate⟩ heap, ?_,
    ⟨rfl, quiet.terminate, fun u => ?_, quiet.consumer⟩, rfl, rfl, dead⟩
  · rw [parts, System.run_append, enters, Option.bind_some, System.run, linked, Option.bind_some,
      leaves]
  · by_cases mine : u = t
    · subst mine
      simp [pushed]
    · simp [pushed, mine, quiet.idle u]

/-- Any number of pushes can be accepted before the first pop. By induction on their number: the
next node is at a fresh address. -/
theorem many_pushes (t : T) (d : D) (n : Nat) :
    ∃ s : State T D, (queueSystem T D).Reach System.anyStep s ∧ Quiet s ∧ s.accepted.length = n ∧
      s.popped = [] ∧ ∀ a, n ≤ a → s.heap a = none := by
  induction n with
  | zero =>
    exact ⟨(queueSystem T D).init, System.Path.refl _, ⟨rfl, rfl, fun _ => rfl, rfl⟩, rfl, rfl,
      fun _ _ => rfl⟩
  | succ n ih =>
    obtain ⟨s, reach, quiet, length, popped, fresh⟩ := ih
    obtain ⟨s', goes, quiet', accepted, popped', kept⟩ :=
      quiet_push reach quiet t d (fresh n (Nat.le_refl n))
    refine ⟨s', reach.trans (System.path_of_run _ (fun _ _ _ => trivial) goes), quiet', ?_, ?_, ?_⟩
    · rw [accepted, List.length_append, length, List.length_singleton]
    · rw [popped', popped]
    · intro a above
      exact kept a (Nat.ne_of_gt above) (fresh a (Nat.le_of_succ_le above))

theorem quiet_terminate (quiet : Quiet s) (t : T) :
    (queueSystem T D).run s (.terminate t :: List.replicate 4 (.next t none)) =
      some (busy s t .idle { s.q with terminate := true } s.heap) := by
  let held : QueueVars T := { s.q with lock := some (.caller t) }
  have calls : Queue.step s (.terminate t) = some (busy s t .lockTerminate s.q s.heap) := by
    rw [Queue.step, quiet.idle t]
    rfl
  have locks : callerStep (busy s t .lockTerminate s.q s.heap) t none =
      some (busy s t .setTerminate held s.heap) := by
    rw [callerStep, busy_pc]
    exact (if_pos quiet.lock).trans (congrArg some (busy_goto s t _ held s.heap _))
  have sets : callerStep (busy s t .setTerminate held s.heap) t none =
      some (busy s t .unlockTerminate { held with terminate := true } s.heap) := by
    rw [callerStep, busy_pc]
    exact congrArg some (busy_goto s t _ { held with terminate := true } s.heap _)
  let closed : QueueVars T := { s.q with terminate := true }
  have unlocks : callerStep (busy s t .unlockTerminate { held with terminate := true } s.heap) t
      none = some (busy s t .signalTerminate closed s.heap) := by
    have free : ({ held with terminate := true, lock := none } : QueueVars T) = closed := by
      simp only [held, closed, ← quiet.lock]
    rw [callerStep, busy_pc, ← free]
    exact congrArg some
      (busy_goto s t _ { held with terminate := true, lock := none } s.heap _)
  have signals : callerStep (busy s t .signalTerminate closed s.heap) t none =
      some (busy s t .idle closed s.heap) := by
    let last := busy s t .signalTerminate closed s.heap
    have nobody : last.signal = last := by
      rw [State.signal, show last.consumer = .outside from quiet.consumer]
    rw [callerStep, busy_pc]
    exact congrArg some ((congrArg (State.goto · t .idle) nobody).trans
      (busy_goto s t _ closed s.heap _))
  simp only [List.replicate, System.run, queueSystem, Queue.step] at calls ⊢
  simp only [calls, locks, sets, unlocks, signals, Option.bind_some, closed]

theorem null_pops (lock : s.q.lock = none) (terminate : s.q.terminate = true)
    (zero : s.q.nElements = 0) (outside : s.consumer = .outside) :
    ∃ s', (queueSystem T D).run s (.pop :: List.replicate 4 .consume) = some s' ∧
      s'.consumer = .ended ∧ s'.accepted = s.accepted ∧ s'.popped = s.popped := by
  simp only [System.run, queueSystem, Queue.step, List.replicate, outside]
  simp [popStep, lock, terminate, zero]

theorem quiet_null (quiet : Quiet s) (zero : s.q.nElements = 0) (t : T) :
    ∃ s', (queueSystem T D).run s
        (.terminate t :: List.replicate 4 (.next t none) ++ .pop :: List.replicate 4 .consume) =
          some s' ∧ s'.consumer = .ended ∧ s'.accepted = s.accepted ∧ s'.popped = s.popped := by
  let closed := busy s t .idle { s.q with terminate := true } s.heap
  have terminates : (queueSystem T D).run s (.terminate t :: List.replicate 4 (.next t none)) =
      some closed := quiet_terminate quiet t
  have outside : closed.consumer = .outside := quiet.consumer
  obtain ⟨s', pops, ended, accepted, popped⟩ := null_pops (s := closed) quiet.lock rfl zero outside
  refine ⟨s', ?_, ended, accepted, popped⟩
  rw [System.run_append, terminates, Option.bind_some, pops]

end QuietCalls

end

private def drainedRun {T : Type u} {D : Type v} (t : T) (d : D) (new : Addr) :
    List (Label T D) :=
  wholePush t d new ++ Label.pop :: List.replicate 10 Label.consume ++
    Label.terminate t :: List.replicate 4 (Label.next t none) ++
    Label.pop :: List.replicate 4 Label.consume

theorem queue_fifo_drained :
    ∃ s : State Unit Nat, (s.consumer, s.popped) = (.ended, [7]) ∧ Fifo s := by
  have reached : ∃ s : State Unit Nat, (queueSystem Unit Nat).Reach counts s ∧
      (s.consumer, s.popped) = (.ended, [7]) :=
    System.reach_of_guardedRun (fun s : State Unit Nat => (s.consumer, s.popped)) _
      (drainedRun () 7 3) (by decide)
  obtain ⟨s, reach, seen⟩ := reached
  exact ⟨s, seen, queue_fifo reach⟩

/-- With 2^32 elements queued the counter is 0, and `queue_pop` returns `NULL` without having
returned one of them. -/
theorem counter_wraps : ∃ s : State Unit Unit, (queueSystem Unit Unit).Reach System.anyStep s ∧
    s.consumer = .ended ∧ s.accepted.length = UInt32.size ∧ s.popped = [] ∧ ¬ Fifo s := by
  obtain ⟨s, reach, quiet, length, popped, _⟩ := many_pushes () () UInt32.size
  obtain ⟨own, chain, inv⟩ := inv_of_reach reach
  have zero : s.q.nElements = 0 := by
    have size : chain.length = UInt32.size := by
      have contents := congrArg List.length inv.contents
      rw [quiet.consumer, popped] at contents
      simpa [inHand, taken, length] using contents.symm
    rw [inv.fits.count, shape_count, size]
    rfl
  obtain ⟨s', goes, ended, accepted, popped'⟩ := quiet_null quiet zero ()
  have reach' := System.Path.trans reach (System.path_of_run _ (fun _ _ _ => trivial) goes)
  refine ⟨s', reach', ended, by rw [accepted, length], by rw [popped', popped], fun fifo => ?_⟩
  have all := (fifo.null ended).2
  rw [popped', popped, accepted] at all
  have none_left : s.accepted = [] := by simpa using all.symm
  rw [none_left] at length
  cases length

end DistributedClipboard.Thread.QueueFifo
