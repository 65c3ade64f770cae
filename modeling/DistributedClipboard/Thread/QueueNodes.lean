/- module: DistributedClipboard/Thread/QueueNodes
   source: src/src/thread/queue.c
   layer: results
   digest: Every node of the queue is accounted for, and all are freed in the end. -/

import DistributedClipboard.Lib.Counting
import DistributedClipboard.Lib.Heap
import DistributedClipboard.Thread.QueueFifo

set_option autoImplicit false
set_option relaxedAutoImplicit false

namespace DistributedClipboard.Thread.QueueNodes

open DistributedClipboard.Lib.Counting
open DistributedClipboard.Lib.Heap
open DistributedClipboard.Lib.Linked
open DistributedClipboard.Lib.Transition
open DistributedClipboard.Thread.Queue
open DistributedClipboard.Thread.QueueFifo (counts null_of_ended)
open DistributedClipboard.Thread.QueueLocks
open DistributedClipboard.Thread.QueueMemory

universe u v

section

variable {T : Type u} [Fintype T] {D : Type v} {s s' : State T D} {t : T} {a : Addr} {d : D}

def pushing (x : Caller D) : Bool := (node x.pc).isSome

def Balanced (s : State T D) : Prop :=
  ∃ live, Live s.heap live ∧
    live.card + s.popped.length = count pushing s.threads + s.accepted.length

theorem Balanced.same (h : Balanced s) (heap : s'.heap = s.heap)
    (threads : count pushing s'.threads = count pushing s.threads)
    (accepted : s'.accepted = s.accepted) (popped : s'.popped = s.popped) : Balanced s' := by
  unfold Balanced
  rw [heap, threads, accepted, popped]
  exact h

variable [DecidableEq T]

theorem count_same {x : Caller D} (same : pushing x = pushing (s.threads t)) :
    count pushing (Function.update s.threads t x) = count pushing s.threads := by
  have moved := count_update pushing s.threads t x
  rw [same] at moved
  omega

theorem count_gains {x : Caller D} (before : pushing (s.threads t) = false)
    (after : pushing x = true) :
    count pushing (Function.update s.threads t x) = count pushing s.threads + 1 := by
  have moved := count_update pushing s.threads t x
  rw [before, after] at moved
  exact moved

theorem count_loses {x : Caller D} (before : pushing (s.threads t) = true)
    (after : pushing x = false) :
    count pushing (Function.update s.threads t x) + 1 = count pushing s.threads := by
  have moved := count_update pushing s.threads t x
  rw [before, after] at moved
  exact moved

omit [DecidableEq T] [Fintype T] in
@[simp] theorem signal_heap : s.signal.heap = s.heap := by
  unfold State.signal
  split <;> rfl

attribute [local simp] State.setThread State.goto State.ret State.setCell State.fail State.setLock
  State.popGoto

theorem Balanced.callerStep {own : Addr → Owner T} {chain : List (Addr × D)} {new : Option Addr}
    (h : Balanced s) (inv : Inv own chain s) (sound : s'.fault = false)
    (edge : callerStep s t new = some s') : Balanced s' := by
  have ⟨live, cells, balance⟩ := h
  unfold Queue.callerStep at edge
  cases hpc : (s.threads t).pc <;> simp only [hpc] at edge
  case idle => cases edge
  case malloc d =>
    split at edge
    · cases edge
      exact h.same rfl (count_same (by simp [pushing, node, hpc])) rfl rfl
    · split at edge <;> cases edge
      rename_i a fresh
      obtain ⟨cells', more⟩ := cells.malloc (c := ⟨none, d⟩) fresh
      refine ⟨_, cells', ?_⟩
      have gained := count_gains (s := s) (t := t) (x := { s.threads t with pc := .lock a d })
        (by simp [pushing, node, hpc]) rfl
      simp only [State.goto, State.setThread, State.setCell] at gained ⊢
      omega
  case reject a d =>
    have alive : s.heap a ≠ none := by
      rw [(inv.pushed t a d (by rw [hpc]; rfl)).2]
      simp
    have freed : s.free a = s.setCell a none := by
      rw [State.free, if_pos (Option.isSome_iff_ne_none.mpr alive)]
    rw [freed] at edge
    cases edge
    obtain ⟨cells', less⟩ := cells.free alive
    refine ⟨_, cells', ?_⟩
    have lost := count_loses (s := s) (t := t)
      (x := ⟨.idle, (s.threads t).returned ++ [(d, -1)]⟩) (by simp [pushing, node, hpc]) rfl
    simp only [State.ret, State.setThread, State.setCell] at lost ⊢
    omega
  case link a d =>
    split at edge
    · cases edge
      exact h.same rfl (count_same (by simp [pushing, node, hpc])) rfl rfl
    · split at edge <;> cases edge
      · cases sound
      · rename_i cell
        have same := count_same (s := s) (t := t) (x := { s.threads t with pc := .setLast a d })
          (by simp [pushing, node, hpc])
        exact ⟨live, cells.write (by rw [cell]; simp), by
          simpa only [State.goto, State.setThread, State.setCell, same] using balance⟩
  case count a d =>
    cases edge
    refine ⟨live, cells, ?_⟩
    have lost := count_loses (s := s) (t := t) (x := { s.threads t with pc := .unlock d })
      (by simp [pushing, node, hpc]) rfl
    simp only [State.goto, State.setThread, List.length_append, List.length_singleton] at lost ⊢
    omega
  case signal d | signalTerminate =>
    cases edge
    refine h.same (by simp) ?_ (by simp) (by simp)
    simp only [State.ret, State.goto, State.setThread, signal_threads]
    exact count_same (by simp [pushing, node, hpc])
  all_goals
    (repeat' split at edge) <;> cases edge <;>
      exact h.same rfl (count_same (by simp [pushing, node, hpc])) rfl rfl

omit [DecidableEq T] in
theorem Balanced.popStep {own : Addr → Owner T} {chain : List (Addr × D)} (h : Balanced s)
    (inv : Inv own chain s) (edge : popStep s = some s') : Balanced s' := by
  have ⟨live, cells, balance⟩ := h
  unfold Queue.popStep at edge
  cases hpc : s.consumer <;> simp only [hpc] at edge
  case free aux d =>
    have alive : s.heap aux ≠ none := by
      intro none_
      have cell := inv.popper.read aux d hpc
      rw [none_] at cell
      cases cell
    have freed : s.free aux = s.setCell aux none := by
      rw [State.free, if_pos (Option.isSome_iff_ne_none.mpr alive)]
    rw [freed] at edge
    cases edge
    obtain ⟨cells', less⟩ := cells.free alive
    refine ⟨_, cells', ?_⟩
    simp only [State.popGoto, State.setCell, List.length_append, List.length_singleton]
    omega
  all_goals
    (repeat' split at edge) <;> cases edge <;> exact h.same rfl rfl rfl rfl

theorem Balanced.step {own : Addr → Owner T} {chain : List (Addr × D)} {a : Label T D}
    (h : Balanced s) (inv : Inv own chain s) (sound : s'.fault = false)
    (edge : Queue.step s a = some s') : Balanced s' := by
  cases a with
  | next t new => exact h.callerStep inv sound edge
  | consume => exact h.popStep inv edge
  | push t d | terminate t =>
    simp only [Queue.step] at edge
    split at edge <;> cases edge
    rename_i idle
    exact h.same rfl (count_same (by simp [pushing, node, idle])) rfl rfl
  | pop | wake =>
    simp only [Queue.step] at edge
    split at edge <;> cases edge
    exact h.same rfl rfl rfl rfl

theorem balanced_of_reach {ok : State T D → Label T D → Prop}
    (h : (queueSystem T D).Reach ok s) : Balanced s := by
  have start : Balanced (queueSystem T D).init := by
    refine ⟨∅, live_empty, ?_⟩
    have none_ : count pushing (queueSystem T D).init.threads = 0 := count_eq_zero_iff.mpr fun _ => rfl
    rw [none_]
    rfl
  refine (h.invariant_of (I := fun s => Balanced s ∧ ∃ own chain, Inv own chain s)
    (fun t reach => locks_of_reach reach) ⟨start, _, _, inv_init⟩ ?_).1
  rintro s a s' locks ⟨balanced, own, chain, inv⟩ _ edge
  obtain ⟨own', chain', inv', _⟩ := inv.step locks edge
  exact ⟨balanced.step inv inv'.fault edge, own', chain', inv'⟩

section Sets

variable {own : Addr → Owner T} {chain : List (Addr × D)}

/-- The node that the consumer has unlinked and not yet freed. -/
def held (s : State T D) : List (Addr × D) :=
  ((taken s.consumer).bind fun a => (s.heap a).map fun c => (a, c.data)).toList

omit [Fintype T] [DecidableEq T] in
theorem held_data : (held s).map Prod.snd = inHand s.heap s.consumer := by
  rw [held, inHand]
  cases taken s.consumer with
  | none => rfl
  | some a => cases cell : s.heap a <;> simp [cell]

omit [Fintype T] [DecidableEq T] in
theorem mem_held {x : Addr × D} (mine : x ∈ held s) :
    taken s.consumer = some x.1 ∧ (s.heap x.1).map Cell.data = some x.2 := by
  rw [held, Option.mem_toList] at mine
  obtain ⟨a, here, cell⟩ := Option.bind_eq_some_iff.mp mine
  obtain ⟨c, read, rfl⟩ := Option.map_eq_some_iff.mp cell
  exact ⟨here, congrArg (Option.map Cell.data) read⟩

/-- These are the nodes whose values are still to be returned, in their order, and none of them is one
of a push in progress. -/
structure Waiting (waiting : List (Addr × D)) (s : State T D) : Prop where
  nodup : (waiting.map Prod.fst).Nodup
  values : s.accepted.map Prod.snd = s.popped ++ waiting.map Prod.snd
  cells : ∀ x ∈ waiting, (s.heap x.1).map Cell.data = some x.2
  others : ∀ t a d, node (s.threads t).pc = some (a, d) → a ∉ waiting.map Prod.fst

omit [Fintype T] [DecidableEq T] in
theorem linked_or_front (inv : Inv own chain s) {x : Addr × D} (mine : x ∈ chain) :
    x ∈ (shape s chain).linked ∨ (s.heap x.1).map Cell.data = some x.2 := by
  have pushed (pc : Pc D) : x ∈ (pushShape chain pc).linked := by
    have some_ : chain.isEmpty = false := by
      rw [List.isEmpty_eq_false_iff]
      exact List.ne_nil_of_mem mine
    cases pc <;> simp [pushShape, whole, joined, some_, mine]
  rw [shape]
  split
  · exact .inl mine
  · exact .inl (pushed _)
  · rcases front : fronted s.consumer with _ | a
    · left
      cases pc : s.consumer <;> rw [pc] at front <;>
        first
          | exact mine
          | cases front
    · obtain ⟨d, rest, rfl, cell⟩ := inv.popper.front a front
      rcases List.mem_cons.mp mine with rfl | behind
      · exact .inr cell
      · left
        cases pc : s.consumer <;> first | exact behind | exact mine

omit [Fintype T] [DecidableEq T] in
theorem chain_data (inv : Inv own chain s) {x : Addr × D} (mine : x ∈ chain) :
    (s.heap x.1).map Cell.data = some x.2 := by
  rcases linked_or_front inv mine with linked | here
  · obtain ⟨next, cell⟩ := inv.fits.linked.live linked
    rw [cell]
    rfl
  · exact here

omit [Fintype T] [DecidableEq T] in
theorem waiting_of_inv (inv : Inv own chain s) : Waiting (held s ++ chain) s := by
  have apart {x : Addr × D} (mine : x ∈ held s) : own x.1 = .consumer :=
    inv.popper.taken x.1 (mem_held mine).1
  constructor
  case nodup =>
    have once : ((held s).map Prod.fst).Nodup := by
      rw [held]
      cases (taken s.consumer).bind fun a => (s.heap a).map fun c => (a, c.data) <;> simp
    rw [List.map_append]
    refine once.append inv.nodup fun a mine yours => ?_
    obtain ⟨x, held, rfl⟩ := List.mem_map.mp mine
    obtain ⟨y, queued, same⟩ := List.mem_map.mp yours
    have here := inv.queued y queued
    rw [same, apart held] at here
    cases here
  case values =>
    rw [List.map_append, held_data, ← List.append_assoc, inv.contents]
  case cells =>
    intro x mine
    rcases List.mem_append.mp mine with hand | queued
    · exact (mem_held hand).2
    · exact chain_data inv queued
  case others =>
    intro t a d pushing mine
    have mineToo := (inv.pushed t a d pushing).1
    obtain ⟨x, member, rfl⟩ := List.mem_map.mp mine
    rcases List.mem_append.mp member with hand | queued
    · cases (apart hand).symm.trans mineToo
    · cases (inv.queued x queued).symm.trans mineToo

omit [DecidableEq T] in
theorem live_iff (balanced : Balanced s) (inv : Inv own chain s) {waiting : List (Addr × D)}
    (waits : Waiting waiting s) (a : Addr) : s.heap a ≠ none ↔
      (∃ t d, node (s.threads t).pc = some (a, d)) ∨ a ∈ waiting.map Prod.fst := by
  obtain ⟨live, cells, balance⟩ := balanced
  let pushers : Finset Addr := Finset.univ.biUnion fun t =>
    ((node (s.threads t).pc).map Prod.fst).toFinset
  let values : Finset Addr := (waiting.map Prod.fst).toFinset
  have mem_pushers (a : Addr) : a ∈ pushers ↔ ∃ t d, node (s.threads t).pc = some (a, d) := by
    simp [pushers]
  have all : (pushers ∪ values).card = live.card := by
    have apart : Disjoint pushers values := by
      rw [Finset.disjoint_left]
      intro a mine yours
      obtain ⟨t, d, pushing⟩ := (mem_pushers a).mp mine
      exact waits.others t a d pushing (List.mem_toFinset.mp yours)
    have first : pushers.card = count pushing s.threads := by
      rw [count_eq_card, Finset.card_filter, Finset.card_biUnion]
      · refine Finset.sum_congr rfl fun t _ => ?_
        cases at_ : node (s.threads t).pc <;> simp [pushing, at_]
      · intro t _ u _ other
        rw [Function.onFun, Finset.disjoint_left]
        intro a mine yours
        simp only [Option.mem_toFinset, Option.mem_def, Option.map_eq_some_iff] at mine yours
        obtain ⟨⟨_, d⟩, mine, rfl⟩ := mine
        obtain ⟨⟨_, e⟩, yours, rfl⟩ := yours
        have same := (inv.pushed t _ d mine).1.symm.trans (inv.pushed u _ e yours).1
        exact other (Owner.caller.inj same)
    have second : values.card = waiting.length := by
      rw [List.toFinset_card_of_nodup waits.nodup, List.length_map]
    have sizes := congrArg List.length waits.values
    rw [List.length_map, List.length_append, List.length_map] at sizes
    rw [Finset.card_union_of_disjoint apart, first, second]
    omega
  have part : pushers ∪ values ⊆ live := by
    intro a mine
    rw [cells a]
    rcases Finset.mem_union.mp mine with push | value
    · obtain ⟨t, d, pushing⟩ := (mem_pushers a).mp push
      rw [(inv.pushed t a d pushing).2]
      exact Option.some_ne_none _
    · obtain ⟨x, member, rfl⟩ := List.mem_map.mp (List.mem_toFinset.mp value)
      intro none_
      have cell := waits.cells x member
      rw [none_] at cell
      cases cell
  rw [← cells a, ← Finset.eq_of_subset_of_card_le part (by omega), Finset.mem_union, mem_pushers,
    List.mem_toFinset]

end Sets

end

private def emptied {T : Type u} {D : Type v} (t : T) (d e : D) : List (Label T D) :=
  Label.push t d :: List.replicate 9 (Label.next t (some 3)) ++
    Label.push t e :: List.replicate 9 (Label.next t (some 5)) ++
    Label.terminate t :: List.replicate 4 (Label.next t none) ++
    (Label.pop :: List.replicate 10 Label.consume) ++ (Label.pop :: List.replicate 10 Label.consume) ++
    Label.pop :: List.replicate 4 Label.consume

end DistributedClipboard.Thread.QueueNodes
