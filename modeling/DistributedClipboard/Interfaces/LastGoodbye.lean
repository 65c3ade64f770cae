/- module: DistributedClipboard/Interfaces/LastGoodbye
   source: src/src/interfaces/clipif.c, src/src/thread/queue.c
   layer: theorem
   digest: The goodbye is written last on every link, if nothing is queued before it is taken. -/

import DistributedClipboard.Interfaces.BroadcastHeap

set_option autoImplicit false
set_option relaxedAutoImplicit false

namespace DistributedClipboard.Interfaces.LastGoodbye

open DistributedClipboard.Common
open DistributedClipboard.Interfaces.BroadcastHeap
open DistributedClipboard.Interfaces.Broadcasts
open DistributedClipboard.Interfaces.BroadcastSteps
open DistributedClipboard.Interfaces.LinkCodec (sendSize goodbye)
open DistributedClipboard.Interfaces.Links (sendTurn)
open DistributedClipboard.Interfaces.Tables (Fd Slot)
open DistributedClipboard.Lib.Transition
open DistributedClipboard.Utils.Packet

universe u

variable {T : Type u}

def taken (s : State T) : Prop := ∀ msg ∈ s.broadcasts, s.goodbye ≠ some msg.number

/-- The broadcaster has finished with the goodbye packet, if there is one. -/
def finished (s : State T) : Prop := ∀ msg ∈ pending s, s.goodbye ≠ some msg.number

/-- From `queue_push` of the goodbye packet until `queue_terminate` has been called and the
broadcaster has taken the packet, no slave and no clock thread with memory for its node calls
`queue_push`. -/
def undisturbed (s : State T) : Label T → Prop
  | .broadcast _ room => Granted room → s.goodbye ≠ none → s.terminate = true ∧ taken s
  | .clock _ room =>
    s.clock = .broadcast → Granted room → s.goodbye ≠ none → s.terminate = true ∧ taken s
  | _ => True

/-- No `send` of the goodbye packet fails. -/
def delivered (s : State T) : Label T → Prop
  | .broadcaster none =>
    match s.broadcaster with
    | .send msg _ _ 0 => s.goodbye ≠ some msg.number
    | _ => True
  | _ => True

/-- The broadcaster goes on and no `send` fails. -/
def alone (_ : State T) : Label T → Prop
  | .broadcaster (some _) => True
  | _ => False

def Numbered (s : State T) : Prop :=
  ∃ first, (pending s).map (·.number) = List.range' first (pending s).length ∧
    first + (pending s).length = s.accepted.length

structure Order (s : State T) : Prop where
  numbered : Numbered s
  written : ∀ k, ∀ w ∈ s.wire k, w.number < s.accepted.length ∧
    ∀ msg ∈ pending s, w.number ≤ msg.number
  sorted : ∀ k, (s.wire k).Pairwise (·.number ≤ ·.number)
  called : ∀ k, ∀ n ∈ s.calls k, n < s.accepted.length
  ended : s.broadcaster = .ended → s.broadcasts = [] ∧ s.terminate = true

/-- A slot with a connection has its descriptor, and the slot that the broadcaster sends to has a
connection. -/
structure Wired (s : State T) : Prop where
  valid : ∀ i fd k, s.connections i = some (fd, k) → 0 < fd
  sends : ∀ i, sending s i = true → ∃ fd k, s.connections i = some (fd, k)

/-- The lock of the queue is kept only when the queue is terminated and the goodbye packet has been
taken from it. -/
structure Unlocked (s : State T) : Prop where
  early : preparing s.finalize = true → s.terminate = false ∧ s.goodbye = none
  kept : s.locked = true → s.terminate = true ∧ taken s

variable {s s' : State T}

theorem Numbered.keep (h : Numbered s) (accepted : s'.accepted = s.accepted)
    (queue : pending s' = pending s ∨ ∃ msg, pending s = msg :: pending s') : Numbered s' := by
  obtain ⟨first, numbers, total⟩ := h
  obtain same | ⟨msg, done⟩ := queue
  · exact ⟨first, by rw [same, numbers], by rw [same, accepted, total]⟩
  · rw [done, List.map_cons, List.length_cons, List.range'_succ] at numbers
    rw [done, List.length_cons] at total
    exact ⟨first + 1, (List.cons.inj numbers).2, by rw [accepted]; omega⟩

theorem Numbered.accept {place : Place} {fromFd : Int} {bytes : List UInt8} (h : Numbered s)
    (accepted : s'.accepted = s.accepted ++ [bytes])
    (queue : pending s' = pending s ++ [⟨place, fromFd, s.accepted.length⟩]) : Numbered s' := by
  obtain ⟨first, numbers, total⟩ := h
  refine ⟨first, ?_, ?_⟩
  · rw [queue, List.map_append, numbers, List.length_append, List.length_singleton,
      List.range'_concat, List.map_singleton, Nat.one_mul, total]
  · rw [queue, accepted, List.length_append, List.length_append, List.length_singleton,
      List.length_singleton]
    omega

theorem Numbered.last {msg : Entry} {queue : List Entry} (h : Numbered s)
    (entries : pending s = msg :: queue) :
    (∃ last ∈ msg :: queue, last.number + 1 = s.accepted.length) := by
  obtain ⟨first, numbers, total⟩ := h
  rw [entries] at numbers total
  have member : first + queue.length ∈ List.range' first (msg :: queue).length := by
    rw [List.mem_range'_1, List.length_cons]
    omega
  rw [← numbers, List.mem_map] at member
  obtain ⟨last, member, number⟩ := member
  rw [List.length_cons] at total
  exact ⟨last, member, by omega⟩

variable [DecidableEq T] {verbose : Bool}

theorem Order.broadcaster {ret : Option Nat} (heap : HeapInv s) (h : Order s)
    (change : Change s (.broadcaster ret) s') : Order s' := by
  have frame := broadcasterFrame change
  have written : ∀ k, ∀ w ∈ s.wire k, w.number < s'.accepted.length ∧
      ∀ msg ∈ pending s', w.number ≤ msg.number := by
    intro k w member
    obtain ⟨before, order⟩ := h.written k w member
    exact ⟨frame.accepted ▸ before, fun msg later => order msg (frame.fewer.subset later)⟩
  have numbered := h.numbered.keep frame.accepted frame.queue
  have called : ∀ k, ∀ n ∈ s.calls k, n < s'.accepted.length := by
    rw [frame.accepted]
    exact h.called
  cases change with
  | ends _ pc queue closed =>
    exact ⟨numbered, written, h.sorted, called, fun _ => ⟨queue, closed⟩⟩
  | calls _ msg size i fd k pc there =>
    refine ⟨numbered, written, h.sorted, fun j n member => ?_, by simp⟩
    by_cases same : j = k
    · subst same
      simp only [Function.update_self, List.mem_append, List.mem_singleton] at member
      obtain before | rfl := member
      · exact h.called j n before
      · exact heap.bound msg (by simp [pending, pc, current])
    · simp only [Function.update_of_ne same] at member
      exact h.called j n member
  | writes _ msg size i start count fd k pc there fits =>
    have working : msg ∈ pending s := by
      rw [pending, pc]
      exact List.mem_cons_self
    refine ⟨numbered, fun j w member => ?_, fun j => ?_, called, by simp⟩
    · by_cases same : j = k
      · subst same
        simp only [Function.update_self, List.mem_append, List.mem_singleton] at member
        obtain before | rfl := member
        · exact written j w before
        · refine ⟨heap.bound msg working, fun other later => ?_⟩
          have numbers := heap.numbers
          have member := frame.fewer.subset later
          rw [pending, pc] at numbers member
          obtain rfl | behind := List.mem_cons.mp member
          · exact Nat.le_refl _
          · exact Nat.le_of_lt (List.rel_of_pairwise_cons numbers behind)
      · simp only [Function.update_of_ne same] at member
        exact written j w member
    · by_cases same : j = k
      · subst same
        simp only [Function.update_self]
        rw [List.pairwise_append]
        refine ⟨h.sorted j, List.pairwise_singleton _ _, fun w member v last => ?_⟩
        obtain rfl := List.mem_singleton.mp last
        exact (h.written j w member).2 msg working
      · simp only [Function.update_of_ne same]
        exact h.sorted j
  | pops | sizes | skips | passes | rounds | returns | releases | leaves =>
    exact ⟨numbered, written, h.sorted, called, by simp [State.broadcastGoto]⟩

theorem Order.step {label : Label T} (heap : HeapInv s) (h : Order s)
    (change : Change s label s') : Order s' := by
  by_cases broadcaster : ∃ ret, label = .broadcaster ret
  · obtain ⟨ret, rfl⟩ := broadcaster
    exact h.broadcaster heap change
  have frame := otherFrame change (not_exists.mp broadcaster)
  have sorted : ∀ k, (s'.wire k).Pairwise (·.number ≤ ·.number) := by
    rw [frame.wire]
    exact h.sorted
  have called : ∀ k, ∀ n ∈ s'.calls k, n < s'.accepted.length := by
    rw [frame.calls]
    obtain ⟨more, accepted⟩ := frame.accepted
    intro k n member
    rw [accepted, List.length_append]
    exact Nat.lt_add_right _ (h.called k n member)
  obtain ⟨accepted, queue⟩ | ⟨opened, place, fromFd, accepted, queue⟩ := frame.queue
  · have same : pending s' = pending s := by rw [pending, pending, queue, frame.broadcaster]
    refine ⟨h.numbered.keep accepted (.inl same), ?_, sorted, called, fun ended => ?_⟩
    · rw [frame.wire, accepted, same]
      exact h.written
    · rw [frame.broadcaster] at ended
      rw [queue]
      exact (h.ended ended).imp_right frame.terminate
  · have more : pending s' = pending s ++ [⟨place, fromFd, s.accepted.length⟩] := by
      rw [pending, pending, queue, frame.broadcaster, List.append_assoc]
    refine ⟨h.numbered.accept accepted more, fun k w member => ?_, sorted, called,
      fun ended => ?_⟩
    · rw [frame.wire] at member
      obtain ⟨before, order⟩ := h.written k w member
      rw [accepted, more, List.length_append, List.length_singleton]
      refine ⟨Nat.lt_succ_of_lt before, fun msg later => ?_⟩
      rw [List.mem_append] at later
      obtain old | last := later
      · exact order msg old
      · obtain rfl := List.mem_singleton.mp last
        exact Nat.le_of_lt before
    · rw [frame.broadcaster] at ended
      rw [(h.ended ended).2] at opened
      cases opened

omit [DecidableEq T] in
theorem sending_iff {i : Slot} :
    sending s i = true ↔ ∃ msg size start, s.broadcaster = .send msg size i start := by
  rw [sending]
  cases s.broadcaster with
  | send msg size j start =>
    constructor
    · intro same
      obtain rfl := of_decide_eq_true same
      exact ⟨msg, size, start, rfl⟩
    · rintro ⟨msg', size', start', same⟩
      cases same
      exact decide_eq_true rfl
  | pop | size | slot | free | ended => simp

theorem Wired.step {label : Label T} (h : Wired s) (change : Change s label s') : Wired s' := by
  cases change with
  | connect i fd idle free positive =>
    constructor
    · intro j fd' k there
      by_cases same : j = i
      · subst same
        simp only [Function.update_self, Option.some.injEq, Prod.mk.injEq] at there
        obtain ⟨rfl, rfl⟩ := there
        exact positive
      · simp only [Function.update_of_ne same] at there
        exact h.valid j fd' k there
    · intro j busy
      obtain ⟨fd', k, there⟩ := h.sends j busy
      have other : j ≠ i := by
        rintro rfl
        rw [free] at there
        cases there
      exact ⟨fd', k, by simp [other, there]⟩
  | disconnect i idle =>
    constructor
    · intro j fd k there
      by_cases same : j = i
      · subst same
        simp at there
      · simp only [Function.update_of_ne same] at there
        exact h.valid j fd k there
    · intro j busy
      obtain ⟨fd, k, there⟩ := h.sends j busy
      have other : j ≠ i := by
        rintro rfl
        rw [show sending s j = true from busy] at idle
        cases idle
      exact ⟨fd, k, by simp [other, there]⟩
  | calls _ msg size i fd k pc there =>
    refine ⟨h.valid, fun j busy => ?_⟩
    obtain ⟨msg', size', start, same⟩ := sending_iff.mp busy
    cases same
    exact ⟨fd, k, there⟩
  | writes _ msg size i start count fd k pc there =>
    refine ⟨h.valid, fun j busy => ?_⟩
    obtain ⟨msg', size', start', same⟩ := sending_iff.mp busy
    cases same
    exact ⟨fd, k, there⟩
  | pops | ends | sizes | skips | passes | rounds | returns | releases | leaves =>
    refine ⟨h.valid, fun j busy => ?_⟩
    obtain ⟨msg, size, start, same⟩ := sending_iff.mp busy
    cases same
  | _ => exact ⟨h.valid, h.sends⟩

omit [DecidableEq T] in
theorem Unlocked.fewer (h : Unlocked s) (finalize : s'.finalize = s.finalize)
    (terminate : s'.terminate = s.terminate) (goodbye : s'.goodbye = s.goodbye)
    (locked : s'.locked = s.locked) (queue : s'.broadcasts ⊆ s.broadcasts) : Unlocked s' := by
  constructor
  · rw [finalize, terminate, goodbye]
    exact h.early
  · rw [locked, terminate]
    intro now
    obtain ⟨closed, taken⟩ := h.kept now
    refine ⟨closed, fun msg member => ?_⟩
    rw [goodbye]
    exact taken msg (queue member)

omit [DecidableEq T] in
theorem Unlocked.refuse {room : Room} {locked : Bool} (h : Unlocked s)
    (ok : Granted room → s.goodbye ≠ none → s.terminate = true ∧ taken s)
    (kept : Keeps s room locked) (now : locked = true) : s.terminate = true ∧ taken s := by
  obtain before | ⟨closed, granted⟩ := kept now
  · exact h.kept before
  · by_cases bye : s.goodbye = none
    · refine ⟨closed, fun msg _ => ?_⟩
      rw [bye]
      simp
    · exact ok granted bye

omit [DecidableEq T] in
theorem Unlocked.opened (h : Unlocked s) (opened : s.terminate = false) : s.locked ≠ true := by
  intro locked
  rw [(h.kept locked).1] at opened
  cases opened

theorem Unlocked.step {label : Label T} (h : Unlocked s) (ok : undisturbed s label)
    (change : Change s label s') : Unlocked s' := by
  cases change with
  | pops _ msg rest pc queue =>
    refine h.fewer rfl rfl rfl rfl ?_
    rw [queue]
    exact List.subset_cons_self _ _
  | accepted _ _ sock a pc opened | clockAccepted _ _ pc opened =>
    exact ⟨h.early, fun locked => absurd locked (h.opened opened)⟩
  | refused t room sock a locked pc kept => exact ⟨h.early, h.refuse ok kept⟩
  | clockRefused now room locked pc kept => exact ⟨h.early, h.refuse (ok pc) kept⟩
  | prepares new room pc dead =>
    exact ⟨fun _ => h.early (by rw [pc]; rfl), fun locked => h.kept locked⟩
  | byeAccepted new room a pc opened =>
    exact ⟨fun no => (by cases no), fun locked => absurd locked (h.opened opened)⟩
  | byeRefused new room a locked pc kept =>
    refine ⟨fun no => (by cases no), fun now => ?_⟩
    have opened := (h.early (by rw [pc]; rfl)).1
    obtain before | closed := kept now
    · exact absurd before (h.opened opened)
    · rw [opened] at closed
      cases closed
  | finalizes new room root cancelClock terminate pc before after child closed =>
    refine ⟨fun no => ?_, fun locked => ?_⟩
    · rw [show preparing pc = true from no] at after
      cases after
    · obtain ⟨terminated, taken⟩ := h.kept locked
      exact ⟨closed terminated, taken⟩
  | _ => exact h.fewer rfl rfl rfl rfl fun _ => id

/-- The round of the goodbye packet has passed the slot. -/
def passed (s : State T) (bye : Nat) (i : Slot) : Prop :=
  (∀ msg ∈ s.broadcasts, msg.number ≠ bye) ∧
    match s.broadcaster with
    | .size msg => msg.number ≠ bye
    | .slot msg _ j => msg.number = bye → i.val < j
    | .send msg _ j _ => msg.number = bye → i.val ≤ j.val
    | _ => True

/-- The goodbye packet is the last that the queue has accepted, and each link that its round has
passed has been handed it last. -/
structure ByeInv (s : State T) (bye : Nat) : Prop where
  last : s.accepted.length = bye + 1
  packet : s.accepted[bye]? = some goodbye
  entry : ∀ msg ∈ pending s, msg.number = bye → msg.fromFd = 0
  closing : preparing s.finalize = false
  sized : ∀ msg size, (∃ i, s.broadcaster = .slot msg size i) ∨
    (∃ i start, s.broadcaster = .send msg size i start) → msg.number = bye → size = sendSize goodbye
  told : ∀ i fd k, s.connections i = some (fd, k) → passed s bye i →
    (s.calls k).getLast? = some bye

omit [DecidableEq T] in
theorem ByeInv.alone {bye : Nat} {msg : Entry} (order : Order s) (h : ByeInv s bye)
    (entries : pending s = msg :: s.broadcasts) (gone : ∀ msg ∈ s.broadcasts, msg.number ≠ bye) :
    msg.number = bye := by
  obtain ⟨last, member, number⟩ := order.numbered.last entries
  have total := h.last
  obtain rfl | behind := List.mem_cons.mp member
  · omega
  · exact absurd (by omega) (gone last behind)

omit [DecidableEq T] in
theorem ByeInv.read {bye : Nat} {msg : Entry} (heap : HeapInv s) (h : ByeInv s bye)
    (member : msg ∈ pending s) (number : msg.number = bye) : s.read msg.p = goodbye := by
  have fromFd := h.entry msg member number
  cases place : msg.p with
  | clock =>
    have clock := (heap.clock msg member).mp place
    omega
  | heap a =>
    have kept := heap.kept msg member a place
    rw [number, h.packet] at kept
    rw [State.read]
    change (cells s a).getD [] = goodbye
    rw [kept]
    rfl

theorem ByeInv.sized_broadcaster {bye : Nat} {ret : Option Nat} (heap : HeapInv s)
    (h : ByeInv s bye) (change : Change s (.broadcaster ret) s') (msg : Entry) (size : UInt32)
    (works : (∃ i, s'.broadcaster = .slot msg size i) ∨
      ∃ i start, s'.broadcaster = .send msg size i start)
    (number : msg.number = bye) : size = sendSize goodbye := by
  cases change with
  | sizes _ msg' pc =>
    obtain ⟨i, same⟩ | ⟨i, start, same⟩ := works
    · obtain ⟨rfl, rfl, -⟩ := BroadcastPc.slot.inj same
      rw [h.read heap (by simp [pending, pc, current]) number]
    · cases same
  | calls _ msg' size' i fd k pc =>
    obtain ⟨j, same⟩ | ⟨j, start, same⟩ := works
    · cases same
    · obtain ⟨rfl, rfl, -⟩ := BroadcastPc.send.inj same
      exact h.sized msg' size' (.inl ⟨i, pc⟩) number
  | passes _ msg' size' i pc =>
    obtain ⟨j, same⟩ | ⟨j, start, same⟩ := works
    · obtain ⟨rfl, rfl, -⟩ := BroadcastPc.slot.inj same
      exact h.sized msg' size' (.inl ⟨i, pc⟩) number
    · cases same
  | writes _ msg' size' i start count fd k pc =>
    obtain ⟨j, same⟩ | ⟨j, start', same⟩ := works
    · cases same
    · obtain ⟨rfl, rfl, -⟩ := BroadcastPc.send.inj same
      exact h.sized msg' size' (.inr ⟨i, start, pc⟩) number
  | returns _ msg' size' i start pc =>
    obtain ⟨j, same⟩ | ⟨j, start', same⟩ := works
    · obtain ⟨rfl, rfl, -⟩ := BroadcastPc.slot.inj same
      exact h.sized msg' size' (.inr ⟨i, start, pc⟩) number
    · cases same
  | pops | ends | skips | rounds | releases | leaves =>
    obtain ⟨i, same⟩ | ⟨i, start, same⟩ := works <;> cases same

theorem ByeInv.broadcaster {bye : Nat} {ret : Option Nat} (heap : HeapInv s) (order : Order s)
    (wired : Wired s) (h : ByeInv s bye) (change : Change s (.broadcaster ret) s') :
    ByeInv s' bye := by
  have frame := broadcasterFrame change
  have told := h.told
  have working : ∀ msg, current s.broadcaster = [msg] → pending s = msg :: s.broadcasts := by
    intro msg now
    rw [pending, now]
    rfl
  refine ⟨by rw [frame.accepted, h.last], by rw [frame.accepted, h.packet],
    fun msg member => h.entry msg (frame.fewer.subset member), by rw [frame.finalize, h.closing],
    h.sized_broadcaster heap change, ?_⟩
  cases change with
  | pops _ msg rest pc queue =>
    rintro i fd k there ⟨gone, other⟩
    refine told i fd k there ⟨?_, by rw [pc]; trivial⟩
    rw [queue]
    exact List.forall_mem_cons.mpr ⟨other, gone⟩
  | ends _ pc queue closed =>
    rintro i fd k there ⟨gone, -⟩
    exact told i fd k there ⟨gone, by rw [pc]; trivial⟩
  | sizes _ msg pc =>
    rintro i fd k there ⟨gone, before⟩
    exact told i fd k there ⟨gone, by rw [pc]; exact fun now => absurd (before now) (by omega)⟩
  | skips _ msg pc zero =>
    rintro i fd k there ⟨gone, -⟩
    refine told i fd k there ⟨gone, ?_⟩
    rw [pc]
    intro number
    have entries := working msg (by rw [pc]; rfl)
    rw [h.read heap (by simp [entries]) number] at zero
    exact absurd zero (by decide)
  | calls _ msg size i fd k pc there =>
    rintro j fd' k' there' ⟨gone, before⟩
    have number := h.alone order (working msg (by rw [pc]; rfl)) gone
    by_cases same : k' = k
    · subst same
      simp [number]
    · simp only [Function.update_of_ne same]
      refine told j fd' k' there' ⟨gone, ?_⟩
      rw [pc]
      intro _
      have upTo : j.val ≤ i.val := before number
      have other : j.val ≠ i.val := by
        intro equal
        obtain rfl := Fin.ext equal
        rw [there] at there'
        exact same (Prod.mk.inj (Option.some.inj there')).2.symm
      change j.val < i.val
      omega
  | passes _ msg size i pc not =>
    rintro j fd k there ⟨gone, before⟩
    have entries := working msg (by rw [pc]; rfl)
    have number := h.alone order entries gone
    refine told j fd k there ⟨gone, ?_⟩
    rw [pc]
    intro _
    have upTo : j.val < i.val + 1 := before number
    have other : j.val ≠ i.val := by
      intro equal
      obtain rfl := Fin.ext equal
      have fromFd := h.entry msg (by simp [entries]) number
      have positive := wired.valid j fd k there
      have zero := not fd k there
      rw [fromFd] at zero
      exact absurd (Int.natCast_eq_zero.mp zero) (Nat.pos_iff_ne_zero.mp positive)
    change j.val < i.val
    omega
  | rounds _ msg size i pc finished =>
    rintro j fd k there ⟨gone, -⟩
    refine told j fd k there ⟨gone, ?_⟩
    rw [pc]
    exact fun _ => Nat.lt_of_lt_of_le j.isLt finished
  | writes _ msg size i start count fd k pc there fits =>
    rintro j fd' k' there' ⟨gone, before⟩
    exact told j fd' k' there' ⟨gone, by rw [pc]; exact before⟩
  | returns _ msg size i start pc =>
    rintro j fd k there ⟨gone, before⟩
    refine told j fd k there ⟨gone, ?_⟩
    rw [pc]
    exact fun number => Nat.le_of_lt_succ (before number)
  | releases _ msg pc other =>
    rintro j fd k there ⟨gone, -⟩
    exact told j fd k there ⟨gone, by rw [pc]; trivial⟩
  | leaves _ msg pc clock =>
    rintro j fd k there ⟨gone, -⟩
    exact told j fd k there ⟨gone, by rw [pc]; trivial⟩

omit [DecidableEq T] in
theorem ByeInv.keep {bye : Nat} (h : ByeInv s bye) (accepted : s'.accepted = s.accepted)
    (queue : s'.broadcasts = s.broadcasts) (broadcaster : s'.broadcaster = s.broadcaster)
    (calls : s'.calls = s.calls) (closing : preparing s'.finalize = false)
    (fewer : ∀ i fd k, s'.connections i = some (fd, k) → s.connections i = some (fd, k)) :
    ByeInv s' bye := by
  refine ⟨by rw [accepted, h.last], by rw [accepted, h.packet], ?_, closing, ?_, ?_⟩
  · rw [pending, queue, broadcaster]
    exact h.entry
  · rw [broadcaster]
    exact h.sized
  · intro i fd k there passed
    rw [calls]
    rw [LastGoodbye.passed, queue, broadcaster] at passed
    exact h.told i fd k (fewer i fd k there) passed

def Prepared (s : State T) : Prop := ∀ a, s.finalize = .push a → cells s a = some goodbye

theorem Prepared.step {label : Label T} (heap : HeapInv s) (h : Prepared s)
    (change : Change s label s') : Prepared s' := by
  have mine : ∀ {a}, s.finalize = .push a → Owns s .finalizer a := by
    intro a pc
    rw [Owns, pc]
    rfl
  cases label with
  | broadcaster ret =>
    have frame := broadcasterFrame change
    intro a pc
    rw [frame.finalize] at pc
    obtain same | ⟨msg, first, heap', freed⟩ := frame.store
    · rw [cells, same]
      exact h a pc
    · rw [cells, freed, Function.update_of_ne]
      · exact h a pc
      · intro place
        have theirs : Owns s (.entry msg.number) a := ⟨msg, by simp [first], rfl, place.symm⟩
        exact heap.owned.apart (mine pc) theirs (by simp) rfl
  | receive t kind sock new bytes =>
    cases change with
    | fails => exact h
    | allocates _ _ _ b _ pc' dead =>
      intro a pc
      have other := heap.owned.fresh (a := b) dead (mine pc)
      change cells (s.setStore (.heap b) _) a = _
      rw [cells_heap, Function.update_of_ne other]
      exact h a pc
  | fill t bytes =>
    cases change with
    | fills _ _ kind sock b pc' =>
      intro a pc
      have theirs : Owns s (.slave t) b := by
        rw [Owns, pc']
        rfl
      have other := heap.owned.apart theirs (mine pc) (by simp)
      rw [cells_heap, Function.update_of_ne other]
      exact h a pc
  | free t =>
    cases change with
    | frees _ b pc' =>
      intro a pc
      have theirs : Owns s (.slave t) b := by
        rw [Owns, pc']
        rfl
      have other := heap.owned.apart theirs (mine pc) (by simp)
      change cells (s.setStore (.heap b) _) a = _
      rw [cells_heap, Function.update_of_ne other]
      exact h a pc
  | finalize new room =>
    cases change with
    | prepares _ _ pc' dead =>
      intro a pc
      obtain rfl := Finalize.push.inj pc
      change cells (s.setStore (.heap new) _) new = _
      rw [cells_heap, Function.update_self]
    | byeAccepted => exact fun a pc => by cases pc
    | byeRefused => exact fun a pc => by cases pc
    | finalizes _ _ root cancelClock terminate pc before after child closed =>
      intro a now
      change pc = .push a at now
      rw [now] at after
      cases after
  | short | complete | broadcast | clock | cancelClock | orphan | connect | disconnect =>
    cases change <;> exact h

def Closed (s : State T) : Prop := ∀ bye, s.goodbye = some bye → ByeInv s bye

theorem Closed.step {label : Label T} (heap : HeapInv s) (order : Order s) (wired : Wired s)
    (prepared : Prepared s) (h : Closed s) (ok : undisturbed s label)
    (change : Change s label s') : Closed s' := by
  intro bye now
  cases label with
  | broadcaster ret =>
    have frame := broadcasterFrame change
    exact (h bye (frame.goodbye ▸ now)).broadcaster heap order wired change
  | broadcast t room =>
    cases change with
    | accepted _ _ sock a pc opened granted =>
      rw [(ok granted (by simp [show s.goodbye = some bye from now])).1] at opened
      cases opened
    | refused => exact (h bye now).keep rfl rfl rfl rfl (h bye now).closing fun _ _ _ => id
  | clock time room =>
    cases change with
    | clockAccepted _ _ pc opened granted =>
      rw [(ok pc granted (by simp [show s.goodbye = some bye from now])).1] at opened
      cases opened
    | ticks | stamps | clockRefused =>
      exact (h bye now).keep rfl rfl rfl rfl (h bye now).closing fun _ _ _ => id
  | finalize new room =>
    cases change with
    | prepares _ _ pc dead =>
      have closing := (h bye now).closing
      rw [pc] at closing
      cases closing
    | byeAccepted _ _ a pc opened =>
      obtain rfl := Option.some.inj now
      have more := pending_accept s (.heap a) 0
      refine ⟨by simp [accept], ?_, fun msg member number => ?_, rfl, fun msg size works number => ?_,
        ?_⟩
      · have stored := prepared a pc
        rw [cells] at stored
        change (s.accepted ++ [s.read (.heap a)])[s.accepted.length]? = _
        rw [List.getElem?_append_right (Nat.le_refl _), Nat.sub_self, State.read, stored]
        rfl
      · change msg ∈ pending (accept s (.heap a) 0) at member
        rw [more, List.mem_append] at member
        obtain before | last := member
        · have bound := heap.bound msg before
          omega
        · obtain rfl := List.mem_singleton.mp last
          rfl
      · have member : msg ∈ pending s := by
          obtain ⟨i, same⟩ | ⟨i, start, same⟩ := works
          · simp [pending, show s.broadcaster = _ from same, current]
          · simp [pending, show s.broadcaster = _ from same, current]
        have bound := heap.bound msg member
        omega
      · rintro i fd k there ⟨gone, -⟩
        exact absurd rfl (gone ⟨.heap a, 0, s.accepted.length⟩ (by simp [accept]))
    | byeRefused => cases now
    | finalizes _ _ root cancelClock terminate pc before after child closed =>
      exact (h bye now).keep rfl rfl rfl rfl after fun _ _ _ => id
  | connect i fd =>
    cases change with
    | connect _ _ idle free positive =>
      have closing := (h bye now).closing
      rw [idle] at closing
      cases closing
  | disconnect i =>
    cases change with
    | disconnect =>
      refine (h bye now).keep rfl rfl rfl rfl (h bye now).closing fun j fd k there => ?_
      by_cases same : j = i
      · subst same
        simp at there
      · simpa [same] using there
  | receive | fill | short | complete | free | cancelClock | orphan =>
    cases change <;> exact (h bye now).keep rfl rfl rfl rfl (h bye now).closing fun _ _ _ => id

/-- The goodbye packet is on the link, whole. -/
def Written (s : State T) (bye k : Nat) : Prop := ⟨bye, 0, 1, goodbye⟩ ∈ s.wire k

/-- A link that has been handed the goodbye packet has it, unless it is just being sent. -/
def Delivered (s : State T) : Prop := ∀ bye, s.goodbye = some bye → ∀ k, bye ∈ s.calls k →
  Written s bye k ∨ ∃ msg size i fd, s.broadcaster = .send msg size i 0 ∧ msg.number = bye ∧
    s.connections i = some (fd, k)

theorem Delivered.broadcaster {bye : Nat} {ret : Option Nat} (heap : HeapInv s)
    (closed : ByeInv s bye) (h : Delivered s) (now : s.goodbye = some bye)
    (ok : delivered s (.broadcaster ret)) (change : Change s (.broadcaster ret) s') (k : Nat)
    (called : bye ∈ s'.calls k) :
    Written s' bye k ∨ ∃ msg size i fd, s'.broadcaster = .send msg size i 0 ∧ msg.number = bye ∧
      s'.connections i = some (fd, k) := by
  have elsewhere : (∀ msg size i, s.broadcaster ≠ .send msg size i 0) → bye ∈ s.calls k →
      Written s bye k := by
    intro other called
    obtain written | ⟨msg, size, i, fd, pc, -, -⟩ := h bye now k called
    · exact written
    · exact absurd pc (other msg size i)
  cases change with
  | calls _ msg size i fd j pc there =>
    by_cases same : k = j
    · subst same
      simp only [Function.update_self, List.mem_append, List.mem_singleton] at called
      obtain before | number := called
      · exact .inl (elsewhere (by simp [pc]) before)
      · exact .inr ⟨msg, size, i, fd, rfl, number.symm, there⟩
    · simp only [Function.update_of_ne same] at called
      exact .inl (elsewhere (by simp [pc]) called)
  | writes _ msg size i start count fd j pc there fits =>
    have kept : Written s bye k → ⟨bye, 0, 1, goodbye⟩ ∈ Function.update s.wire j (s.wire j ++
        [⟨msg.number, start, count, ((s.read msg.p).drop start).take count⟩]) k := by
      intro written
      by_cases same : k = j
      · subst same
        simp only [Function.update_self]
        exact List.mem_append_left _ written
      · simp only [Function.update_of_ne same]
        exact written
    obtain written | ⟨msg', size', i', fd', pc', number, there'⟩ := h bye now k called
    · exact .inl (kept written)
    · obtain ⟨rfl, rfl, rfl, rfl⟩ := BroadcastPc.send.inj (pc.symm.trans pc')
      obtain ⟨rfl, rfl⟩ := Prod.mk.inj (Option.some.inj (there.symm.trans there'))
      rw [Nat.zero_add] at fits ⊢
      by_cases none : count = 0
      · subst none
        exact .inr ⟨msg, size, i, fd, rfl, number, there⟩
      · refine .inl ?_
        have whole : size = sendSize goodbye := closed.sized msg size (.inr ⟨i, 0, pc⟩) number
        have one : toInt (sendSize goodbye).toNat = 1 := by decide
        rw [whole, one] at fits
        obtain rfl : count = 1 := by omega
        have read := closed.read heap (by simp [pending, pc, current]) number
        rw [Written]
        simp only [Function.update_self]
        rw [read, number]
        exact List.mem_append_right _ (List.mem_singleton_self _)
  | returns _ msg size i start pc stops =>
    obtain written | ⟨msg', size', i', fd, pc', number, there⟩ := h bye now k called
    · exact .inl written
    · obtain ⟨rfl, rfl, rfl, rfl⟩ := BroadcastPc.send.inj (pc.symm.trans pc')
      obtain rfl | finished := stops
      · rw [delivered, pc] at ok
        exact absurd (number ▸ now) ok
      · have whole : size = sendSize goodbye := closed.sized msg size (.inr ⟨i, 0, pc⟩) number
        rw [whole] at finished
        exact absurd finished (by decide)
  | pops _ msg rest pc | ends _ pc | sizes _ msg pc | skips _ msg pc | passes _ msg size i pc
  | rounds _ msg size i pc | releases _ msg pc | leaves _ msg pc =>
    exact .inl (elsewhere (by simp [pc]) called)

omit [DecidableEq T] in
theorem Delivered.keep (h : Delivered s) (goodbye : s'.goodbye = s.goodbye)
    (wire : s'.wire = s.wire) (calls : s'.calls = s.calls)
    (broadcaster : s'.broadcaster = s.broadcaster)
    (sent : ∀ i fd k, sending s i = true → s.connections i = some (fd, k) →
      s'.connections i = some (fd, k)) : Delivered s' := by
  intro bye now k called
  rw [calls] at called
  obtain written | ⟨msg, size, i, fd, pc, number, there⟩ := h bye (goodbye ▸ now) k called
  · refine .inl ?_
    rw [Written, wire]
    exact written
  · refine .inr ⟨msg, size, i, fd, by rw [broadcaster, pc], number, sent i fd k ?_ there⟩
    exact sending_iff.mpr ⟨msg, size, 0, pc⟩

theorem Delivered.step {label : Label T} (heap : HeapInv s) (order : Order s) (closed : Closed s)
    (h : Delivered s) (ok : delivered s label) (change : Change s label s') : Delivered s' := by
  cases label with
  | broadcaster ret =>
    have frame := broadcasterFrame change
    intro bye now k called
    have before : s.goodbye = some bye := frame.goodbye ▸ now
    exact h.broadcaster heap (closed bye before) before ok change k called
  | finalize new room =>
    cases change with
    | prepares | finalizes => exact h.keep rfl rfl rfl rfl fun _ _ _ _ => id
    | byeAccepted =>
      intro bye now k called
      obtain rfl := Option.some.inj now
      exact absurd (order.called k _ called) (Nat.lt_irrefl _)
    | byeRefused => exact fun bye now => by cases now
  | connect i fd =>
    cases change with
    | connect _ _ idle free positive =>
      refine h.keep rfl rfl rfl rfl fun j fd' k _ there => ?_
      have other : j ≠ i := by
        rintro rfl
        rw [free] at there
        cases there
      simp [other, there]
  | disconnect i =>
    cases change with
    | disconnect _ idle =>
      refine h.keep rfl rfl rfl rfl fun j fd k busy there => ?_
      have other : j ≠ i := by
        rintro rfl
        rw [busy] at idle
        cases idle
      simp [other, there]
  | receive | fill | short | complete | broadcast | free | clock | cancelClock | orphan =>
    cases change <;> exact h.keep rfl rfl rfl rfl fun _ _ _ _ => id

/-- Nothing is written behind the goodbye packet on a link, and when the broadcaster has finished
with it, each link that is left has been handed it last. -/
structure Farewell (s : State T) : Prop where
  last : ∀ k front w back, s.wire k = front ++ w :: back → s.goodbye = some w.number →
    ∀ v ∈ back, v.number = w.number
  told : finished s → ∀ bye, s.goodbye = some bye →
    ∀ i fd k, s.connections i = some (fd, k) → (s.calls k).getLast? = some bye

section Progress

def slotWork (i : Nat) : Nat := 3 * (maxClipboards - i) + 3

/-- The broadcaster's steps for what it has to do. -/
def work (s : State T) : Nat :=
  s.broadcasts.length * (slotWork 0 + 2) +
    match s.broadcaster with
    | .pop | .ended => 0
    | .size _ => slotWork 0 + 1
    | .slot _ _ i => slotWork i
    | .send _ size i start =>
      slotWork (i + 1) + if (start : Int) < toInt size.toNat then 2 else 1
    | .free _ => 1

omit [DecidableEq T] in
theorem slotWork_succ {i : Nat} (inside : i < maxClipboards) :
    slotWork i = slotWork (i + 1) + 3 := by
  rw [slotWork, slotWork]
  omega

omit [DecidableEq T] in
theorem work_lt (unlocked : s.locked = true → taken s) (order : Order s) (wired : Wired s) :
    finished s ∨ ∃ n t, clipifBroadcast s (some n) = some t ∧ work t < work s := by
  cases pc : s.broadcaster with
  | pop =>
    have queue : pending s = s.broadcasts := by rw [pending, pc]; rfl
    by_cases locked : s.locked = true
    · refine .inl ?_
      rw [finished, queue]
      exact unlocked locked
    · cases entries : s.broadcasts with
      | nil =>
        refine .inl ?_
        rw [finished, queue, entries]
        simp
      | cons msg rest =>
        refine .inr ⟨0, { s with broadcasts := rest, broadcaster := .size msg }, ?_, ?_⟩
        · simp [clipifBroadcast, pc, entries, locked]
        · simp only [work, pc, entries, List.length_cons, Nat.add_one_mul]
          omega
  | size msg =>
    refine .inr ?_
    by_cases skipped : sendSize (s.read msg.p) = 0
    · refine ⟨0, (s.use msg.p).broadcastGoto .pop, by simp [clipifBroadcast, pc, skipped], ?_⟩
      simp [work, pc, State.use, State.broadcastGoto]
    · refine ⟨0, (s.use msg.p).broadcastGoto (.slot msg (sendSize (s.read msg.p)) 0),
        by simp [clipifBroadcast, pc, skipped], ?_⟩
      simp [work, pc, State.use, State.broadcastGoto]
  | slot msg size i =>
    refine .inr ?_
    by_cases inside : i < maxClipboards
    · have next := slotWork_succ inside
      have pass : work (s.broadcastGoto (.slot msg size (i + 1))) < work s := by
        simp only [work, pc, State.broadcastGoto]
        omega
      cases there : s.connections ⟨i, inside⟩ with
      | none => exact ⟨0, _, by simp [clipifBroadcast, pc, inside, there], pass⟩
      | some connection =>
        obtain ⟨fd, k⟩ := connection
        by_cases same : (fd : Int) = msg.fromFd
        · exact ⟨0, _, by simp [clipifBroadcast, pc, inside, there, same], pass⟩
        · refine ⟨0, { s with
            broadcaster := .send msg size ⟨i, inside⟩ 0
            calls := Function.update s.calls k (s.calls k ++ [msg.number]) },
            by simp [clipifBroadcast, pc, inside, there, same], ?_⟩
          simp only [work, pc]
          split <;> omega
    · refine ⟨0, s.broadcastGoto (.free msg), by simp [clipifBroadcast, pc, inside], ?_⟩
      simp only [work, pc, State.broadcastGoto, slotWork]
      omega
  | send msg size i start =>
    refine .inr ?_
    obtain ⟨fd, k, there⟩ := wired.sends i (sending_iff.mpr ⟨msg, size, start, pc⟩)
    by_cases more : (start : Int) < toInt size.toNat
    · have turn : sendTurn (toInt size.toNat) start (some ((toInt size.toNat).toNat - start)) =
          some (.again (toInt size.toNat).toNat) := by
        have fits : (((toInt size.toNat).toNat - start : Nat) : Int) ≤ toInt size.toNat - start := by
          omega
        have all : start + ((toInt size.toNat).toNat - start) = (toInt size.toNat).toNat := by omega
        simp only [sendTurn, if_pos more, if_pos fits, all]
      have whole : ¬ ((toInt size.toNat).toNat : Int) < toInt size.toNat := by omega
      have goes : ∃ t, clipifBroadcast s (some ((toInt size.toNat).toNat - start)) = some t ∧
          t.broadcasts = s.broadcasts ∧
          t.broadcaster = .send msg size i (toInt size.toNat).toNat := by
        simp only [clipifBroadcast, pc, turn, there]
        exact ⟨_, rfl, rfl, rfl⟩
      obtain ⟨t, goes, queue, next⟩ := goes
      refine ⟨_, t, goes, ?_⟩
      simp only [work, pc, next, queue, if_neg whole, if_pos more]
      omega
    · refine ⟨0, s.broadcastGoto (.slot msg size (i + 1)),
        by simp [clipifBroadcast, pc, sendTurn, more], ?_⟩
      simp [work, pc, State.broadcastGoto, more]
  | free msg =>
    refine .inr ?_
    by_cases clock : msg.fromFd = -1
    · refine ⟨0, s.broadcastGoto .pop, by simp [clipifBroadcast, pc, clock], ?_⟩
      simp [work, pc, State.broadcastGoto]
    · refine ⟨0, ((s.use msg.p).setStore msg.p none).broadcastGoto .pop,
        by simp [clipifBroadcast, pc, clock], ?_⟩
      simp [work, pc, State.broadcastGoto, State.use, State.setStore]
  | ended =>
    refine .inl ?_
    rw [finished, pending, pc, (order.ended pc).1]
    simp [current]

end Progress

section Run

variable {parent : Fd} {time : UInt32} {ok : State T → Label T → Prop}

theorem order_of_reach (h : (broadcasts verbose T parent time).Reach ok s) : Order s := by
  refine h.invariant_of (fun t => heap_of_reach) ?_
    fun s a t heap known _ edge => known.step heap (change_of_step edge)
  exact ⟨⟨0, rfl, rfl⟩, fun k w member => (by cases member), fun k => List.Pairwise.nil,
    fun k n member => (by cases member), fun ended => (by cases ended)⟩

theorem wired_of_reach (h : (broadcasts verbose T parent time).Reach ok s) : Wired s := by
  refine h.invariant ⟨?_, fun i busy => by cases busy⟩
    fun s a t known _ edge => known.step (change_of_step edge)
  intro i fd k there
  obtain ⟨first, same⟩ := Option.ite_none_right_eq_some.mp there
  obtain ⟨rfl, rfl⟩ := Prod.mk.inj (Option.some.inj same)
  exact first.2

theorem prepared_of_reach (h : (broadcasts verbose T parent time).Reach ok s) : Prepared s := by
  refine h.invariant_of (fun t => heap_of_reach) (fun a pc => by cases pc)
    fun s a t heap known _ edge => known.step heap (change_of_step edge)

theorem unlocked_of_reach (calm : ∀ s a, ok s a → undisturbed s a)
    (h : (broadcasts verbose T parent time).Reach ok s) : Unlocked s := by
  refine h.invariant ⟨fun _ => ⟨rfl, rfl⟩, fun locked => by cases locked⟩ ?_
  intro s a t known guard edge
  exact known.step (calm s a guard) (change_of_step edge)

theorem closed_of_reach (calm : ∀ s a, ok s a → undisturbed s a)
    (h : (broadcasts verbose T parent time).Reach ok s) : Closed s := by
  refine h.invariant_of (J := fun t => HeapInv t ∧ Order t ∧ Wired t ∧ Prepared t)
    (fun t reach => ⟨heap_of_reach reach, order_of_reach reach, wired_of_reach reach,
      prepared_of_reach reach⟩) (fun bye now => by cases now) ?_
  intro s label t ⟨heap, order, wired, prepared⟩ known guard edge
  exact known.step heap order wired prepared (calm s label guard) (change_of_step edge)

theorem delivered_of_reach
    (h : (broadcasts verbose T parent time).Reach (fun s a => undisturbed s a ∧ delivered s a) s) :
    Delivered s := by
  refine h.invariant_of (J := fun t => HeapInv t ∧ Order t ∧ Closed t)
    (fun t reach => ⟨heap_of_reach reach, order_of_reach reach,
      closed_of_reach (fun _ _ => And.left) reach⟩) (fun bye now => by cases now) ?_
  intro s label t ⟨heap, order, closed⟩ known ⟨_, guard⟩ edge
  exact known.step heap order closed guard (change_of_step edge)

theorem farewell_of_reach (h : (broadcasts verbose T parent time).Reach undisturbed s) :
    Farewell s := by
  have order := order_of_reach h
  have closed := closed_of_reach (fun _ _ => id) h
  constructor
  · intro k front w back wire bye v behind
    have sorted := order.sorted k
    rw [wire, List.pairwise_append] at sorted
    have after := List.rel_of_pairwise_cons sorted.2.1 behind
    have before := (order.written k v (by simp [wire, behind])).1
    have last := (closed w.number bye).last
    omega
  · intro ends bye now i fd k there
    have gone : ∀ msg ∈ pending s, msg.number ≠ bye := by
      intro msg member same
      exact ends msg member (same ▸ now)
    refine (closed bye now).told i fd k there ⟨?_, ?_⟩
    · exact fun msg member => gone msg (by simp [pending, member])
    · cases pc : s.broadcaster with
      | size msg => exact gone msg (by simp [pending, pc, current])
      | slot msg size j => exact fun same => absurd same (gone msg (by simp [pending, pc, current]))
      | send msg size j start =>
        exact fun same => absurd same (gone msg (by simp [pending, pc, current]))
      | pop | free | ended => trivial

theorem finishes (h : (broadcasts verbose T parent time).Reach undisturbed s) :
    ∃ t, (broadcasts verbose T parent time).Path alone s t ∧ finished t ∧
      t.goodbye = s.goodbye ∧ t.connections = s.connections := by
  let known : State T → Prop := fun u => (broadcasts verbose T parent time).Reach undisturbed u ∧
    u.goodbye = s.goodbye ∧ u.connections = s.connections
  have advance : ∀ u, known u → finished u ∨ ∃ a t, alone u a ∧
      (broadcasts verbose T parent time).step u a = some t ∧ known t ∧ work t < work u := by
    rintro u ⟨reach, goodbye, connections⟩
    obtain ends | ⟨n, t, edge, lower⟩ := work_lt
      (fun locked => ((unlocked_of_reach (fun _ _ => id) reach).kept locked).2)
      (order_of_reach reach) (wired_of_reach reach)
    · exact .inl ends
    · have goes : (broadcasts verbose T parent time).step u (.broadcaster (some n)) = some t := edge
      have frame := broadcasterFrame (change_of_broadcaster edge)
      refine .inr ⟨.broadcaster (some n), t, trivial, goes,
        ⟨reach.trans (.single (a := .broadcaster (some n)) trivial goes), ?_, ?_⟩, lower⟩
      · rw [frame.goodbye, goodbye]
      · rw [frame.connections, connections]
  obtain ⟨t, path, ⟨-, same⟩, ends⟩ := System.Path.progress work advance s ⟨h, rfl, rfl⟩
  exact ⟨t, path, ends, same⟩

/-- The goodbye is the last frame on every link in every run in which nothing else is queued before
the broadcaster has taken it from the terminated queue: the broadcaster comes to the end of its round
whatever the other threads have done, and where no `send` of it fails it is on each link. -/
theorem goodbye_last (verbose : Bool) (parent : Fd) (time : UInt32) :
    (∀ s : State T, (broadcasts verbose T parent time).Reach undisturbed s →
      Farewell s ∧ ∃ t, (broadcasts verbose T parent time).Path alone s t ∧ finished t ∧
        t.goodbye = s.goodbye ∧ t.connections = s.connections) ∧
    ∀ s : State T,
      (broadcasts verbose T parent time).Reach (fun s a => undisturbed s a ∧ delivered s a) s →
      finished s → ∀ bye, s.goodbye = some bye →
        ∀ i fd k, s.connections i = some (fd, k) → Written s bye k := by
  refine ⟨fun s h => ⟨farewell_of_reach h, finishes h⟩, fun s h ends bye now i fd k there => ?_⟩
  have told := (farewell_of_reach (h.mono fun _ _ => And.left)).told ends bye now i fd k there
  obtain written | ⟨msg, size, j, fd', pc, number, -⟩ :=
    delivered_of_reach h bye now k (List.mem_of_getLast? told)
  · exact written
  · exact absurd (number ▸ now) (ends msg (by simp [pending, pc, current]))

end Run

section Witness

private instance undisturbedDecidable :
    ∀ (s : State Unit) (a : Label Unit), Decidable (undisturbed s a)
  | s, .broadcast _ room => inferInstanceAs (Decidable (room.broadcast = true ∧ room.node = true →
      s.goodbye ≠ none → s.terminate = true ∧ ∀ msg ∈ s.broadcasts, s.goodbye ≠ some msg.number))
  | s, .clock _ room => inferInstanceAs (Decidable (s.clock = .broadcast →
      room.broadcast = true ∧ room.node = true → s.goodbye ≠ none →
        s.terminate = true ∧ ∀ msg ∈ s.broadcasts, s.goodbye ≠ some msg.number))
  | _, .cancelClock | _, .receive _ _ _ _ _ | _, .fill _ _ | _, .short _ | _, .complete _ _
  | _, .free _ | _, .orphan _ | _, .connect _ _ | _, .disconnect _ | _, .broadcaster _
  | _, .finalize _ _ => .isTrue trivial

private instance deliveredDecidable (s : State Unit) (a : Label Unit) : Decidable (delivered s a) := by
  unfold delivered
  split
  · split <;> infer_instance
  · infer_instance

/-- A copy of one byte. -/
private def copy : List UInt8 := PacketData.bytes ⟨PacketType.requestCopy.code, 0, 1, 7⟩ ++ [42]

private def copyRead (i j : Slot) : List (Label Unit) :=
  [.connect i 5, .connect j 6, .receive () .clipCopy 6 (some 1) copy,
    .complete () true]

private def copyQueued : List (Label Unit) := [.broadcast () ⟨true, true⟩]

private def goodbyeQueued : List (Label Unit) := List.replicate 2 (.finalize 0 ⟨true, true⟩)

private def terminated : List (Label Unit) :=
  [.finalize 0 ⟨true, true⟩, .cancelClock, .finalize 0 ⟨true, true⟩, .finalize 0 ⟨true, true⟩]

private def firstTakes (size : Nat) : List (Label Unit) :=
  List.replicate 3 (Label.broadcaster none) ++ [Label.broadcaster (some size)] ++
    List.replicate (maxClipboards + 2) (Label.broadcaster none)

private def bothTake (size : Nat) : List (Label Unit) :=
  List.replicate 3 (Label.broadcaster none) ++ [Label.broadcaster (some size)] ++
    List.replicate 2 (Label.broadcaster none) ++ [Label.broadcaster (some size)] ++
    List.replicate (maxClipboards + 1) (Label.broadcaster none)

theorem goodbye_last_ended :
    ∃ s : State Unit, Farewell s ∧ s.broadcaster = .ended ∧ s.goodbye = some 1 ∧
      (s.wire 1).map (·.number) = [0, 1] ∧ Written s 1 1 := by
  have reached : ∃ s, (broadcasts false Unit 0 0).Reach (fun s a => undisturbed s a ∧ delivered s a) s ∧
      decide (s.broadcaster = .ended ∧ s.goodbye = some 1 ∧
        (s.wire 1).map (·.number) = [0, 1] ∧ s.broadcasts = [] ∧
        s.connections ⟨0, by decide⟩ = some (5, 1)) = true :=
    System.reach_of_guardedRun _ true
      (copyRead ⟨0, by decide⟩ ⟨1, by decide⟩ ++ copyQueued ++ goodbyeQueued ++ terminated ++
        firstTakes 11 ++ bothTake 1 ++ [Label.broadcaster none]) (by decide +kernel)
  obtain ⟨s, reach, seen⟩ := reached
  obtain ⟨ended, bye, wire, queue, there⟩ := of_decide_eq_true seen
  have ends : finished s := by simp [finished, pending, current, ended, queue]
  exact ⟨s, ((goodbye_last false 0 0).1 s (reach.mono fun _ _ => And.left)).1, ended, bye, wire,
    (goodbye_last false 0 0).2 s reach ends 1 bye _ 5 1 there⟩

/-- A slave queues a copy between the goodbye and the end of the queue, and the copy is written
behind the goodbye. -/
theorem copy_after_goodbye :
    ∃ s, (broadcasts false Unit 0 0).Reach System.anyStep s ∧ ¬ Farewell s ∧
      s.goodbye = some 0 ∧ s.wire 1 = [⟨0, 0, 1, goodbye⟩, ⟨1, 0, 11, copy⟩] := by
  have reached : ∃ s, (broadcasts false Unit 0 0).Reach System.anyStep s ∧
      decide (s.goodbye = some 0 ∧
        s.wire 1 = [⟨0, 0, 1, goodbye⟩, ⟨1, 0, 11, copy⟩]) = true :=
    System.reach_of_run _ true
      (copyRead ⟨0, by decide⟩ ⟨1, by decide⟩ ++ goodbyeQueued ++ copyQueued ++ terminated ++
        bothTake 1 ++ firstTakes 11)
      (by simp [System.anyStep]) (by decide +kernel)
  obtain ⟨s, reach, seen⟩ := reached
  obtain ⟨bye, wire⟩ := of_decide_eq_true seen
  refine ⟨s, reach, fun farewell => ?_, bye, wire⟩
  have last := farewell.last 1 [] ⟨0, 0, 1, goodbye⟩ [⟨1, 0, 11, copy⟩] wire bye
    ⟨1, 0, 11, copy⟩ (List.mem_singleton_self _)
  exact absurd last (by decide)

end Witness

end DistributedClipboard.Interfaces.LastGoodbye
