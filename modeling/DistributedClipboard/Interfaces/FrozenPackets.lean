/- module: DistributedClipboard/Interfaces/FrozenPackets
   source: src/src/interfaces/clipif.c, src/src/interfaces/appif.c
   layer: theorem
   digest: What is written is what was queued, if the clock leaves its packet alone while it is queued. -/

import DistributedClipboard.Interfaces.BroadcastHeap

set_option autoImplicit false
set_option relaxedAutoImplicit false

namespace DistributedClipboard.Interfaces.FrozenPackets

open DistributedClipboard.Common
open DistributedClipboard.Interfaces.BroadcastHeap
open DistributedClipboard.Interfaces.Broadcasts
open DistributedClipboard.Interfaces.BroadcastSteps
open DistributedClipboard.Interfaces.LinkCodec (sendSize)
open DistributedClipboard.Interfaces.Tables (Fd Slot)
open DistributedClipboard.Lib.Transition
open DistributedClipboard.Utils.Packet

universe u

variable {T : Type u} [DecidableEq T]

def clockQueued (s : State T) : Bool := (pending s).any fun msg => decide (msg.p = .clock)

/-- The clock thread neither writes to its packet nor ends while the packet is queued or being
sent. -/
def undisturbed (s : State T) : Label T → Prop
  | .clock _ _ => s.clock = .stamp → clockQueued s = false
  | .cancelClock => clockQueued s = false
  | _ => True

structure ClockInv (s : State T) : Prop where
  kept : ∀ msg ∈ pending s, msg.p = .clock → s.store .clock = s.accepted[msg.number]?
  stored : alive s.clock = true → s.store .clock ≠ none
  child : s.root = false → s.clock = .absent
  absent : s.clock = .absent → ∀ msg ∈ pending s, msg.p ≠ .clock

variable {verbose : Bool} {s s' : State T}

omit [DecidableEq T] in
theorem not_clock (h : clockQueued s = false) : ∀ msg ∈ pending s, msg.p ≠ .clock := by
  intro msg member place
  rw [clockQueued, List.any_eq_false] at h
  exact h msg member (decide_eq_true place)

omit [DecidableEq T] in
theorem ClockInv.keep (h : ClockInv s) (heap : HeapInv s) (store : s'.store .clock = s.store .clock)
    (accepted : ∃ more, s'.accepted = s.accepted ++ more)
    (fewer : ∀ msg ∈ pending s', msg.p = .clock → msg ∈ pending s)
    (clock : s'.clock = s.clock ∨ alive s.clock = true ∧ alive s'.clock = true)
    (root : s'.root = false → s.root = false) : ClockInv s' := by
  have gone : s'.clock = .absent → s.clock = .absent := by
    intro absent
    obtain same | ⟨-, after⟩ := clock
    · exact same ▸ absent
    · rw [absent] at after
      cases after
  constructor
  · intro msg member place
    have before := fewer msg member place
    obtain ⟨more, accepted⟩ := accepted
    rw [store, accepted, List.getElem?_append_left (heap.bound msg before)]
    exact h.kept msg before place
  · intro after
    rw [store]
    obtain same | ⟨before, -⟩ := clock
    · exact h.stored (same ▸ after)
    · exact h.stored before
  · intro child
    obtain same | ⟨before, -⟩ := clock
    · exact same.trans (h.child (root child))
    · rw [h.child (root child)] at before
      cases before
  · intro absent msg member place
    exact h.absent (gone absent) msg (fewer msg member place) place

omit [DecidableEq T] in
theorem clockInv_of_none (none : ∀ msg ∈ pending s', msg.p ≠ .clock)
    (stored : alive s'.clock = true → s'.store .clock ≠ Option.none)
    (child : s'.root = false → s'.clock = .absent) : ClockInv s' :=
  ⟨fun msg member place => absurd place (none msg member), stored, child, fun _ => none⟩

omit [DecidableEq T] in
theorem fewer_of_accept (s : State T) (a : Addr) (fromFd : Int) {msg : Entry}
    (member : msg ∈ pending (accept s (.heap a) fromFd)) (place : msg.p = .clock) :
    msg ∈ pending s := by
  rw [pending_accept, List.mem_append] at member
  refine member.resolve_right fun last => ?_
  obtain rfl := List.mem_singleton.mp last
  cases place

theorem ClockInv.step {label : Label T} (heap : HeapInv s) (h : ClockInv s)
    (ok : undisturbed s label) (change : Change s label s') : ClockInv s' := by
  have same : ∃ more, s.accepted = s.accepted ++ more := ⟨[], (List.append_nil _).symm⟩
  cases label with
  | broadcaster ret =>
    have frame := broadcasterFrame change
    refine h.keep heap ?_ (by rw [frame.accepted]; exact same)
      (fun msg member _ => frame.fewer.subset member) (.inl frame.clock)
      (by rw [frame.root]; exact id)
    obtain same | ⟨msg, first, other, freed⟩ := frame.store
    · rw [same]
    · rw [freed, Function.update_of_ne]
      intro place
      exact other ((heap.clock msg (by simp [first])).mp place.symm)
  | clock now room =>
    cases change with
    | ticks _ _ pc before after =>
      exact h.keep heap rfl same (fun _ member _ => member) (.inr ⟨before, after⟩) id
    | stamps _ _ pc =>
      refine clockInv_of_none (not_clock (ok pc)) (by simp [State.setStore]) fun child => ?_
      have absent := h.child child
      rw [pc] at absent
      cases absent
    | clockAccepted _ _ pc opened =>
      have living : alive s.clock = true := by
        rw [pc]
        rfl
      have more := pending_accept s .clock (-1)
      refine ⟨fun msg member place => ?_, fun _ => h.stored living, fun child => ?_, by simp⟩
      · change msg ∈ pending (accept s .clock (-1)) at member
        rw [more, List.mem_append] at member
        obtain before | last := member
        · have kept := h.kept msg before place
          rw [← List.getElem?_append_left (heap.bound msg before)] at kept
          exact kept
        · obtain rfl := List.mem_singleton.mp last
          obtain ⟨bytes, stored⟩ := Option.ne_none_iff_exists'.mp (h.stored living)
          change s.store .clock = (s.accepted ++ [s.read .clock])[s.accepted.length]?
          rw [List.getElem?_append_right (Nat.le_refl _), Nat.sub_self, State.read, stored]
          rfl
      · have absent := h.child child
        rw [pc] at absent
        cases absent
    | clockRefused _ _ locked pc =>
      exact h.keep heap rfl same (fun _ member _ => member) (.inr ⟨by rw [pc]; rfl, rfl⟩) id
  | cancelClock =>
    cases change with
    | clockEnds before =>
      refine clockInv_of_none (not_clock ok) (by simp [alive]) fun child => ?_
      rw [h.child child] at before
      cases before
  | orphan time =>
    cases change with
    | orphan _ child =>
      have none := h.absent (h.child child)
      exact clockInv_of_none none (by simp [startClock, State.setStore]) (by simp [startClock])
  | receive t kind sock new bytes =>
    cases change with
    | fails => exact h
    | allocates _ _ _ a _ pc dead =>
      exact h.keep heap (by simp [State.goto, State.setStore]) same (fun _ member _ => member)
        (.inl rfl) id
  | fill t bytes =>
    cases change with
    | fills _ _ kind sock a pc =>
      exact h.keep heap (by simp [State.setStore]) same (fun _ member _ => member) (.inl rfl) id
  | short t =>
    cases change
    exact h.keep heap rfl same (fun _ member _ => member) (.inl rfl) id
  | complete t stored =>
    cases change
    exact h.keep heap rfl same (fun _ member _ => member) (.inl rfl) id
  | free t =>
    cases change with
    | frees _ a pc =>
      exact h.keep heap (by simp [State.goto, State.setStore]) same (fun _ member _ => member)
        (.inl rfl) id
  | broadcast t room =>
    cases change with
    | accepted _ _ sock a pc opened =>
      exact h.keep heap rfl ⟨_, rfl⟩ (fun _ => fewer_of_accept s a sock) (.inl rfl) id
    | refused => exact h.keep heap rfl same (fun _ member _ => member) (.inl rfl) id
  | connect i fd =>
    cases change
    exact h.keep heap rfl same (fun _ member _ => member) (.inl rfl) id
  | disconnect i =>
    cases change
    exact h.keep heap rfl same (fun _ member _ => member) (.inl rfl) id
  | finalize new room =>
    cases change with
    | prepares =>
      exact h.keep heap (by simp [State.setStore]) same (fun _ member _ => member) (.inl rfl) id
    | byeAccepted _ _ a pc opened =>
      exact h.keep heap rfl ⟨_, rfl⟩ (fun _ => fewer_of_accept s a 0) (.inl rfl) id
    | byeRefused => exact h.keep heap rfl same (fun _ member _ => member) (.inl rfl) id
    | finalizes _ _ root cancelClock terminate pc before after child closed =>
      exact h.keep heap rfl same (fun _ member _ => member) (.inl rfl) child

def Sent (accepted : List (List UInt8)) (w : Written) : Prop :=
  ∃ bytes, accepted[w.number]? = some bytes ∧ w.bytes = (bytes.drop w.start).take w.count ∧
    ((w.start + w.count : Nat) : Int) ≤ toInt (sendSize bytes).toNat

def sized : BroadcastPc → Option (Entry × UInt32)
  | .slot msg size _ | .send msg size _ _ => some (msg, size)
  | _ => none

structure SentInv (s : State T) : Prop where
  sized : ∀ msg size, sized s.broadcaster = some (msg, size) →
    ∃ bytes, s.accepted[msg.number]? = some bytes ∧ size = sendSize bytes
  sent : ∀ k, ∀ w ∈ s.wire k, Sent s.accepted w
  fault : s.fault = false

omit [DecidableEq T] in
theorem stored_of_pending (heap : HeapInv s) (clock : ClockInv s) {msg : Entry}
    (member : msg ∈ pending s) :
    ∃ bytes, s.accepted[msg.number]? = some bytes ∧ s.store msg.p = some bytes := by
  refine ⟨_, List.getElem?_eq_getElem (heap.bound msg member), ?_⟩
  rw [← List.getElem?_eq_getElem (heap.bound msg member)]
  cases place : msg.p with
  | heap a => exact heap.kept msg member a place
  | clock => exact clock.kept msg member place

omit [DecidableEq T] in
theorem SentInv.keep (h : SentInv s) (wire : s'.wire = s.wire)
    (accepted : ∃ more, s'.accepted = s.accepted ++ more)
    (turn : FrozenPackets.sized s'.broadcaster = FrozenPackets.sized s.broadcaster ∨
      FrozenPackets.sized s'.broadcaster = none) (fault : s'.fault = s.fault) : SentInv s' := by
  obtain ⟨more, accepted⟩ := accepted
  have later : ∀ (n : Nat) bytes, s.accepted[n]? = some bytes → s'.accepted[n]? = some bytes := by
    intro n bytes before
    rw [accepted, List.getElem?_append_left (List.getElem?_eq_some_iff.mp before).1]
    exact before
  refine ⟨fun msg size now => ?_, fun k w member => ?_, fault.trans h.fault⟩
  · obtain same | none := turn
    · rw [same] at now
      obtain ⟨bytes, before, size⟩ := h.sized msg size now
      exact ⟨bytes, later _ bytes before, size⟩
    · rw [none] at now
      cases now
  · rw [wire] at member
    obtain ⟨bytes, before, part⟩ := h.sent k w member
    exact ⟨bytes, later _ bytes before, part⟩

omit [DecidableEq T] in
theorem use_of_stored {p : Place} {bytes : List UInt8} (stored : s.store p = some bytes)
    (sound : s.fault = false) : (s.use p).fault = false ∧ s.read p = bytes := by
  simp [State.use, State.read, stored, sound]

theorem SentInv.broadcaster {ret : Option Nat} (heap : HeapInv s) (clock : ClockInv s)
    (h : SentInv s) (change : Change s (.broadcaster ret) s') : SentInv s' := by
  have same : ∃ more, s.accepted = s.accepted ++ more := ⟨[], (List.append_nil _).symm⟩
  have found : ∀ msg ∈ current s.broadcaster, ∃ bytes, s.accepted[msg.number]? = some bytes ∧
      (s.use msg.p).fault = false ∧ s.read msg.p = bytes := by
    intro msg member
    obtain ⟨bytes, accepted, stored⟩ :=
      stored_of_pending heap clock (List.mem_append_left _ member)
    exact ⟨bytes, accepted, use_of_stored stored h.fault⟩
  cases change with
  | pops | ends | rounds | leaves => exact h.keep rfl same (.inr rfl) rfl
  | calls _ msg size i fd k pc there =>
    exact h.keep rfl same (.inl (by rw [pc]; rfl)) rfl
  | passes _ msg size i pc not => exact h.keep rfl same (.inl (by rw [pc]; rfl)) rfl
  | returns _ msg size i start pc => exact h.keep rfl same (.inl (by rw [pc]; rfl)) rfl
  | sizes _ msg pc =>
    obtain ⟨bytes, accepted, sound, read⟩ := found msg (by rw [pc]; exact List.mem_singleton_self _)
    refine ⟨?_, h.sent, sound⟩
    intro msg' size now
    obtain ⟨rfl, rfl⟩ := Prod.mk.inj (Option.some.inj now)
    exact ⟨bytes, accepted, congrArg sendSize read⟩
  | skips _ msg pc zero =>
    obtain ⟨bytes, accepted, sound, read⟩ := found msg (by rw [pc]; exact List.mem_singleton_self _)
    exact ⟨fun msg size now => (by cases now), h.sent, sound⟩
  | releases _ msg pc other =>
    obtain ⟨bytes, accepted, sound, read⟩ := found msg (by rw [pc]; exact List.mem_singleton_self _)
    exact ⟨fun msg size now => (by cases now), h.sent, sound⟩
  | writes _ msg size i start count fd k pc there fits =>
    obtain ⟨bytes, accepted, sound, read⟩ := found msg (by rw [pc]; exact List.mem_singleton_self _)
    refine ⟨?_, ?_, sound⟩
    · intro msg' size' now
      exact h.sized msg' size' (by rw [pc]; exact now)
    · intro j w member
      by_cases same : j = k
      · subst same
        simp only [Function.update_self, List.mem_append, List.mem_singleton] at member
        obtain before | rfl := member
        · exact h.sent j w before
        · obtain ⟨bytes', accepted', rfl⟩ := h.sized msg size (by rw [pc]; rfl)
          obtain rfl := Option.some.inj (accepted.symm.trans accepted')
          exact ⟨bytes, accepted, by rw [read], fits⟩
      · simp only [Function.update_of_ne same] at member
        exact h.sent j w member

/-- The bytes written for an entry are those of its packet when the queue accepted it, and until the
broadcaster has finished with the entry the packet is stored where it was, with these bytes. -/
structure Frozen (s : State T) : Prop where
  sent : ∀ k, ∀ w ∈ s.wire k, Sent s.accepted w
  stored : ∀ msg ∈ pending s, ∃ bytes, s.accepted[msg.number]? = some bytes ∧
    s.store msg.p = some bytes
  fault : s.fault = false

section Run

variable {parent : Fd} {time : UInt32}

theorem clock_of_reach (h : (broadcasts verbose T parent time).Reach undisturbed s) :
    ClockInv s := by
  refine h.invariant_of (fun t => heap_of_reach) ?_
    fun s a t heap known ok edge => known.step heap ok (change_of_step edge)
  have none : pending (broadcasts verbose T parent time).init = [] := rfl
  refine ⟨by simp [none], ?_, ?_, by simp [none]⟩
  · by_cases root : parent = 0
    · simp [broadcasts, root]
    · simp [broadcasts, root, alive]
  · simp [broadcasts]

/-- A queued packet is frozen in every run in which the clock thread leaves its packet alone while it
is queued or being sent. -/
theorem queued_frozen (verbose : Bool) (parent : Fd) (time : UInt32) {s : State T}
    (h : (broadcasts verbose T parent time).Reach undisturbed s) : Frozen s := by
  have heap := heap_of_reach h
  have clock := clock_of_reach h
  have sent : SentInv s := by
    refine h.invariant_of (J := fun t => HeapInv t ∧ ClockInv t)
      (fun t reach => ⟨heap_of_reach reach, clock_of_reach reach⟩) ?_ ?_
    · exact ⟨fun msg size now => (by cases now), fun k w member => (by cases member), rfl⟩
    · intro s label t ⟨heap, clock⟩ known ok edge
      have change := change_of_step edge
      by_cases broadcaster : ∃ ret, label = .broadcaster ret
      · obtain ⟨ret, rfl⟩ := broadcaster
        exact known.broadcaster heap clock change
      · have frame := otherFrame change (not_exists.mp broadcaster)
        exact known.keep frame.wire frame.accepted (.inl (by rw [frame.broadcaster])) frame.fault
  exact ⟨sent.sent, fun msg member => stored_of_pending heap clock member, sent.fault⟩

end Run

section Witness

private instance undisturbedDecidable :
    ∀ (s : State Unit) (a : Label Unit), Decidable (undisturbed s a)
  | s, .clock _ _ => inferInstanceAs (Decidable (s.clock = .stamp → clockQueued s = false))
  | s, .cancelClock => inferInstanceAs (Decidable (clockQueued s = false))
  | _, .receive _ _ _ _ _ | _, .fill _ _ | _, .short _ | _, .complete _ _ | _, .broadcast _ _
  | _, .free _ | _, .orphan _ | _, .connect _ _ | _, .disconnect _ | _, .broadcaster _
  | _, .finalize _ _ => .isTrue trivial

private def tick (now : UInt32) : List (Label Unit) := List.replicate 4 (.clock now ⟨true, true⟩)

private def sendingFirst (i : Slot) (now : UInt32) : List (Label Unit) :=
  [.connect i 5] ++ tick now ++ List.replicate 3 (.broadcaster none)

theorem queued_frozen_sent :
    ∃ s, (broadcasts false Unit 0 0).Reach undisturbed s ∧ Frozen s ∧
      s.wire 1 = [⟨0, 0, 5, stamped 3⟩] ∧ s.clock = .broadcast := by
  have reached : ∃ s, (broadcasts false Unit 0 0).Reach undisturbed s ∧
      decide (s.wire 1 = [⟨0, 0, 5, stamped 3⟩] ∧ s.clock = .broadcast) = true :=
    System.reach_of_guardedRun _ true
      (sendingFirst ⟨0, by decide⟩ 3 ++ [.broadcaster (some 5)] ++
        List.replicate (maxClipboards + 2) (.broadcaster none) ++ (tick 7).take 3)
      (by decide +kernel)
  obtain ⟨s, reach, seen⟩ := reached
  obtain ⟨wire, clock⟩ := of_decide_eq_true seen
  exact ⟨s, reach, queued_frozen false 0 0 reach, wire, clock⟩

/-- While `send` blocks, the clock thread writes the next time into the packet that is being sent;
or it is cancelled while its packet is queued, and the broadcaster reads a variable that is gone. -/
theorem queued_packet_changes :
    (∃ s, (broadcasts false Unit 0 0).Reach System.anyStep s ∧ ¬ Frozen s ∧
      s.accepted = [stamped 3] ∧ s.wire 1 = [⟨0, 0, 5, stamped 7⟩]) ∧
    (∃ s, (broadcasts false Unit 0 0).Reach System.anyStep s ∧ ¬ Frozen s ∧ s.clock = .ended ∧
      s.fault = true) := by
  have rewritten : ∃ s, (broadcasts false Unit 0 0).Reach System.anyStep s ∧
      decide (s.accepted = [stamped 3] ∧ s.wire 1 = [⟨0, 0, 5, stamped 7⟩]) = true :=
    System.reach_of_run _ true
      (sendingFirst ⟨0, by decide⟩ 3 ++ (tick 7).take 2 ++ [.broadcaster (some 5)])
      (by simp [System.anyStep]) (by decide +kernel)
  have ended : ∃ s, (broadcasts false Unit 0 0).Reach System.anyStep s ∧
      decide (s.clock = .ended ∧ s.fault = true) = true :=
    System.reach_of_run _ true
      (tick 3 ++ List.replicate 3 (.finalize 0 ⟨true, true⟩) ++ [.cancelClock] ++
        List.replicate 2 (.broadcaster none)) (by simp [System.anyStep]) (by decide +kernel)
  constructor
  · obtain ⟨s, reach, seen⟩ := rewritten
    obtain ⟨accepted, wire⟩ := of_decide_eq_true seen
    refine ⟨s, reach, fun frozen => ?_, accepted, wire⟩
    obtain ⟨bytes, first, part, -⟩ := frozen.sent 1 ⟨0, 0, 5, stamped 7⟩ (by simp [wire])
    rw [accepted] at first
    obtain rfl := Option.some.inj first
    exact absurd part (by decide +kernel)
  · obtain ⟨s, reach, seen⟩ := ended
    obtain ⟨clock, fault⟩ := of_decide_eq_true seen
    refine ⟨s, reach, fun frozen => ?_, clock, fault⟩
    rw [frozen.fault] at fault
    cases fault

end Witness

end DistributedClipboard.Interfaces.FrozenPackets
