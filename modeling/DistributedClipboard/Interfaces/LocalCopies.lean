/- module: DistributedClipboard/Interfaces/LocalCopies
   source: src/src/interfaces/appif.c, src/src/interfaces/clipif.c, src/src/utils/time.c
   layer: theorem
   digest: When the copies of a node's own applications are kept, whatever sync packets arrive. -/

import DistributedClipboard.Interfaces.AppTurns
import DistributedClipboard.Lib.Transition
import DistributedClipboard.Mem.Puts
import DistributedClipboard.Utils.Time

set_option autoImplicit false
set_option relaxedAutoImplicit false

namespace DistributedClipboard.Interfaces.LocalCopies

open DistributedClipboard.Common
open DistributedClipboard.Interfaces.AppBuffers
open DistributedClipboard.Interfaces.AppTurns
open DistributedClipboard.Lib.Latest
open DistributedClipboard.Lib.Transition
open DistributedClipboard.Mem.Clmem
open DistributedClipboard.Mem.Puts
open DistributedClipboard.Mem.Representation (memGet_length)
open DistributedClipboard.Utils.Packet
open DistributedClipboard.Utils.Time

/-- What happens at a node. -/
inductive Event
  /-- Seconds of the machine's clock. -/
  | pass (seconds : Nat)
  /-- A `TIME_SYNC` of the parent has arrived, and `time_m_sync` is called. -/
  | timeSync (time : UInt32)
  /-- `time_m_sync` has its lock and returns. -/
  | synced
  /-- The payload of a copy has arrived, and is stamped by `time_m_now`. -/
  | copy (region : UInt8) (data : List UInt8)
  /-- The copy is put in memory and acknowledged. -/
  | placed
  | paste (region : UInt8) (dataSize : UInt32)
  /-- A put that is not for these applications: of a copy from a peer, or to another region. -/
  | otherPut (p : Put)
  deriving DecidableEq, Repr

inductive Answer
  /-- The stamped copy and the size acknowledged. -/
  | copied (p : Put) (pBytes : Nat)
  /-- The bytes of the response. -/
  | pasted (region : UInt8) (dataSize : UInt32) (data : Option (List UInt8))
  deriving DecidableEq, Repr

/-- The clock, the memory, the copy between its stamp and `mem_put`, and the answers so far. -/
structure Node where
  clock : Clock
  mem : Memory
  copying : Option Put
  answers : List Answer

/-- The node before anything has arrived. -/
def Node.start (time : Nat) : Node := ⟨timeInit time, memInit, none, []⟩

/-- One event. One thread calls `time_m_sync`, that of the parent's connection, and the applications
wait for the acknowledgement of a copy before the next. -/
def step (parentDelay : UInt32) (s : Node) : Event → Option Node
  | .pass seconds => some { s with clock := s.clock.pass seconds }
  | .timeSync time =>
    if s.clock.syncing.isSome then none
    else some { s with clock := timeMSync s.clock (time + parentDelay) }
  | .synced => if s.clock.syncing.isNone then none else some { s with clock := timeStarts s.clock }
  | .copy region data =>
    if s.copying.isSome then none
    else some { s with copying := some ⟨region.toNat, data, timeMNow s.clock⟩ }
  | .placed =>
    match s.copying with
    | none => none
    | some p =>
      let (pBytes, mem) := p.call s.mem
      some { s with mem := mem, copying := none, answers := s.answers ++ [.copied p pBytes] }
  | .paste region dataSize =>
    let data := memGet s.mem region.toNat dataSize.toNat
    some { s with answers := s.answers ++ [.pasted region dataSize data] }
  | .otherPut p => some { s with mem := (p.call s.mem).2 }

def node (parentDelay : UInt32) (time : Nat) : System Node Event := ⟨.start time, step parentDelay⟩

def copies (answers : List Answer) : List Put := answers.filterMap fun
  | .copied p _ => some p
  | .pasted .. => none

def Expected (r : Region) (before : List Answer) : Answer → Prop
  | .copied p pBytes => p.Valid r → pBytes = p.data.length
  | .pasted region dataSize data => region.toNat = r.val →
    ∀ p, (putsAt r (copies before)).getLast? = some p → data = some (p.data.take dataSize.toNat)

/-- No copy to a region is lost to an earlier one. -/
def NeverLost (r : Region) (answers : List Answer) : Prop :=
  ∀ before a after, answers = before ++ a :: after → Expected r before a

/-- What a run has shown of the network clock, by the sync packets and the seconds passed alone, and
the copies that have been placed, each with the time at which it came. -/
structure History where
  clock : Shown
  copying : Option Put
  copies : List Put

namespace History

def start (time : Nat) : History := ⟨⟨.ofNat time, none⟩, none, []⟩

def next (parentDelay : UInt32) (h : History) : Event → History
  | .pass seconds => { h with clock := h.clock.pass seconds }
  | .timeSync time => { h with clock := h.clock.set (time + parentDelay) }
  | .synced => { h with clock := h.clock.settle }
  | .copy region data => { h with copying := some ⟨region.toNat, data, h.clock.now⟩ }
  | .placed => { h with copies := h.copies ++ h.copying.toList, copying := none }
  | .paste _ _ => h
  | .otherPut _ => h

/-- The history of a list of events. -/
def of (parentDelay : UInt32) (time : Nat) (es : List Event) : History :=
  es.foldl (next parentDelay) (start time)

/-- Every copy to a region comes at a network time no earlier than those of the copies before. -/
def Forward (r : Region) (h : History) : Prop :=
  (putsAt r h.copies).Pairwise fun p q => p.updateCond ≤ q.updateCond

instance (r : Region) (h : History) : Decidable (h.Forward r) :=
  inferInstanceAs (Decidable (List.Pairwise _ _))

end History

section Answers

variable {r : Region} {answers : List Answer} {a : Answer}

theorem neverLost_append :
    NeverLost r (answers ++ [a]) ↔ NeverLost r answers ∧ Expected r answers a := by
  constructor
  · intro kept
    constructor
    · rintro before b after rfl
      exact kept before b (after ++ [a]) (by simp)
    · exact kept answers a [] rfl
  · rintro ⟨kept, expected⟩ before b after same
    rcases List.eq_nil_or_concat' after with rfl | ⟨after, c, rfl⟩
    · obtain ⟨rfl, rfl⟩ := List.append_singleton_inj.mp same
      exact expected
    · rw [← List.cons_append, ← List.append_assoc] at same
      exact kept before b after (List.append_singleton_inj.mp same).1

theorem copies_copied (p : Put) (pBytes : Nat) :
    copies (answers ++ [.copied p pBytes]) = copies answers ++ [p] := List.filterMap_append

theorem copies_pasted (region : UInt8) (dataSize : UInt32) (data : Option (List UInt8)) :
    copies (answers ++ [.pasted region dataSize data]) = copies answers :=
  List.filterMap_append.trans (List.append_nil _)

theorem putsAt_append {ps : List Put} {p : Put} :
    putsAt r (ps ++ [p]) = if p.Valid r then putsAt r ps ++ [p] else putsAt r ps := by
  rw [putsAt, List.filter_append]
  by_cases valid : p.Valid r
  · rw [if_pos valid, List.filter_cons_of_pos (by simpa using valid)]
    rfl
  · rw [if_neg valid, List.filter_cons_of_neg (by simpa using valid)]
    exact List.append_nil _

theorem memGet_zone {m : Memory} {p : Put} (holds : m r = zoneOf (some p)) (size : Nat) :
    memGet m r.val size = some (p.data.take size) := by
  have shorter : p.data.take (min size p.data.length) = p.data.take size := by
    rw [List.take_eq_take_iff]
    omega
  rw [memGet, regionOf_val]
  simp only [holds, minMacro_eq_min]
  show (if min size p.data.length = 0 then some [] else
    memcpyFrom (some p.data) (min size p.data.length)) = _
  by_cases empty : min size p.data.length = 0
  · rw [if_pos empty, ← shorter, empty, List.take_zero]
  · rw [if_neg empty, memcpyFrom]
    simp only [if_pos (Nat.min_le_right size p.data.length), shorter]

end Answers

section Run

variable {parentDelay : UInt32} {r : Region} {s t : Node} {h : History} {e : Event}

/-- A node has done what its history says, and no copy has been lost if its history never goes
back. -/
structure Keeps (r : Region) (s : Node) (h : History) : Prop where
  clock : s.clock.shown = h.clock
  copying : s.copying = h.copying
  copied : copies s.answers = h.copies
  zone : s.mem r = zoneOf (offers Put.stamp none (putsAt r h.copies))
  kept : NeverLost r s.answers ↔ h.Forward r

theorem keeps_start (time : Nat) : Keeps r (.start time) (.start time) where
  clock := shown_init time
  copying := rfl
  copied := rfl
  zone := rfl
  kept := iff_of_true (fun before a after same => by simp [Node.start] at same) .nil

theorem Keeps.expected_copied (keeps : Keeps r s h) (p : Put) :
    Expected r s.answers (.copied p (p.call s.mem).1) ↔
      (p.Valid r → ∀ q ∈ putsAt r h.copies, q.updateCond ≤ p.updateCond) := by
  refine forall_congr' fun valid => ?_
  have filled : p.data.length ≠ 0 := fun zero => valid.2 (List.length_eq_zero_iff.mp zero)
  have older : level Put.stamp (offers Put.stamp none (putsAt r h.copies)) ≤ p.stamp ↔
      ∀ q ∈ putsAt r h.copies, q.updateCond ≤ p.updateCond := by
    rw [level_offers_le]
    exact and_iff_right (Nat.zero_le _)
  rw [(call_zone keeps.zone valid).2, ← older]
  constructor
  · intro accepted
    by_contra stale
    rw [if_neg stale] at accepted
    exact filled accepted.symm
  · intro newer
    exact if_pos newer

theorem forward_append {p : Put} {clock : Shown} {copying : Option Put} :
    (History.mk clock copying (h.copies ++ [p])).Forward r ↔
      h.Forward r ∧ (p.Valid r → ∀ q ∈ putsAt r h.copies, q.updateCond ≤ p.updateCond) := by
  rw [History.Forward, putsAt_append]
  by_cases valid : p.Valid r
  · rw [if_pos valid, forall_prop_of_true valid, List.pairwise_append]
    simp only [List.pairwise_singleton, List.mem_singleton, forall_eq, true_and]
    rfl
  · rw [if_neg valid]
    exact (and_iff_left fun yes => absurd yes valid).symm

theorem Keeps.expected_pasted (keeps : Keeps r s h) (forward : h.Forward r) (region : UInt8)
    (dataSize : UInt32) : Expected r s.answers
      (.pasted region dataSize (memGet s.mem region.toNat dataSize.toNat)) := by
  intro mine p latest
  rw [keeps.copied] at latest
  have older : (putsAt r h.copies).Pairwise fun p q => p.stamp ≤ q.stamp := forward
  have sorted : offers Put.stamp none (putsAt r h.copies) = some p :=
    (offers_sorted older).trans latest
  have zone := keeps.zone
  rw [sorted] at zone
  rw [mine]
  exact memGet_zone zone _

theorem keeps_step (keeps : Keeps r s h) (own : ∀ p, e = .otherPut p → ¬ p.Valid r)
    (edge : step parentDelay s e = some t) : Keeps r t (h.next parentDelay e) := by
  have ⟨clock, copying, copied, zone, kept⟩ := keeps
  cases e with
  | pass seconds =>
    cases edge
    have shown := shown_pass s.clock seconds
    rw [clock] at shown
    exact ⟨shown, copying, copied, zone, kept⟩
  | timeSync time =>
    obtain ⟨_, edge⟩ := Option.ite_none_left_eq_some.mp edge
    cases edge
    have shown := shown_timeMSync s.clock (time + parentDelay)
    rw [clock] at shown
    exact ⟨shown, copying, copied, zone, kept⟩
  | synced =>
    obtain ⟨_, edge⟩ := Option.ite_none_left_eq_some.mp edge
    cases edge
    have shown := shown_timeStarts s.clock
    rw [clock] at shown
    exact ⟨shown, copying, copied, zone, kept⟩
  | copy region data =>
    obtain ⟨_, edge⟩ := Option.ite_none_left_eq_some.mp edge
    cases edge
    have now : timeMNow s.clock = h.clock.now := congrArg Shown.now clock
    exact ⟨clock, by rw [now]; rfl, copied, zone, kept⟩
  | placed =>
    rw [step] at edge
    cases stamped : s.copying with
    | none =>
      rw [stamped] at edge
      cases edge
    | some p =>
      rw [stamped] at edge
      cases edge
      have done : h.next parentDelay .placed = ⟨h.clock, none, h.copies ++ [p]⟩ := by
        rw [History.next, ← copying, stamped]
        rfl
      rw [done]
      refine ⟨clock, rfl, ?_, ?_, ?_⟩
      · rw [copies_copied, copied]
      · rw [putsAt_append]
        by_cases valid : p.Valid r
        · rw [if_pos valid, offers_append]
          exact (call_zone zone valid).1
        · rw [if_neg valid]
          exact (call_other valid).trans zone
      · rw [neverLost_append, forward_append, kept]
        exact and_congr_right fun _ => keeps.expected_copied p
  | paste region dataSize =>
    cases edge
    refine ⟨clock, copying, (copies_pasted _ _ _).trans copied, zone, ?_⟩
    rw [neverLost_append, kept]
    exact and_iff_left_of_imp fun forward => keeps.expected_pasted forward region dataSize
  | otherPut p =>
    cases edge
    refine ⟨clock, copying, copied, ?_, kept⟩
    exact (call_other (own p rfl)).trans zone

theorem keeps_run (es : List Event) (keeps : Keeps r s h)
    (own : ∀ p, .otherPut p ∈ es → ¬ p.Valid r)
    {time : Nat} (ran : (node parentDelay time).run s es = some t) :
    Keeps r t (es.foldl (History.next parentDelay) h) := by
  induction es generalizing s h with
  | nil =>
    cases ran
    exact keeps
  | cons e es ih =>
    obtain ⟨m, edge, rest⟩ := Option.bind_eq_some_iff.mp ran
    refine ih (keeps_step keeps ?_ edge) ?_ rest
    · rintro p rfl
      exact own p List.mem_cons_self
    · intro p mine
      exact own p (List.mem_cons_of_mem _ mine)

end Run

section Requests

variable {parentDelay : UInt32} {env : Nat → Env} {slave : SlaveState} {s : Node}

theorem placed_acked (region : UInt8) (recvAt : UInt32) (payload : List UInt8)
    (small : payload.length < 2 ^ 31) (alive : 1 ≤ slave.err)
    (granted : (env slave.turn).packetGranted = true)
    (acks : (env slave.turn).fetchGranted = true) (mem : (env slave.turn).mem = s.mem)
    (stamped : s.copying = some ⟨region.toNat, payload, (env slave.turn).timeMNow⟩)
    (rest : List UInt8) : ∃ t slave' outs pBytes,
      step parentDelay s .placed = some t ∧ t.answers = s.answers ++
        [.copied ⟨region.toNat, payload, (env slave.turn).timeMNow⟩ pBytes] ∧
      (appifSlave env slave).exec ((Request.copy region recvAt payload (by omega)).bytes ++ rest) =
        some (some slave', rest, outs) ∧ outs ≠ [] ∧
      ∀ o ∈ outs, o = PacketFetch.bytes ⟨PacketType.responseAck.code, region, .ofNat pBytes⟩ := by
  let pd : PacketData := ⟨PacketType.requestCopy.code, region, .ofNat payload.length, recvAt⟩
  let p : Put := ⟨region.toNat, payload, (env slave.turn).timeMNow⟩
  have size : payload.length = pd.dataSize.toNat :=
    (UInt32.toNat_ofNat_of_lt' (by rw [UInt32.size]; omega)).symm
  have fits : FitsHeader pd.dataSize := by
    rw [FitsHeader, ← size, packetDataSize]
    omega
  obtain ⟨outs, turn, same, sent⟩ := turn_copy_done alive rfl granted fits small size rest
  refine ⟨⟨s.clock, (p.call s.mem).2, none, s.answers ++ [.copied p (p.call s.mem).1]⟩, _, outs,
    (p.call s.mem).1, ?_, rfl, turn, sent.mpr acks, fun o mine => ?_⟩
  · rw [step, stamped]
  · rw [same o mine, AppTurns.ack, mem]
    rfl

theorem paste_responded (region : UInt8) (dataSize : UInt32) (alive : 1 ≤ slave.err)
    (granted : (env slave.turn).packetGranted = true) (mem : (env slave.turn).mem = s.mem)
    (fits : FitsHeader dataSize) {data : List UInt8}
    (found : memGet s.mem region.toNat dataSize.toNat = some data)
    (small : packetDataSize + data.length < 2 ^ 31) (rest : List UInt8) : ∃ t slave' outs,
      step parentDelay s (.paste region dataSize) = some t ∧
      t.answers = s.answers ++ [.pasted region dataSize (some data)] ∧
      (appifSlave env slave).exec ((Request.paste region dataSize).bytes ++ rest) =
        some (some slave', rest, outs) ∧ outs ≠ [] ∧
      ∀ o ∈ outs, o = fetched (env slave.turn) .responsePaste
        ⟨PacketType.requestPaste.code, region, dataSize⟩ data := by
  let pf : PacketFetch := ⟨PacketType.requestPaste.code, region, dataSize⟩
  have bound : data.length ≤ dataSize.toNat := by
    rw [memGet_length found]
    exact Nat.min_le_left _ _
  have switch (t : SlaveState) : request (env slave.turn) t [pf.packetType] =
      fetchRequest (env slave.turn) .responsePaste memGet false t [pf.packetType] := rfl
  rw [← mem] at found
  obtain ⟨outs, turn, same, sent⟩ := turn_fetch_done switch alive granted fits found bound rest
  refine ⟨_, _, outs, rfl, ?_, turn, sent.mpr small, same⟩
  rw [← mem, found]

end Requests

/-- No copy of a region's own applications is lost to an earlier one exactly when each of them comes
at a network time no earlier than those of the copies before: what the last sync packet has set,
and the seconds since, do not go back. -/
theorem copies_kept_iff (parentDelay : UInt32) (time : Nat) (es : List Event) (s : Node) (r : Region)
    (ran : (node parentDelay time).run (.start time) es = some s)
    (own : ∀ p, .otherPut p ∈ es → ¬ p.Valid r) :
    NeverLost r s.answers ↔ (History.of parentDelay time es).Forward r :=
  (keeps_run es (keeps_start time) own ran).kept

/-- Two copies, with a sync packet that sets the network clock to a time between them. -/
def syncedBetween (now : UInt32) : List Event :=
  [.timeSync 100, .synced, .copy 0 [97], .placed, .timeSync now, .pass 1, .synced,
    .copy 0 [98], .placed, .paste 0 1]

theorem copies_kept_forward : ∃ s,
    (node 2 1000).run (.start 1000) (syncedBetween 100) = some s ∧
      NeverLost firstRegion s.answers := by
  have own (p : Put) : .otherPut p ∈ syncedBetween 100 → ¬ p.Valid firstRegion := by
    intro mine
    simp [syncedBetween] at mine
  refine ⟨_, rfl, (copies_kept_iff 2 1000 (syncedBetween 100) _ firstRegion rfl own).mpr ?_⟩
  decide

/-- A sync packet that sets the clock back by 50 seconds: the second copy is refused, and the paste
returns the first. -/
theorem copies_kept_set_back : ∃ s,
    (node 2 1000).run (.start 1000) (syncedBetween 50) = some s ∧
      s.answers = [.copied ⟨0, [97], 102⟩ 1, .copied ⟨0, [98], 53⟩ 0, .pasted 0 1 (some [97])] ∧
      ¬ NeverLost firstRegion s.answers := by
  refine ⟨_, rfl, rfl, fun kept => ?_⟩
  have accepted := kept [.copied ⟨0, [97], 102⟩ 1] (.copied ⟨0, [98], 53⟩ 0)
    [.pasted 0 1 (some [97])] rfl
  exact absurd (accepted (by decide)) (by decide)

end DistributedClipboard.Interfaces.LocalCopies
