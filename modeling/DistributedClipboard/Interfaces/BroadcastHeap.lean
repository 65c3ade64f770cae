/- module: DistributedClipboard/Interfaces/BroadcastHeap
   source: src/src/interfaces/clipif.c, src/src/interfaces/appif.c
   layer: theorem
   digest: The packets on the heap have one owner each and stay as they were queued, in every run. -/

import DistributedClipboard.Interfaces.BroadcastSteps
import DistributedClipboard.Lib.Ownership

set_option autoImplicit false
set_option relaxedAutoImplicit false

namespace DistributedClipboard.Interfaces.BroadcastHeap

open DistributedClipboard.Common
open DistributedClipboard.Interfaces.Broadcasts
open DistributedClipboard.Interfaces.BroadcastSteps
open DistributedClipboard.Interfaces.Tables (Fd Slot)
open DistributedClipboard.Lib.Ownership
open DistributedClipboard.Lib.Transition

universe u

variable {T : Type u}

inductive Owner (T : Type u)
  | slave (t : T)
  | finalizer
  /-- The entry with this number. -/
  | entry (n : Nat)

def Owns (s : State T) : Owner T → Addr → Prop
  | .slave t, a => holds (s.threads t) = some a
  | .finalizer, a => bye s.finalize = some a
  | .entry n, a => ∃ msg ∈ pending s, msg.number = n ∧ msg.p = .heap a

def cells (s : State T) (a : Addr) : Option (List UInt8) := s.store (.heap a)

/-- Every packet on the heap has one owner, and the packet of an entry is what it was when the queue
accepted it. -/
structure HeapInv (s : State T) : Prop where
  owned : Owned (cells s) (Owns s)
  numbers : (pending s).Pairwise (·.number < ·.number)
  bound : ∀ msg ∈ pending s, msg.number < s.accepted.length
  kept : ∀ msg ∈ pending s, ∀ a, msg.p = .heap a → cells s a = s.accepted[msg.number]?
  clock : ∀ msg ∈ pending s, msg.p = .clock ↔ msg.fromFd = -1

variable {s s' : State T} {a : Addr} {o p : Owner T}

theorem owns_of (slaves : ∀ t a, holds (s'.threads t) = some a → holds (s.threads t) = some a)
    (finalizer : ∀ a, bye s'.finalize = some a → bye s.finalize = some a)
    (fewer : (pending s').Sublist (pending s)) {o : Owner T} {a : Addr} (h : Owns s' o a) :
    Owns s o a := by
  cases o with
  | slave t => exact slaves t a h
  | finalizer => exact finalizer a h
  | entry n =>
    obtain ⟨msg, member, number, place⟩ := h
    exact ⟨msg, fewer.subset member, number, place⟩

theorem HeapInv.shrink (h : HeapInv s) (owned : Owned (cells s') (Owns s'))
    (agree : ∀ msg ∈ pending s', ∀ a, msg.p = .heap a → cells s' a = cells s a)
    (accepted : s'.accepted = s.accepted) (fewer : (pending s').Sublist (pending s)) :
    HeapInv s' := by
  refine ⟨owned, h.numbers.sublist fewer, fun msg member => ?_, fun msg member a place => ?_,
    fun msg member => h.clock msg (fewer.subset member)⟩
  · rw [accepted]
    exact h.bound msg (fewer.subset member)
  · rw [agree msg member a place, accepted]
    exact h.kept msg (fewer.subset member) a place

theorem HeapInv.keep (h : HeapInv s) (store : cells s' = cells s)
    (accepted : s'.accepted = s.accepted) (fewer : (pending s').Sublist (pending s))
    (slaves : ∀ t a, holds (s'.threads t) = some a → holds (s.threads t) = some a)
    (finalizer : ∀ a, bye s'.finalize = some a → bye s.finalize = some a) : HeapInv s' := by
  refine h.shrink ?_ (fun _ _ a _ => congrFun store a) accepted fewer
  rw [store]
  exact h.owned.shrink fun o a => owns_of slaves finalizer fewer

theorem HeapInv.alloc {v : List UInt8} (h : HeapInv s) (dead : cells s a = none)
    (store : cells s' = Function.update (cells s) a (some v))
    (more : ∀ p b, Owns s' p b → Owns s p b ∨ p = o ∧ b = a)
    (accepted : s'.accepted = s.accepted) (same : pending s' = pending s) : HeapInv s' := by
  refine h.shrink (store ▸ h.owned.alloc dead more) ?_ accepted (same ▸ List.Sublist.refl _)
  intro msg member b place
  rw [store]
  refine Function.update_of_ne (h.owned.fresh (o := .entry msg.number) dead ?_) _ _
  exact ⟨msg, same ▸ member, rfl, place⟩

theorem HeapInv.write {v : List UInt8} {t : T} (h : HeapInv s) (mine : Owns s (.slave t) a)
    (store : cells s' = Function.update (cells s) a (some v)) (owns : Owns s' = Owns s)
    (accepted : s'.accepted = s.accepted) (same : pending s' = pending s) : HeapInv s' := by
  refine h.shrink ?_ ?_ accepted (same ▸ List.Sublist.refl _)
  · rw [store, owns]
    exact h.owned.write
  · intro msg member b place
    rw [store]
    refine Function.update_of_ne (h.owned.apart mine (p := .entry msg.number) ?_ (by simp)) _ _
    exact ⟨msg, same ▸ member, rfl, place⟩

theorem HeapInv.free (h : HeapInv s) (store : cells s' = Function.update (cells s) a none)
    (rest : ∀ p b, Owns s' p b → Owns s p b ∧ b ≠ a) (accepted : s'.accepted = s.accepted)
    (fewer : (pending s').Sublist (pending s)) : HeapInv s' := by
  refine h.shrink (store ▸ h.owned.free rest) ?_ accepted fewer
  intro msg member b place
  rw [store]
  exact Function.update_of_ne (rest (.entry msg.number) b ⟨msg, member, rfl, place⟩).2 _ _

theorem HeapInv.accept {place : Place} {fromFd : Int} (h : HeapInv s)
    (owned : Owned (cells s) (Owns s')) (store : s'.store = s.store)
    (more : pending s' = pending s ++ [⟨place, fromFd, s.accepted.length⟩])
    (accepted : s'.accepted = s.accepted ++ [s.read place])
    (live : ∀ a, place = .heap a → cells s a ≠ none) (clock : place = .clock ↔ fromFd = -1) :
    HeapInv s' := by
  have old : ∀ msg ∈ pending s, s'.accepted[msg.number]? = s.accepted[msg.number]? := by
    intro msg member
    rw [accepted, List.getElem?_append_left (h.bound msg member)]
  have unchanged : cells s' = cells s := by
    ext a : 1
    rw [cells, cells, store]
  constructor
  · exact unchanged ▸ owned
  · rw [more, List.pairwise_append]
    refine ⟨h.numbers, List.pairwise_singleton _ _, fun msg member new last => ?_⟩
    obtain rfl := List.mem_singleton.mp last
    exact h.bound msg member
  · intro msg member
    rw [more, List.mem_append] at member
    rw [accepted, List.length_append, List.length_singleton]
    obtain before | last := member
    · exact Nat.lt_succ_of_lt (h.bound msg before)
    · obtain rfl := List.mem_singleton.mp last
      exact Nat.lt_succ_self _
  · intro msg member a heap
    rw [more, List.mem_append] at member
    obtain before | last := member
    · rw [old msg before, unchanged]
      exact h.kept msg before a heap
    · obtain rfl := List.mem_singleton.mp last
      obtain rfl : place = .heap a := heap
      obtain ⟨v, stored⟩ := Option.ne_none_iff_exists'.mp (live a rfl)
      rw [cells] at stored ⊢
      rw [accepted, List.getElem?_append_right (Nat.le_refl _), Nat.sub_self, store, stored,
        State.read, stored]
      rfl
  · intro msg member
    rw [more, List.mem_append] at member
    obtain before | last := member
    · exact h.clock msg before
    · obtain rfl := List.mem_singleton.mp last
      exact clock

section Effects

theorem cells_heap (s : State T) (a : Addr) (bytes : Option (List UInt8)) :
    cells (s.setStore (.heap a) bytes) = Function.update (cells s) a bytes := by
  ext b : 1
  by_cases same : b = a
  · subst same
    simp [cells, State.setStore]
  · rw [Function.update_of_ne same]
    simp [cells, State.setStore, same]

theorem cells_clock (s : State T) (bytes : Option (List UInt8)) :
    cells (s.setStore .clock bytes) = cells s := by
  ext b : 1
  simp [cells, State.setStore]

theorem pending_accept (s : State T) (place : Place) (fromFd : Int) :
    pending (BroadcastSteps.accept s place fromFd) =
      pending s ++ [⟨place, fromFd, s.accepted.length⟩] := by
  simp [pending, BroadcastSteps.accept]

end Effects

section Run

variable [DecidableEq T] {verbose : Bool}

theorem holds_goto {t : T} {pc : SlavePc}
    (keeps : ∀ a, holds pc = some a → holds (s.threads t) = some a) (u : T) (a : Addr)
    (h : holds ((s.goto t pc).threads u) = some a) : holds (s.threads u) = some a := by
  by_cases same : u = t
  · subst same
    simp only [State.goto, Function.update_self] at h
    exact keeps a h
  · simp only [State.goto, Function.update_of_ne same] at h
    exact h

omit [DecidableEq T] in
theorem entry_of_more {place : Place} {fromFd : Int} {n : Nat} {b : Addr}
    (more : pending s' = pending s ++ [⟨place, fromFd, s.accepted.length⟩])
    (h : Owns s' (.entry n) b) :
    Owns s (.entry n) b ∨ n = s.accepted.length ∧ place = .heap b := by
  obtain ⟨msg, member, number, at_⟩ := h
  rw [more, List.mem_append] at member
  obtain before | last := member
  · exact .inl ⟨msg, before, number, at_⟩
  · obtain rfl := List.mem_singleton.mp last
    exact .inr ⟨number.symm, at_⟩

omit [DecidableEq T] in
theorem owned_handOver {fromFd : Int} (owned : Owned (cells s) (Owns s)) (mine : Owns s o a)
    (thread : ∀ n, o ≠ .entry n)
    (more : pending s' = pending s ++ [⟨.heap a, fromFd, s.accepted.length⟩])
    (slaves : ∀ t b, Owns s' (.slave t) b → Owns s (.slave t) b ∧ o ≠ .slave t)
    (finalizer : ∀ b, Owns s' .finalizer b → Owns s .finalizer b ∧ o ≠ .finalizer) :
    Owned (cells s) (Owns s') := by
  refine owned.handOver (p := .entry s.accepted.length) mine fun q b owns => ?_
  cases q with
  | slave u =>
    obtain ⟨theirs, other⟩ := slaves u b owns
    exact .inl ⟨theirs, owned.apart mine theirs other.symm⟩
  | finalizer =>
    obtain ⟨theirs, other⟩ := finalizer b owns
    exact .inl ⟨theirs, owned.apart mine theirs other.symm⟩
  | entry n =>
    obtain theirs | ⟨rfl, same⟩ := entry_of_more more owns
    · exact .inl ⟨theirs, owned.apart mine theirs (thread n).symm⟩
    · exact .inr ⟨rfl, (Place.heap.inj same).symm⟩

theorem HeapInv.broadcaster {ret : Option Nat} (h : HeapInv s)
    (change : Change s (.broadcaster ret) s') : HeapInv s' := by
  have frame := broadcasterFrame change
  have slaves : ∀ t a, holds (s'.threads t) = some a → holds (s.threads t) = some a := by
    rw [frame.threads]
    exact fun _ _ => id
  have finalizer : ∀ a, bye s'.finalize = some a → bye s.finalize = some a := by
    rw [frame.finalize]
    exact fun _ => id
  obtain same | ⟨msg, first, heap, freed⟩ := frame.store
  · refine h.keep ?_ frame.accepted frame.fewer slaves finalizer
    ext a : 1
    rw [cells, cells, same]
  · have numbers := h.numbers
    rw [first] at numbers
    cases place : msg.p with
    | clock => exact absurd ((h.clock msg (by simp [first])).mp place) heap
    | heap a =>
      have mine : Owns s (.entry msg.number) a := ⟨msg, by simp [first], rfl, place⟩
      have store : cells s' = Function.update (cells s) a none := by
        rw [place] at freed
        rw [← cells_heap s a none]
        ext b : 1
        rw [cells, cells, freed]
        rfl
      refine h.free store (fun p b owns => ?_) frame.accepted frame.fewer
      have theirs := owns_of slaves finalizer frame.fewer owns
      refine ⟨theirs, h.owned.apart mine theirs ?_⟩
      rintro rfl
      obtain ⟨other, later, same, -⟩ := owns
      have lower := List.rel_of_pairwise_cons numbers later
      omega

theorem HeapInv.step {label : Label T} (h : HeapInv s) (change : Change s label s') :
    HeapInv s' := by
  by_cases broadcaster : ∃ ret, label = .broadcaster ret
  · obtain ⟨ret, rfl⟩ := broadcaster
    exact h.broadcaster change
  have same := List.Sublist.refl (pending s)
  cases change with
  | pops | ends | sizes | skips | calls | passes | rounds | writes | returns | releases | leaves =>
    exact absurd ⟨_, rfl⟩ broadcaster
  | fails => exact h
  | allocates t kind sock a bytes pc dead =>
    refine h.alloc (o := .slave t) (v := bytes) dead (cells_heap _ _ _) ?_ rfl rfl
    intro p b owns
    cases p with
    | slave u =>
      by_cases same : u = t
      · subst same
        simp only [Owns, State.goto, Function.update_self, holds] at owns
        exact .inr ⟨rfl, (Option.some.inj owns).symm⟩
      · simp only [Owns, State.goto, Function.update_of_ne same] at owns
        exact .inl owns
    | finalizer => exact .inl owns
    | entry n => exact .inl owns
  | fills t bytes kind sock a pc =>
    exact h.write (t := t) (v := bytes) (by rw [Owns, pc]; rfl) (cells_heap _ _ _) rfl rfl rfl
  | short t pc keeps | completes t stored pc keeps =>
    exact h.keep rfl rfl same (holds_goto keeps) fun _ => id
  | accepted t room sock a pc opened =>
    have mine : Owns s (.slave t) a := by
      rw [Owns, pc]
      rfl
    have more : pending (BroadcastSteps.accept s (.heap a) sock) =
        pending s ++ [⟨.heap a, sock, s.accepted.length⟩] := pending_accept _ _ _
    refine h.accept (owned_handOver h.owned mine (by simp) more ?_ ?_) rfl more rfl ?_ (by simp)
    · intro u b owns
      by_cases same : u = t
      · subst same
        simp [Owns, State.goto, holds] at owns
      · have theirs : Owns s (.slave u) b := by
          simpa [Owns, State.goto, BroadcastSteps.accept, same] using owns
        exact ⟨theirs, by simp [Ne.symm same]⟩
    · exact fun b owns => ⟨owns, by simp⟩
    · rintro b same
      obtain rfl := Place.heap.inj same
      exact h.owned.live _ _ mine
  | refused t room sock a locked pc =>
    refine h.keep rfl rfl same (fun u b now => ?_) fun _ => id
    exact holds_goto (s := { s with locked := locked }) (by simp [pc, holds]) u b now
  | frees t a pc =>
    have mine : Owns s (.slave t) a := by
      rw [Owns, pc]
      rfl
    refine h.free (cells_heap _ _ _) (fun p b owns => ?_) rfl same
    cases p with
    | slave u =>
      by_cases same : u = t
      · subst same
        simp [Owns, State.goto, holds] at owns
      · have theirs : Owns s (.slave u) b := by
          simpa [Owns, State.goto, State.setStore, same] using owns
        exact ⟨theirs, h.owned.apart mine theirs (by simp [same])⟩
    | finalizer =>
      have theirs : Owns s .finalizer b := owns
      exact ⟨theirs, h.owned.apart mine theirs (by simp)⟩
    | entry n =>
      have theirs : Owns s (.entry n) b := owns
      exact ⟨theirs, h.owned.apart mine theirs (by simp)⟩
  | ticks | clockRefused | connect | disconnect =>
    exact h.keep rfl rfl same (fun _ _ => id) fun _ => id
  | stamps now =>
    exact h.keep (cells_clock s (some (stamped now))) rfl same (fun _ _ => id) fun _ => id
  | clockEnds => exact h.keep (cells_clock s none) rfl same (fun _ _ => id) fun _ => id
  | orphan time =>
    exact h.keep (cells_clock s (some (stamped time))) rfl same (fun _ _ => id) fun _ => id
  | clockAccepted now room pc opened =>
    have more := pending_accept s .clock (-1)
    refine h.accept (h.owned.shrink fun o b owns => ?_) rfl more rfl (by simp) (by simp)
    cases o with
    | slave u => exact owns
    | finalizer => exact owns
    | entry n =>
      obtain before | ⟨-, no⟩ := entry_of_more (s := s) more owns
      · exact before
      · cases no
  | prepares new room pc dead =>
    refine h.alloc (o := .finalizer) (v := LinkCodec.goodbye) dead (cells_heap _ _ _) ?_ rfl rfl
    intro p b owns
    cases p with
    | slave u => exact .inl owns
    | finalizer => exact .inr ⟨rfl, (Option.some.inj owns).symm⟩
    | entry n => exact .inl owns
  | byeAccepted new room a pc opened =>
    have mine : Owns s .finalizer a := by
      rw [Owns, pc]
      rfl
    have more := pending_accept s (.heap a) 0
    refine h.accept (owned_handOver h.owned mine (by simp) more ?_ ?_) rfl more rfl ?_ (by simp)
    · exact fun u b owns => ⟨owns, by simp⟩
    · intro b owns
      cases owns
    · rintro b same
      obtain rfl := Place.heap.inj same
      exact h.owned.live _ _ mine
  | byeRefused new room a locked pc =>
    exact h.keep rfl rfl same (fun _ _ => id) fun b now => by cases now
  | finalizes new room root cancelClock terminate pc before after child closed =>
    refine h.keep rfl rfl same (fun _ _ => id) fun b now => ?_
    change bye pc = some b at now
    cases pc with
    | idle | push => cases after
    | role | joinClock | terminate | joinMaster | slaves => cases now

theorem heap_of_reach {parent : Fd} {time : UInt32} {ok : State T → Label T → Prop}
    (h : (broadcasts verbose T parent time).Reach ok s) : HeapInv s := by
  refine h.invariant ?_ fun s a t known _ edge => known.step (change_of_step edge)
  have none : pending (broadcasts verbose T parent time).init = [] := rfl
  have unowned : ∀ o a, ¬ Owns (broadcasts verbose T parent time).init o a := by
    intro o a owns
    cases o with
    | slave t => cases owns
    | finalizer => cases owns
    | entry n =>
      obtain ⟨msg, member, -⟩ := owns
      cases member
  constructor
  · exact ⟨fun o a owns => absurd owns (unowned o a), fun o p a owns => absurd owns (unowned o a)⟩
  · exact List.Pairwise.nil
  · simp [none]
  · simp [none]
  · simp [none]

end Run

end DistributedClipboard.Interfaces.BroadcastHeap
