/- module: DistributedClipboard/Thread/QueueMemory
   source: src/src/thread/queue.c
   layer: refinement
   digest: The nodes of the queue, who owns each, and the list the pointers stand for. -/

import DistributedClipboard.Thread.QueueLocks

set_option autoImplicit false
set_option relaxedAutoImplicit false

namespace DistributedClipboard.Thread.QueueMemory

open DistributedClipboard.Lib.Linked
open DistributedClipboard.Lib.Transition
open DistributedClipboard.Thread.Queue
open DistributedClipboard.Thread.QueueLocks

universe u v

inductive Owner (T : Type u)
  | free
  | caller (t : T)
  | queue
  | consumer

structure Shape (D : Type v) where
  linked : List (Addr × D)
  last : Option Addr
  count : Nat

section

variable {T : Type u} {D : Type v}

/-- The node a push has allocated and not yet handed over. -/
def node : Pc D → Option (Addr × D)
  | .lock a d | .test a d | .reject a d | .link a d | .setLast a d | .setFirst a d
  | .count a d => some (a, d)
  | _ => none

/-- The node at the front of the chain that `queue_pop` is unlinking. -/
def fronted : PopPc D → Option Addr
  | .advance a | .fixLast a | .count a => some a
  | _ => none

/-- The node that `queue_pop` has unlinked. -/
def taken : PopPc D → Option Addr
  | .unlock a | .read a | .free a _ => some a
  | _ => none

/-- The value on its way to the caller of `queue_pop`. -/
def inHand (heap : Addr → Option (Cell Addr D)) (pc : PopPc D) : List D :=
  ((taken pc).bind fun a => (heap a).map Cell.data).toList

def whole (chain : List (Addr × D)) : Shape D :=
  ⟨chain, chain.getLast?.map Prod.fst, chain.length⟩

def joined (chain : List (Addr × D)) (x : Addr × D) : List (Addr × D) :=
  if chain.isEmpty then [] else chain ++ [x]

def pushShape (chain : List (Addr × D)) : Pc D → Shape D
  | .setLast a d => ⟨joined chain (a, d), chain.getLast?.map Prod.fst, chain.length⟩
  | .setFirst a d => ⟨joined chain (a, d), some a, chain.length⟩
  | .count a d => ⟨chain ++ [(a, d)], some a, chain.length⟩
  | _ => whole chain

def popShape (chain : List (Addr × D)) : PopPc D → Shape D
  | .fixLast _ => ⟨chain.tail, chain.getLast?.map Prod.fst, chain.length⟩
  | .count _ => ⟨chain.tail, chain.tail.getLast?.map Prod.fst, chain.length⟩
  | _ => whole chain

def shape (s : State T D) (chain : List (Addr × D)) : Shape D :=
  match s.q.lock with
  | none => whole chain
  | some (.caller t) => pushShape chain (s.threads t).pc
  | some .consumer => popShape chain s.consumer

structure Fits (q : QueueVars T) (heap : Addr → Option (Cell Addr D)) (sh : Shape D) : Prop where
  linked : Chain heap q.first sh.linked
  last : q.last = sh.last
  count : q.nElements = UInt32.ofNat sh.count

structure Popper (own : Addr → Owner T) (chain : List (Addr × D)) (s : State T D) : Prop where
  taken : ∀ a, taken s.consumer = some a → own a = .consumer
  front : ∀ a, fronted s.consumer = some a →
    ∃ d rest, chain = (a, d) :: rest ∧ (s.heap a).map Cell.data = some d
  fixLast : ∀ a, s.consumer = .fixLast a → (s.heap a).map Cell.next = some s.q.first
  exit : s.consumer = .exitTest → s.q.nElements ≠ 0 ∨ s.q.terminate = true
  more : s.consumer = .take → chain ≠ []
  read : ∀ a d, s.consumer = .free a d → (s.heap a).map Cell.data = some d

/-- The cells of the queue, with their owners and the list the queue holds as ghosts. -/
structure Inv (own : Addr → Owner T) (chain : List (Addr × D)) (s : State T D) : Prop where
  fits : Fits s.q s.heap (shape s chain)
  nodup : (chain.map Prod.fst).Nodup
  free : ∀ a, own a = .free ↔ s.heap a = none
  queued : ∀ x ∈ chain, own x.1 = .queue
  pushed : ∀ t a d, node (s.threads t).pc = some (a, d) →
    own a = .caller t ∧ s.heap a = some ⟨none, d⟩
  popper : Popper own chain s
  contents : s.accepted.map Prod.snd = s.popped ++ inHand s.heap s.consumer ++ chain.map Prod.snd
  fault : s.fault = false

theorem fronted_of_outside {pc : PopPc D} (away : popInside pc = false) : fronted pc = none := by
  cases pc <;> first | rfl | cases away

variable {own : Addr → Owner T} {chain : List (Addr × D)} {s s' : State T D} {t : T} {a : Addr}
  {d : D}

theorem shape_caller (lock : s.q.lock = some (.caller t)) :
    shape s chain = pushShape chain (s.threads t).pc := by
  rw [shape, lock]

theorem shape_consumer (lock : s.q.lock = some .consumer) :
    shape s chain = popShape chain s.consumer := by
  rw [shape, lock]

theorem Inv.fits_caller (h : Inv own chain s) (lock : s.q.lock = some (.caller t)) :
    Fits s.q s.heap (pushShape chain (s.threads t).pc) := shape_caller lock ▸ h.fits

theorem Inv.fits_consumer (h : Inv own chain s) (lock : s.q.lock = some .consumer) :
    Fits s.q s.heap (popShape chain s.consumer) := shape_consumer lock ▸ h.fits

theorem Inv.not_fronted (h : Inv own chain s) (other : own a ≠ .queue) :
    fronted s.consumer ≠ some a := by
  intro here
  obtain ⟨d, rest, eq, _⟩ := h.popper.front a here
  exact other (h.queued (a, d) (by rw [eq]; exact List.mem_cons_self))

theorem Inv.not_queued (h : Inv own chain s) (other : own a ≠ .queue) :
    a ∉ chain.map Prod.fst := by
  intro mem
  obtain ⟨x, member, rfl⟩ := List.mem_map.mp mem
  exact other (h.queued x member)

variable [DecidableEq T]

attribute [local simp] State.setThread State.goto State.ret State.setCell State.fail State.setLock
  State.popGoto

theorem Inv.move {x : Caller D} (h : Inv own chain s) (lock : Option (Holder T))
    (keeps : ∀ y, node x.pc = some y → node (s.threads t).pc = some y)
    (same : shape ((s.setLock lock).setThread t x) chain = shape s chain) :
    Inv own chain ((s.setLock lock).setThread t x) where
  fits := by
    rw [same]
    exact ⟨h.fits.linked, h.fits.last, h.fits.count⟩
  nodup := h.nodup
  free := h.free
  queued := h.queued
  pushed u a d mine := by
    by_cases eq : u = t
    · subst eq
      exact h.pushed u a d (keeps _ (by simpa using mine))
    · exact h.pushed u a d (by simpa [eq] using mine)
  popper := ⟨h.popper.taken, h.popper.front, h.popper.fixLast, h.popper.exit, h.popper.more,
    h.popper.read⟩
  contents := h.contents
  fault := h.fault

theorem shape_setThread {x : Caller D}
    (same : pushShape chain x.pc = pushShape chain (s.threads t).pc) :
    shape (s.setThread t x) chain = shape s chain := by
  simp only [shape, State.setThread]
  split
  · rfl
  · rename_i u _
    by_cases eq : u = t
    · subst eq
      rw [Function.update_self, same]
    · rw [Function.update_of_ne eq]
  · rfl

theorem shape_held {x : Caller D} (lock : s.q.lock = some (.caller t)) :
    shape (s.setThread t x) chain = pushShape chain x.pc := by
  rw [shape_caller (s := s.setThread t x) (t := t) lock]
  simp

omit [DecidableEq T] in
theorem shape_popGoto {pc : PopPc D} (same : popShape chain pc = popShape chain s.consumer) :
    shape (s.popGoto pc) chain = shape s chain := by
  simp only [shape, State.popGoto]
  split
  · rfl
  · rfl
  · exact same

theorem Inv.goto {x : Caller D} (h : Inv own chain s)
    (keeps : ∀ y, node x.pc = some y → node (s.threads t).pc = some y)
    (same : pushShape chain x.pc = pushShape chain (s.threads t).pc) :
    Inv own chain (s.setThread t x) :=
  h.move s.q.lock keeps (shape_setThread same)

theorem Inv.lock {x : Caller D} (h : Inv own chain s) (free : s.q.lock = none)
    (keeps : ∀ y, node x.pc = some y → node (s.threads t).pc = some y)
    (new : pushShape chain x.pc = whole chain) :
    Inv own chain ((s.setLock (some (.caller t))).setThread t x) := by
  refine h.move _ keeps ?_
  simp [shape, free, new]

theorem Inv.unlock {x : Caller D} (h : Inv own chain s) (lock : s.q.lock = some (.caller t))
    (keeps : ∀ y, node x.pc = some y → node (s.threads t).pc = some y)
    (old : pushShape chain (s.threads t).pc = whole chain) :
    Inv own chain ((s.setLock none).setThread t x) := by
  refine h.move _ keeps ?_
  simp [shape, lock, old]

omit [DecidableEq T] in
theorem Inv.popMove {pc : PopPc D} (h : Inv own chain s) (lock : Option (Holder T))
    (hand : QueueMemory.taken pc = QueueMemory.taken s.consumer)
    (popper : Popper own chain ((s.setLock lock).popGoto pc))
    (same : shape ((s.setLock lock).popGoto pc) chain = shape s chain) :
    Inv own chain ((s.setLock lock).popGoto pc) where
  fits := by
    rw [same]
    exact ⟨h.fits.linked, h.fits.last, h.fits.count⟩
  nodup := h.nodup
  free := h.free
  queued := h.queued
  pushed := h.pushed
  popper := popper
  contents := by
    rw [inHand, State.popGoto, hand]
    exact h.contents
  fault := h.fault

omit [DecidableEq T] in
theorem Popper.plain (taken : QueueMemory.taken s.consumer = none)
    (front : fronted s.consumer = none) (exit : s.consumer ≠ .exitTest)
    (more : s.consumer ≠ .take) : Popper own chain s where
  taken a mine := by
    rw [taken] at mine
    cases mine
  front a mine := by
    rw [front] at mine
    cases mine
  fixLast a here := by
    rw [here] at front
    cases front
  exit here := absurd here exit
  more here := absurd here more
  read a d here := by
    rw [here] at taken
    cases taken

omit [DecidableEq T] in
theorem Inv.signal (h : Inv own chain s) : Inv own chain s.signal := by
  unfold State.signal
  split
  · rename_i blocked
    refine h.popMove s.q.lock ?_ ?_ (shape_popGoto ?_)
    · rw [blocked]
      rfl
    · refine Popper.plain rfl rfl ?_ ?_
      · simp
      · simp
    · rw [show (s.setLock s.q.lock).consumer = .blocked from blocked]
      rfl
  · exact h

omit [DecidableEq T] in
theorem Popper.setCell (h : Popper own chain s) (taken : QueueMemory.taken s.consumer ≠ some a)
    (front : fronted s.consumer ≠ some a) (c : Option (Cell Addr D)) :
    Popper own chain (s.setCell a c) ∧
      inHand (s.setCell a c).heap s.consumer = inHand s.heap s.consumer := by
  have same : ∀ b, b ≠ a → (s.setCell a c).heap b = s.heap b :=
    fun b apart => Function.update_of_ne apart ..
  have mine : ∀ b, QueueMemory.taken s.consumer = some b → b ≠ a := by
    rintro b here rfl
    exact taken here
  have ahead : ∀ b, fronted s.consumer = some b → b ≠ a := by
    rintro b here rfl
    exact front here
  constructor
  · refine ⟨h.taken, fun b here => ?_, fun b here => ?_, h.exit, h.more, fun b d here => ?_⟩
    · rw [same b (ahead b here)]
      exact h.front b here
    · have there : s.consumer = .fixLast b := here
      rw [same b (ahead b (by rw [there]; rfl))]
      exact h.fixLast b here
    · have there : s.consumer = .free b d := here
      rw [same b (mine b (by rw [there]; rfl))]
      exact h.read b d here
  · unfold inHand
    cases here : QueueMemory.taken s.consumer with
    | none => rfl
    | some b => rw [Option.bind_some, Option.bind_some, same b (mine b here)]

theorem Inv.write {x : Caller D} {c : Option (Cell Addr D)} {o : Owner T} (h : Inv own chain s)
    (consumer : own a ≠ .consumer) (front : fronted s.consumer ≠ some a)
    (queue : own a = .queue → o = .queue) (live : o = .free ↔ c = none)
    (others : ∀ u, u ≠ t → own a ≠ .caller u)
    (mine : ∀ b d, node x.pc = some (b, d) → Function.update own a o b = .caller t ∧
      Function.update s.heap a c b = some ⟨none, d⟩)
    (fits : Fits s.q (Function.update s.heap a c) (shape (s.setThread t x) chain)) :
    Inv (Function.update own a o) chain ((s.setCell a c).setThread t x) where
  fits := fits
  nodup := h.nodup
  free b := by
    by_cases eq : b = a
    · subst eq
      simpa using live
    · simpa [eq] using h.free b
  queued y member := by
    have here := h.queued y member
    by_cases eq : y.1 = a
    · rw [eq, Function.update_self]
      exact queue (eq ▸ here)
    · rw [Function.update_of_ne eq, here]
  pushed u b d theirs := by
    by_cases eq : u = t
    · subst eq
      exact mine b d (by simpa using theirs)
    · obtain ⟨owner, cell⟩ := h.pushed u b d (by simpa [eq] using theirs)
      have apart : b ≠ a := by
        rintro rfl
        exact others u eq owner
      simp [apart, owner, cell]
  popper := by
    have framed := (h.popper.setCell (fun here => consumer (h.popper.taken a here)) front c).1
    refine ⟨fun b there => ?_, framed.front, framed.fixLast, framed.exit, framed.more,
      framed.read⟩
    have owner := h.popper.taken b there
    have apart : b ≠ a := by
      rintro rfl
      exact consumer owner
    rw [Function.update_of_ne apart, owner]
  contents := by
    have framed := (h.popper.setCell (fun here => consumer (h.popper.taken a here)) front c).2
    rw [show inHand ((s.setCell a c).setThread t x).heap ((s.setCell a c).setThread t x).consumer =
      inHand s.heap s.consumer from framed]
    exact h.contents
  fault := h.fault

theorem Inv.malloc {x : Caller D} (h : Inv own chain s) (fresh : s.heap a = none)
    (pc : (s.threads t).pc = .malloc d) (next : x.pc = .lock a d) :
    Inv (Function.update own a (.caller t)) chain
      ((s.setCell a (some ⟨none, d⟩)).setThread t x) := by
  have unowned : own a = .free := (h.free a).mpr fresh
  have outside : a ∉ (shape s chain).linked.map Prod.fst := fun mem =>
    h.fits.linked.live_fst mem fresh
  have same : shape (s.setThread t x) chain = shape s chain := by
    refine shape_setThread ?_
    rw [next, pc]
    rfl
  refine h.write ?_ (h.not_fronted (by simp [unowned])) ?_ ?_ ?_ ?_ ?_
  · simp [unowned]
  · simp [unowned]
  · simp
  · simp [unowned]
  · intro b e mine
    rw [next] at mine
    cases mine
    simp
  · rw [same]
    exact ⟨h.fits.linked.frame outside _, h.fits.last, h.fits.count⟩

theorem Inv.reject {x : Caller D} (h : Inv own chain s) (lock : s.q.lock = some (.caller t))
    (pc : (s.threads t).pc = .reject a d) (next : x.pc = .idle) :
    Inv (Function.update own a .free) chain ((s.free a).setThread t x) := by
  obtain ⟨owner, cell⟩ := h.pushed t a d (by rw [pc]; rfl)
  have freed : s.free a = s.setCell a none := by
    rw [State.free, if_pos (by rw [cell]; rfl)]
  have outside : a ∉ chain.map Prod.fst := h.not_queued (by simp [owner])
  have fits := h.fits_caller lock
  rw [pc] at fits
  have whole : shape (s.setThread t x) chain = whole chain := by
    rw [shape_held lock, next]
    rfl
  rw [freed]
  refine h.write ?_ (h.not_fronted (by simp [owner])) ?_ ?_ ?_ ?_ ?_
  · simp [owner]
  · simp [owner]
  · simp
  · intro u apart
    simpa [owner] using Ne.symm apart
  · intro b e mine
    rw [next] at mine
    cases mine
  · rw [whole]
    exact ⟨fits.linked.frame outside _, fits.last, fits.count⟩

theorem Inv.link {x : Caller D} {l : Addr} {c : Cell Addr D} (h : Inv own chain s)
    (lock : s.q.lock = some (.caller t)) (away : popInside s.consumer = false)
    (pc : (s.threads t).pc = .link a d)
    (next : x.pc = .setLast a d) (last : s.q.last = some l) (cell : s.heap l = some c) :
    Inv own chain ((s.setCell l (some { c with next := some a })).setThread t x) := by
  obtain ⟨owner, new⟩ := h.pushed t a d (by rw [pc]; rfl)
  have fits := h.fits_caller lock
  rw [pc] at fits
  have lastCell : ∃ front e, chain = front ++ [(l, e)] := by
    have last' : s.q.last = chain.getLast?.map Prod.fst := fits.last
    rw [last] at last'
    obtain ⟨⟨l', e⟩, back, rfl⟩ := Option.map_eq_some_iff.mp last'.symm
    obtain ⟨front, eq⟩ := List.getLast?_eq_some_iff.mp back
    exact ⟨front, e, eq⟩
  obtain ⟨front, e, split⟩ := lastCell
  have member : (l, e) ∈ chain := by simp [split]
  have queued : own l = .queue := h.queued _ member
  have data : c.data = e := by
    obtain ⟨_, live⟩ := fits.linked.live member
    rw [cell] at live
    cases live
    rfl
  have outside : a ∉ chain.map Prod.fst := h.not_queued (by simp [owner])
  have kept : Function.update own l .queue = own := by
    rw [← queued]
    exact Function.update_eq_self l own
  have shaped : shape (s.setThread t x) chain = ⟨chain ++ [(a, d)], some l, chain.length⟩ := by
    rw [shape_held lock, next]
    simp [pushShape, joined, split]
  rw [← kept]
  refine h.write ?_ (by simp [fronted_of_outside away]) ?_ ?_ ?_ ?_ ?_
  · simp [queued]
  · simp
  · simp
  · simp [queued]
  · intro b f mine
    rw [next] at mine
    cases mine
    have apart : a ≠ l := by
      rintro rfl
      rw [owner] at queued
      cases queued
    simp [apart, owner, new]
  · rw [shaped]
    refine ⟨?_, last, fits.count⟩
    have linked : Chain s.heap s.q.first chain := fits.linked
    rw [split] at linked outside ⊢
    rw [data]
    exact linked.link new (split ▸ h.nodup) outside

theorem Inv.setQueue {q : QueueVars T} {x : Caller D} (h : Inv own chain s)
    (lock : q.lock = some (.caller t)) (away : popInside s.consumer = false)
    (keeps : ∀ y, node x.pc = some y → node (s.threads t).pc = some y)
    (fits : Fits q s.heap (pushShape chain x.pc)) :
    Inv own chain ({ s with q := q }.setThread t x) where
  fits := by
    rw [shape_held lock]
    exact fits
  nodup := h.nodup
  free := h.free
  queued := h.queued
  pushed u a d mine := by
    by_cases eq : u = t
    · subst eq
      exact h.pushed u a d (keeps _ (by simpa using mine))
    · exact h.pushed u a d (by simpa [eq] using mine)
  popper := by
    refine ⟨h.popper.taken, h.popper.front, fun b here => ?_, fun here => ?_, h.popper.more,
      h.popper.read⟩
    · rw [show s.consumer = .fixLast b from here] at away
      cases away
    · rw [show s.consumer = .exitTest from here] at away
      cases away
  contents := h.contents
  fault := h.fault

theorem Inv.setFirst {x : Caller D} (h : Inv own chain s) (lock : s.q.lock = some (.caller t))
    (away : popInside s.consumer = false) (pc : (s.threads t).pc = .setFirst a d)
    (next : x.pc = .count a d) :
    Inv own chain
      ({ s with q := { s.q with first := if s.q.first = none then some a else s.q.first } }.setThread
        t x) := by
  obtain ⟨_, new⟩ := h.pushed t a d (by rw [pc]; rfl)
  have fits := h.fits_caller lock
  rw [pc] at fits
  refine h.setQueue lock away ?_ ?_
  · rw [next, pc]
    exact fun _ mine => mine
  · rw [next]
    refine ⟨?_, fits.last, fits.count⟩
    have linked : Chain s.heap s.q.first (joined chain (a, d)) := fits.linked
    show Chain s.heap (if s.q.first = none then some a else s.q.first) (chain ++ [(a, d)])
    split
    · rename_i empty
      have none_left : joined chain (a, d) = [] := linked.nil_iff.mp empty
      have nil : chain = [] := by
        by_contra filled
        simp [joined, filled] at none_left
      rw [nil]
      exact .cons new .nil
    · rename_i filled
      have some_left : joined chain (a, d) ≠ [] := fun nil => filled (linked.nil_iff.mpr nil)
      have whole : joined chain (a, d) = chain ++ [(a, d)] := by
        unfold joined at some_left ⊢
        split at some_left
        · exact absurd rfl some_left
        · rename_i more
          rw [if_neg more]
      rwa [whole] at linked

theorem Inv.count {x : Caller D} (h : Inv own chain s) (lock : s.q.lock = some (.caller t))
    (away : popInside s.consumer = false) (pc : (s.threads t).pc = .count a d)
    (next : x.pc = .unlock d) :
    Inv (Function.update own a .queue) (chain ++ [(a, d)])
      ({ s with
        q := { s.q with nElements := s.q.nElements + 1 }
        accepted := s.accepted ++ [(t, d)] }.setThread t x) where
  fits := by
    have fits := h.fits_caller lock
    rw [pc] at fits
    rw [shape_held (s := { s with
      q := { s.q with nElements := s.q.nElements + 1 }
      accepted := s.accepted ++ [(t, d)] }) lock, next]
    refine ⟨fits.linked, ?_, ?_⟩
    · simpa [pushShape, whole] using fits.last
    · have before : s.q.nElements = UInt32.ofNat chain.length := fits.count
      simp [pushShape, whole, before, UInt32.ofNat_add]
  nodup := by
    obtain ⟨owner, _⟩ := h.pushed t a d (by rw [pc]; rfl)
    have outside : a ∉ chain.map Prod.fst := h.not_queued (by simp [owner])
    rw [List.map_append, List.map_singleton, ← List.concat_eq_append]
    exact h.nodup.concat outside
  free b := by
    obtain ⟨_, cell⟩ := h.pushed t a d (by rw [pc]; rfl)
    by_cases eq : b = a
    · subst eq
      simp [cell]
    · simpa [eq] using h.free b
  queued y member := by
    by_cases eq : y.1 = a
    · rw [eq, Function.update_self]
    · rw [Function.update_of_ne eq]
      rcases List.mem_append.mp member with before | new
      · exact h.queued y before
      · obtain rfl := List.mem_singleton.mp new
        exact absurd rfl eq
  pushed u b e mine := by
    obtain ⟨owner, _⟩ := h.pushed t a d (by rw [pc]; rfl)
    have other : u ≠ t := by
      rintro rfl
      simp [next, node] at mine
    obtain ⟨theirs, cell⟩ := h.pushed u b e (by simpa [other] using mine)
    have apart : b ≠ a := by
      rintro rfl
      rw [owner] at theirs
      cases theirs
      exact other rfl
    exact ⟨by rw [Function.update_of_ne apart, theirs], cell⟩
  popper := by
    obtain ⟨owner, _⟩ := h.pushed t a d (by rw [pc]; rfl)
    refine ⟨fun b there => ?_, fun b there => ?_, h.popper.fixLast, fun here => ?_, fun _ => by simp,
      h.popper.read⟩
    · have theirs := h.popper.taken b there
      have apart : b ≠ a := by
        rintro rfl
        rw [owner] at theirs
        cases theirs
      rw [Function.update_of_ne apart, theirs]
    · obtain ⟨e, rest, eq, data⟩ := h.popper.front b there
      exact ⟨e, rest ++ [(a, d)], by rw [eq, List.cons_append], data⟩
    · rw [show s.consumer = .exitTest from here] at away
      cases away
  contents := by
    show (s.accepted ++ [(t, d)]).map Prod.snd =
      s.popped ++ inHand s.heap s.consumer ++ (chain ++ [(a, d)]).map Prod.snd
    rw [List.map_append, List.map_append, h.contents, List.append_assoc _ _ (List.map _ _)]
    simp
  fault := h.fault

theorem Inv.callerStep {new : Option Addr} (h : Inv own chain s) (locks : Locks s)
    (edge : callerStep s t new = some s') :
    ∃ own' chain', Inv own' chain' s' ∧
      (chain' = chain ∨ ∃ a d, (s.threads t).pc = .count a d ∧ chain' = chain ++ [(a, d)]) := by
  have lock := locks.caller (t := t)
  have away : inside (s.threads t).pc = true → popInside s.consumer = false := by
    intro here
    by_contra there
    have mine := lock here
    rw [locks.consumer (by simpa using there)] at mine
    cases mine
  cases pc : (s.threads t).pc
  all_goals
    simp only [Queue.callerStep, pc] at edge
    rw [pc] at lock away
  case idle => cases edge
  case malloc d =>
    split at edge
    · cases edge
      exact ⟨own, chain, h.goto (by simp [node]) (by rw [pc]; rfl), .inl rfl⟩
    · split at edge
      · rename_i fresh
        cases edge
        exact ⟨_, chain, h.malloc fresh pc rfl, .inl rfl⟩
      · cases edge
  case lock a d =>
    split at edge
    · rename_i free
      cases edge
      exact ⟨own, chain, h.lock free (by simp [node, pc]) rfl, .inl rfl⟩
    · cases edge
  case test a d =>
    split at edge <;> cases edge
    · exact ⟨own, chain, h.goto (by simp [node, pc]) (by rw [pc]; rfl), .inl rfl⟩
    · exact ⟨own, chain, h.goto (by simp [node, pc]) (by rw [pc]; rfl), .inl rfl⟩
  case reject a d =>
    cases edge
    have same : (s.free a).ret t d (-1) =
        (s.free a).setThread t ⟨.idle, (s.threads t).returned ++ [(d, -1)]⟩ := by
      rw [State.ret, free_threads]
    rw [same]
    exact ⟨_, chain, h.reject (lock rfl) pc rfl, .inl rfl⟩
  case link a d =>
    have fits := h.fits_caller (lock rfl)
    rw [pc] at fits
    split at edge
    · rename_i last
      cases edge
      refine ⟨own, chain, h.goto (by simp [node, pc]) ?_, .inl rfl⟩
      have empty : chain = [] := by
        have last' : s.q.last = chain.getLast?.map Prod.fst := fits.last
        simpa [last] using last'.symm
      simp [pc, pushShape, empty, joined, whole]
    · rename_i l last
      split at edge
      · rename_i dead
        have last' : s.q.last = chain.getLast?.map Prod.fst := fits.last
        rw [last] at last'
        obtain ⟨y, back, rfl⟩ := Option.map_eq_some_iff.mp last'.symm
        have linked : Chain s.heap s.q.first chain := fits.linked
        exact absurd dead (linked.live_fst (List.mem_map_of_mem (List.mem_of_getLast? back)))
      · rename_i c cell
        cases edge
        exact ⟨own, chain, h.link (lock rfl) (away rfl) pc rfl last cell, .inl rfl⟩
  case setLast a d =>
    cases edge
    have fits := h.fits_caller (lock rfl)
    rw [pc] at fits
    exact ⟨own, chain, h.setQueue (lock rfl) (away rfl) (by simp [node, pc])
      ⟨fits.linked, rfl, fits.count⟩, .inl rfl⟩
  case setFirst a d =>
    have written := h.setFirst (x := ⟨.count a d, (s.threads t).returned⟩) (lock rfl) (away rfl) pc rfl
    split at edge
    · rename_i empty
      cases edge
      rw [if_pos empty] at written
      exact ⟨own, chain, written, .inl rfl⟩
    · rename_i filled
      cases edge
      rw [if_neg filled] at written
      exact ⟨own, chain, written, .inl rfl⟩
  case count a d =>
    cases edge
    exact ⟨_, _, h.count (lock rfl) (away rfl) pc rfl, .inr ⟨a, d, rfl, rfl⟩⟩
  case unlock d =>
    cases edge
    exact ⟨own, chain, h.unlock (lock rfl) (by simp [node]) (by rw [pc]; rfl), .inl rfl⟩
  case signal d =>
    cases edge
    exact ⟨own, chain, h.signal.goto (by simp [node]) (by simp [pc, pushShape]), .inl rfl⟩
  case lockTerminate =>
    split at edge
    · rename_i free
      cases edge
      exact ⟨own, chain, h.lock free (by simp [node]) rfl, .inl rfl⟩
    · cases edge
  case setTerminate =>
    cases edge
    have fits := h.fits_caller (lock rfl)
    rw [pc] at fits
    exact ⟨own, chain, h.setQueue (lock rfl) (away rfl) (by simp [node])
      ⟨fits.linked, fits.last, fits.count⟩, .inl rfl⟩
  case unlockTerminate =>
    cases edge
    exact ⟨own, chain, h.unlock (lock rfl) (by simp [node]) (by rw [pc]; rfl), .inl rfl⟩
  case signalTerminate =>
    cases edge
    exact ⟨own, chain, h.signal.goto (by simp [node]) (by simp [pc, pushShape]), .inl rfl⟩

section Pop

omit [DecidableEq T]

theorem Inv.popLock {pc : PopPc D} {lock : Option (Holder T)} (h : Inv own chain s)
    (hand : QueueMemory.taken pc = QueueMemory.taken s.consumer)
    (popper : Popper own chain ((s.setLock lock).popGoto pc))
    (old : shape s chain = whole chain) (new : shape ((s.setLock lock).popGoto pc) chain = whole chain) :
    Inv own chain ((s.setLock lock).popGoto pc) :=
  h.popMove lock hand popper (new.trans old.symm)

theorem Inv.popGoto {pc : PopPc D} (h : Inv own chain s)
    (hand : QueueMemory.taken pc = QueueMemory.taken s.consumer)
    (same : popShape chain pc = popShape chain s.consumer)
    (popper : Popper own chain (s.popGoto pc)) : Inv own chain (s.popGoto pc) :=
  h.popMove s.q.lock hand popper (shape_popGoto same)

theorem Inv.popQueue {q : QueueVars T} {pc : PopPc D} (h : Inv own chain s)
    (lock : q.lock = some .consumer) (hand : QueueMemory.taken pc = QueueMemory.taken s.consumer)
    (fits : Fits q s.heap (popShape chain pc))
    (popper : Popper own chain ({ s with q := q }.popGoto pc)) :
    Inv own chain ({ s with q := q }.popGoto pc) where
  fits := by
    have shaped : shape ({ s with q := q }.popGoto pc) chain = popShape chain pc := by
      simp [shape, lock]
    rw [shaped]
    exact fits
  nodup := h.nodup
  free := h.free
  queued := h.queued
  pushed := h.pushed
  popper := popper
  contents := by
    rw [inHand, State.popGoto, hand]
    exact h.contents
  fault := h.fault

theorem Inv.linked_owner {x : Addr × D} (h : Inv own chain s)
    (member : x ∈ (shape s chain).linked) : own x.1 ≠ .consumer := by
  have queued : ∀ l : List (Addr × D), l ⊆ chain → x ∈ l → own x.1 ≠ .consumer := by
    intro l sub mem
    rw [h.queued x (sub mem)]
    simp
  have pushed {t : T} {a : Addr} {d : D} (mine : node (s.threads t).pc = some (a, d))
      (mem : x ∈ chain ++ [(a, d)]) : own x.1 ≠ .consumer := by
    rcases List.mem_append.mp mem with old | new
    · exact queued chain (fun _ mem => mem) old
    · obtain rfl := List.mem_singleton.mp new
      rw [(h.pushed t a d mine).1]
      simp
  have joins {a : Addr} {d : D} (mem : x ∈ joined chain (a, d)) : x ∈ chain ++ [(a, d)] := by
    unfold joined at mem
    split at mem
    · exact absurd mem List.not_mem_nil
    · exact mem
  unfold shape at member
  split at member
  · exact queued chain (fun _ mem => mem) member
  · rename_i t _
    cases pc : (s.threads t).pc with
    | setLast a d | setFirst a d =>
      rw [pc] at member
      exact pushed (by rw [pc]; rfl) (joins member)
    | count a d =>
      rw [pc] at member
      exact pushed (by rw [pc]; rfl) member
    | _ =>
      rw [pc] at member
      exact queued chain (fun _ mem => mem) member
  · cases pc : s.consumer with
    | fixLast a | count a =>
      rw [pc] at member
      exact queued _ (fun _ mem => List.mem_of_mem_tail mem) member
    | _ =>
      rw [pc] at member
      exact queued chain (fun _ mem => mem) member

theorem last_iff {aux : Addr} {rest : List (Addr × D)}
    (nodup : (((aux, d) :: rest).map Prod.fst).Nodup) :
    ((aux, d) :: rest).getLast?.map Prod.fst = some aux ↔ rest = [] := by
  cases rest with
  | nil => simp
  | cons y rest =>
    rw [List.getLast?_cons_cons, List.map_cons, List.nodup_cons] at *
    refine ⟨fun same => ?_, fun nil => by cases nil⟩
    obtain ⟨z, back, eq⟩ := Option.map_eq_some_iff.mp same
    exact absurd (List.mem_map.mpr ⟨z, List.mem_of_getLast? back, eq⟩) nodup.1

theorem Inv.popCount {aux : Addr} {rest : List (Addr × D)} (h : Inv own ((aux, d) :: rest) s)
    (lock : s.q.lock = some .consumer) (pc : s.consumer = .count aux)
    (data : (s.heap aux).map Cell.data = some d) :
    Inv (Function.update own aux .consumer) rest
      ({ s with q := { s.q with nElements := s.q.nElements - 1 } }.popGoto (.unlock aux)) where
  fits := by
    have fits := h.fits_consumer lock
    rw [pc] at fits
    have shaped : shape ({ s with q := { s.q with nElements := s.q.nElements - 1 } }.popGoto
        (.unlock aux)) rest = whole rest := by simp [shape, lock, popShape]
    rw [shaped]
    refine ⟨fits.linked, fits.last, ?_⟩
    have before : s.q.nElements = UInt32.ofNat (rest.length + 1) := fits.count
    simp [whole, before, UInt32.ofNat_add]
  nodup := (List.nodup_cons.mp h.nodup).2
  free b := by
    by_cases eq : b = aux
    · subst eq
      have live : s.heap b ≠ none := by
        intro dead
        rw [dead] at data
        cases data
      simpa using live
    · simpa [eq] using h.free b
  queued y member := by
    have other : y.1 ≠ aux := by
      intro eq
      exact (List.nodup_cons.mp h.nodup).1 (List.mem_map.mpr ⟨y, member, eq⟩)
    rw [Function.update_of_ne other]
    exact h.queued y (List.mem_cons_of_mem _ member)
  pushed u b e mine := by
    obtain ⟨owner, cell⟩ := h.pushed u b e mine
    have other : b ≠ aux := by
      rintro rfl
      rw [h.queued (b, d) List.mem_cons_self] at owner
      cases owner
    exact ⟨by rw [Function.update_of_ne other, owner], cell⟩
  popper := by
    refine ⟨fun b here => ?_, by simp [fronted], by simp, by simp, by simp, by simp⟩
    cases here
    rw [Function.update_self]
  contents := by
    show s.accepted.map Prod.snd =
      s.popped ++ inHand s.heap (.unlock aux) ++ rest.map Prod.snd
    rw [h.contents, pc]
    simp [inHand, QueueMemory.taken, data]
  fault := h.fault

theorem Inv.popFree {aux : Addr} (h : Inv own chain s) (pc : s.consumer = .free aux d) :
    Inv (Function.update own aux .free) chain
      ({ s.free aux with popped := s.popped ++ [d] }.popGoto .outside) := by
  have owner := h.popper.taken aux (by rw [pc]; rfl)
  have data := h.popper.read aux d pc
  have freed : s.free aux = s.setCell aux none := by
    rw [State.free, if_pos]
    cases cell : s.heap aux with
    | none =>
      rw [cell] at data
      cases data
    | some c => rfl
  rw [freed]
  refine { fits := ?_, nodup := h.nodup, free := fun b => ?_, queued := fun y member => ?_,
           pushed := fun u b e mine => ?_, popper := ?_, contents := ?_, fault := h.fault }
  · have same : shape (s.popGoto .outside) chain = shape s chain := by
      refine shape_popGoto ?_
      rw [pc]
      rfl
    have outside : aux ∉ (shape s chain).linked.map Prod.fst := by
      intro mem
      obtain ⟨x, member, eq⟩ := List.mem_map.mp mem
      exact h.linked_owner member (eq ▸ owner)
    show Fits s.q (Function.update s.heap aux none) (shape (s.popGoto .outside) chain)
    rw [same]
    exact ⟨h.fits.linked.frame outside _, h.fits.last, h.fits.count⟩
  · by_cases eq : b = aux
    · subst eq
      simp
    · simpa [eq] using h.free b
  · have here := h.queued y member
    have other : y.1 ≠ aux := by
      intro eq
      rw [eq, owner] at here
      cases here
    rw [Function.update_of_ne other, here]
  · obtain ⟨theirs, cell⟩ := h.pushed u b e mine
    have other : b ≠ aux := by
      rintro rfl
      rw [owner] at theirs
      cases theirs
    exact ⟨by rw [Function.update_of_ne other, theirs], by simpa [other] using cell⟩
  · refine Popper.plain rfl rfl ?_ ?_
    · simp
    · simp
  · show s.accepted.map Prod.snd = s.popped ++ [d] ++ inHand (s.setCell aux none).heap .outside ++
      chain.map Prod.snd
    rw [h.contents, pc]
    simp [inHand, QueueMemory.taken, data]

theorem Inv.popStep (h : Inv own chain s) (locks : Locks s) (edge : popStep s = some s') :
    ∃ own' chain', Inv own' chain' s' ∧ (chain' = chain ∨ ∃ x, chain = x :: chain') := by
  have lock : popInside s.consumer = true → s.q.lock = some .consumer := locks.consumer
  cases pc : s.consumer
  all_goals
    simp only [Queue.popStep, pc] at edge
    rw [pc] at lock
  case outside | blocked | ended => cases edge
  case lock | relock =>
    split at edge <;> cases edge
    rename_i free
    refine ⟨own, chain, h.popLock (by rw [pc]; rfl) (Popper.plain rfl rfl ?_ ?_) ?_ rfl, .inl rfl⟩
    · simp
    · simp
    · simp [shape, free]
  case guard =>
    have whole : shape s chain = whole chain := by
      rw [shape_consumer (lock rfl), pc]
      rfl
    split at edge <;> cases edge
    · refine ⟨own, chain, h.popLock (by rw [pc]; rfl) (Popper.plain rfl rfl ?_ ?_) whole rfl, .inl rfl⟩
      · simp
      · simp
    · rename_i leave
      refine ⟨own, chain, h.popGoto (by rw [pc]; rfl) (by rw [pc]; rfl) ?_, .inl rfl⟩
      refine ⟨by simp [QueueMemory.taken], by simp [fronted], by simp, fun _ => ?_, by simp, by simp⟩
      by_contra stay
      simp only [not_or, ne_eq, not_not, Bool.not_eq_true] at stay
      exact leave stay
  case exitTest =>
    have fits := h.fits_consumer (lock rfl)
    rw [pc] at fits
    split at edge <;> cases edge
    · refine ⟨own, chain, h.popGoto (by rw [pc]; rfl) (by rw [pc]; rfl) (Popper.plain rfl rfl ?_ ?_),
        .inl rfl⟩
      · simp
      · simp
    · rename_i stay
      refine ⟨own, chain, h.popGoto (by rw [pc]; rfl) (by rw [pc]; rfl) ?_, .inl rfl⟩
      refine ⟨by simp [QueueMemory.taken], by simp [fronted], by simp, by simp, fun _ nil => ?_,
        by simp⟩
      have zero : s.q.nElements = 0 := by
        rw [show s.q.nElements = UInt32.ofNat chain.length from fits.count, nil]
        rfl
      rcases h.popper.exit pc with more | terminate
      · exact more zero
      · exact stay ⟨zero, terminate⟩
  case unlockNull =>
    cases edge
    refine ⟨own, chain, h.popLock (by rw [pc]; rfl) (Popper.plain rfl rfl ?_ ?_) ?_ rfl, .inl rfl⟩
    · simp
    · simp
    · rw [shape_consumer (lock rfl), pc]
      rfl
  case take =>
    have fits := h.fits_consumer (lock rfl)
    rw [pc] at fits
    have linked : Chain s.heap s.q.first chain := fits.linked
    split at edge <;> rename_i first <;> cases edge
    · exact absurd (linked.nil_iff.mp first) (h.popper.more pc)
    · rename_i aux
      rw [first] at linked
      obtain ⟨d, next, rest, cell, _, eq⟩ := linked.front
      refine ⟨own, chain, h.popGoto (by rw [pc]; rfl) (by rw [pc]; rfl) ?_, .inl rfl⟩
      refine ⟨by simp [QueueMemory.taken], fun b here => ?_, by simp, by simp, by simp, by simp⟩
      cases here
      exact ⟨d, rest, eq, by simp [cell]⟩
  case advance aux =>
    have fits := h.fits_consumer (lock rfl)
    rw [pc] at fits
    have linked : Chain s.heap s.q.first chain := fits.linked
    obtain ⟨d, rest, eq, data⟩ := h.popper.front aux (by rw [pc]; rfl)
    rw [eq] at linked
    cases first : s.q.first with
    | none =>
      rw [first] at linked
      cases linked
    | some a =>
      rw [first] at linked edge
      obtain ⟨e, next, rest', cell, behind, same⟩ := linked.front
      cases same
      rw [Option.bind_some, cell] at edge
      cases edge
      refine ⟨own, chain, h.popQueue (lock rfl) (by rw [pc]; rfl) ?_ ?_, .inl rfl⟩
      · refine ⟨?_, fits.last, fits.count⟩
        rw [eq]
        exact behind
      · refine ⟨by simp [QueueMemory.taken], fun b here => ?_, fun b here => ?_, by simp, by simp,
          by simp⟩
        · cases here
          exact ⟨_, rest, eq, data⟩
        · cases here
          simp [cell]
  case fixLast aux =>
    have fits := h.fits_consumer (lock rfl)
    rw [pc] at fits
    obtain ⟨d, rest, eq, data⟩ := h.popper.front aux (by rw [pc]; rfl)
    have next := h.popper.fixLast aux pc
    have alone := last_iff (eq ▸ h.nodup)
    have last : s.q.last = chain.getLast?.map Prod.fst := fits.last
    have popper {q : QueueVars T} : Popper own chain ({ s with q := q }.popGoto (.count aux)) := by
      refine ⟨by simp [QueueMemory.taken], fun b here => ?_, by simp, by simp, by simp, by simp⟩
      cases here
      exact ⟨d, rest, eq, data⟩
    rw [eq] at last
    split at edge
    · rename_i ends
      have nil : rest = [] := alone.mp (last ▸ ends.symm)
      split at edge
      · rename_i dead
        rw [dead] at data
        cases data
      · rename_i c cell
        cases edge
        refine ⟨own, chain, h.popQueue (lock rfl) (by rw [pc]; rfl) ?_ popper, .inl rfl⟩
        have linked : Chain s.heap s.q.first chain.tail := fits.linked
        refine ⟨linked, ?_, fits.count⟩
        rw [cell, Option.map_some, Option.some.injEq] at next
        rw [eq, List.tail_cons, nil] at linked
        show c.next = chain.tail.getLast?.map Prod.fst
        rw [next, eq, List.tail_cons, nil, linked.nil_iff.mpr rfl]
        rfl
    · rename_i goes_on
      cases edge
      refine ⟨own, chain, h.popQueue (lock rfl) (by rw [pc]; rfl) ?_ popper, .inl rfl⟩
      refine ⟨fits.linked, ?_, fits.count⟩
      show s.q.last = chain.tail.getLast?.map Prod.fst
      rw [eq, List.tail_cons, last]
      cases rest with
      | nil => exact absurd last.symm goes_on
      | cons y rest => rw [List.getLast?_cons_cons]
  case count aux =>
    cases edge
    obtain ⟨d, rest, eq, data⟩ := h.popper.front aux (by rw [pc]; rfl)
    subst eq
    exact ⟨_, rest, h.popCount (lock rfl) pc data, .inr ⟨(aux, d), rfl⟩⟩
  case unlock aux =>
    cases edge
    refine ⟨own, chain, h.popLock (by rw [pc]; rfl) ?_ ?_ rfl, .inl rfl⟩
    · refine ⟨fun b here => ?_, by simp [fronted], by simp, by simp, by simp, by simp⟩
      cases here
      exact h.popper.taken aux (by rw [pc]; rfl)
    · rw [shape_consumer (lock rfl), pc]
      rfl
  case read aux =>
    have mine := h.popper.taken aux (by rw [pc]; rfl)
    split at edge
    · rename_i dead
      have free := (h.free aux).mpr dead
      rw [mine] at free
      cases free
    · rename_i c cell
      cases edge
      refine ⟨own, chain, h.popGoto (by rw [pc]; rfl) (by rw [pc]; rfl) ?_, .inl rfl⟩
      refine ⟨fun b here => ?_, by simp [fronted], by simp, by simp, by simp, fun b e here => ?_⟩
      · cases here
        exact mine
      · cases here
        simp [cell]
  case free aux d =>
    cases edge
    exact ⟨_, chain, h.popFree pc, .inl rfl⟩

end Pop

theorem Inv.step {a : Label T D} (h : Inv own chain s) (locks : Locks s)
    (edge : Queue.step s a = some s') :
    ∃ own' chain', Inv own' chain' s' ∧ (chain'.length ≤ chain.length ∨
      ∃ t new b d, a = .next t new ∧ (s.threads t).pc = .count b d ∧
        chain' = chain ++ [(b, d)]) := by
  cases a with
  | next t new =>
    obtain ⟨own', chain', inv, same | ⟨b, d, pc, longer⟩⟩ := h.callerStep locks edge
    · exact ⟨own', chain', inv, .inl (Nat.le_of_eq (by rw [same]))⟩
    · exact ⟨own', chain', inv, .inr ⟨t, new, b, d, rfl, pc, longer⟩⟩
  | consume =>
    obtain ⟨own', chain', inv, same | ⟨x, shorter⟩⟩ := h.popStep locks edge
    · exact ⟨own', chain', inv, .inl (Nat.le_of_eq (by rw [same]))⟩
    · exact ⟨own', chain', inv, .inl (by rw [shorter, List.length_cons]; omega)⟩
  | push t d | terminate t =>
    simp only [Queue.step] at edge
    split at edge <;> cases edge
    rename_i idle
    exact ⟨own, chain, h.goto (by simp [node]) (by rw [idle]; rfl), .inl (Nat.le_refl _)⟩
  | pop | wake =>
    simp only [Queue.step] at edge
    split at edge <;> cases edge
    rename_i there
    exact ⟨own, chain, h.popGoto (by rw [there]; rfl) (by rw [there]; rfl)
      (Popper.plain rfl rfl (fun here => by cases here) (fun here => by cases here)),
      .inl (Nat.le_refl _)⟩

theorem inv_init : Inv (fun _ => .free) [] (queueSystem T D).init where
  fits := ⟨.nil, rfl, rfl⟩
  nodup := List.nodup_nil
  free _ := ⟨fun _ => rfl, fun _ => rfl⟩
  queued x member := absurd member List.not_mem_nil
  pushed _ _ _ mine := by cases mine
  popper := by
    refine Popper.plain rfl rfl ?_ ?_
    · simp [queueSystem]
    · simp [queueSystem]
  contents := rfl
  fault := rfl

/-- In every run the pointers and the count of the queue stand for a list, and nothing dead is
touched. -/
theorem inv_of_reach {ok : State T D → Label T D → Prop} (h : (queueSystem T D).Reach ok s) :
    ∃ own chain, Inv own chain s := by
  refine h.invariant_of (I := fun s => ∃ own chain, Inv own chain s)
    (fun t reach => locks_of_reach reach) ?_ ?_
  · exact ⟨fun _ => .free, [], inv_init⟩
  · rintro s a s' locks ⟨own, chain, inv⟩ _ edge
    obtain ⟨own', chain', inv', _⟩ := inv.step locks edge
    exact ⟨own', chain', inv'⟩

end

end DistributedClipboard.Thread.QueueMemory
