/- module: DistributedClipboard/Network/Joining
   source: src/src/interfaces/clipif.c, src/src/interfaces/appif.c, src/src/mem/clmem.c
   layer: theorem
   digest: Clipboards that connect and disconnect while copies are under way, and who gets a new copy. -/

import DistributedClipboard.Network.BrokenLinks

set_option autoImplicit false
set_option relaxedAutoImplicit false

namespace DistributedClipboard.Network.Joining

open DistributedClipboard.Common
open DistributedClipboard.Lib.Transition
open DistributedClipboard.Mem.Clmem
open DistributedClipboard.Network.BrokenLinks (covered_of_put)
open DistributedClipboard.Network.Conservation
open DistributedClipboard.Network.Convergence (held)
open DistributedClipboard.Network.Delivery
open DistributedClipboard.Network.Flood hiding State Label step broadcastStep Forwards
open DistributedClipboard.Network.Quiescence (issued_of_issue)
open DistributedClipboard.Utils.Packet

universe u

/-- The clipboards, whom each has in its table, and the connections that carry nothing any more from
their first end to their second. -/
structure State (V : Type u) where
  net : Flood.State V
  listed : V → V → Bool
  broken : V → V → Bool

inductive Label (V : Type u)
  | move (a : Flood.Label V)
  /-- `clipif_listen` or `clipif_init` of `u` enters the connection with `v`. -/
  | connect (u v : V)
  | cut (u v : V)
  deriving DecidableEq, Repr

variable {V : Type u} [DecidableEq V]

def Forwards (listed : V → V → Bool) (v w : V) (b : Broadcast V) : Prop :=
  listed v w = true ∧ b.fromPeer ≠ .clip w ∧ b.p.sendable = true

instance (listed : V → V → Bool) (v w : V) (b : Broadcast V) : Decidable (Forwards listed v w b) :=
  inferInstanceAs (Decidable (_ ∧ _ ∧ _))

/-- One turn of `clipif_broadcast`, with the connections that are in the table now. -/
def broadcastStep (listed : V → V → Bool) (s : Flood.State V) (v : V) : Option (Flood.State V) :=
  match (s.node v).queue with
  | [] => none
  | b :: rest =>
    some { s.setNode v { s.node v with queue := rest, passed := (s.node v).passed ++ [b] } with
      link := fun a w => if a = v ∧ Forwards listed v w b then s.link a w ++ [b.p] else s.link a w
      sent := fun w x =>
        if x = .clip v ∧ Forwards listed v w b then s.sent w x ++ [b.p] else s.sent w x }

def moveStep (s : State V) : Flood.Label V → Option (Flood.State V)
  | .issue v k region data stamp => issueStep s.net v k region data stamp
  | .receive v u =>
    if s.listed v u = true ∧ s.broken u v = false then receiveStep s.net v u else none
  | .put v x => putStep s.net v x
  | .push v x => pushStep s.net v x
  | .broadcast v => broadcastStep s.listed s.net v

/-- Two clipboards connect once: a clipboard that has ended and starts again is another one. -/
def step (s : State V) : Label V → Option (State V)
  | .move a => (moveStep s a).map fun net => { s with net }
  | .connect u v =>
    if s.listed u v then none
    else some { s with listed := fun a w => s.listed a w || decide (a = u ∧ w = v) }
  | .cut u v => some { s with broken := fun a w => s.broken a w || decide (a = u ∧ w = v) }

/-- Clipboards that have started and not connected to each other. -/
def network : System (State V) (Label V) where
  init := ⟨⟨fun _ => nodeInit, fun _ _ => [], fun _ _ => [], []⟩, fun _ _ => false, fun _ _ => false⟩
  step := step

/-- The clipboard has called `mem_put` with the copy. -/
def Placed (s : Flood.State V) (v : V) (p : Packet) : Prop := ∃ q ∈ (s.node v).puts, q.p = p

def Issued (s : Flood.State V) (p : Packet) : Prop := ∃ i ∈ s.issued, i.p = p

/-- What a step does to packets: where a packet that is somewhere afterwards was before, and where one
that was somewhere before is afterwards. -/
structure Moved (listed : V → V → Bool) (s s' : Flood.State V) : Prop where
  issues : s.issued.length ≤ s'.issued.length ∧ ∀ i ∈ s.issued, i ∈ s'.issued
  toIssued : ∀ i ∈ s'.issued, i ∈ s.issued ∨
    i.p.id = s.issued.length ∧ s.issued.length < s'.issued.length ∧
      (i.p.received = true → (s'.node i.node).slave (.app i.app) = .received i.p)
  puts : ∀ v, ∀ q ∈ (s.node v).puts, q ∈ (s'.node v).puts
  toPuts : ∀ v, ∀ q ∈ (s'.node v).puts, q ∈ (s.node v).puts ∨
    (s.node v).slave q.via = .received q.p ∧
      (q.accepted = true → (s'.node v).slave q.via = .placed q.p)
  stored : ∀ v, Stored (s.node v) → Stored (s'.node v)
  toReceived : ∀ v x p, (s'.node v).slave x = .received p →
    (s.node v).slave x = .received p ∨ (∃ k, x = .app k ∧ Issued s' p) ∨
      ∃ u, x = .clip u ∧ p ∈ s.link u v
  toPlaced : ∀ v x p, (s'.node v).slave x = .placed p →
    (s.node v).slave x = .placed p ∨ Placed s' v p
  toQueue : ∀ v b, b ∈ (s'.node v).queue →
    b ∈ (s.node v).queue ∨ (s.node v).slave b.fromPeer = .placed b.p
  toLink : ∀ u v p, p ∈ s'.link u v → p ∈ s.link u v ∨ ∃ b ∈ (s.node u).queue, b.p = p
  received : ∀ v x p, (s.node v).slave x = .received p →
    (s'.node v).slave x = .received p ∨ Placed s' v p
  placed : ∀ v x p, (s.node v).slave x = .placed p →
    (s'.node v).slave x = .placed p ∨ ⟨p, x⟩ ∈ (s'.node v).queue
  queue : ∀ v b, b ∈ (s.node v).queue →
    b ∈ (s'.node v).queue ∨ ∀ w, Forwards listed v w b → b.p ∈ s'.link v w
  link : ∀ u v p, p ∈ s.link u v → p.received = true →
    p ∈ s'.link u v ∨ (s'.node v).slave (.clip u) = .received p

section Moves

variable {listed : V → V → Bool} {s s' : Flood.State V}

variable {v : V} {x : Peer V}

/-- The parts of a state in which nothing but these changes: the state of one slave of `v`, and `v`'s
calls of `mem_put` and queue. -/
structure Turns (s s' : Flood.State V) (v : V) (x : Peer V) (st : SlaveState) (puts : List (Put V))
    (queue : List (Broadcast V)) : Prop where
  slave : ∀ w y, (s'.node w).slave y = if w = v ∧ y = x then st else (s.node w).slave y
  puts : ∀ w, (s'.node w).puts = if w = v then (s.node w).puts ++ puts else (s.node w).puts
  queue : ∀ w, (s'.node w).queue = if w = v then queue else (s.node w).queue

theorem turns_setNode {st : SlaveState} {puts : List (Put V)} {queue : List (Broadcast V)}
    {n : Node V} (node : s'.node = (s.setNode v n).node)
    (slave : n.slave = Function.update (s.node v).slave x st)
    (called : n.puts = (s.node v).puts ++ puts) (queued : n.queue = queue) :
    Turns s s' v x st puts queue := by
  constructor
  all_goals
    intro w
    rw [node]
    by_cases here : w = v
  · subst here
    intro y
    rw [setNode_self, slave]
    by_cases same : y = x
    · rw [same, Function.update_self, if_pos ⟨rfl, rfl⟩]
    · rw [Function.update_of_ne same, if_neg fun both => same both.2]
  · intro y
    rw [setNode_of_ne here, if_neg fun both => here both.1]
  · subst here
    rw [setNode_self, called, if_pos rfl]
  · rw [setNode_of_ne here, if_neg here]
  · subst here
    rw [setNode_self, queued, if_pos rfl]
  · rw [setNode_of_ne here, if_neg here]

theorem stored_setNode {w : V} {n : Node V} (new : Stored (s.node v) → Stored n)
    (h : Stored (s.node w)) : Stored ((s.setNode v n).node w) := by
  by_cases here : w = v
  · subst here
    rw [setNode_self]
    exact new h
  · rwa [setNode_of_ne here]

theorem moved_put (edge : putStep s v x = some s') : Moved listed s s' := by
  unfold putStep at edge
  split at edge
  case h_2 => cases edge
  case h_1 p state =>
    have views : Turns s s' v x (if (p.put (s.node v).store).1 = 0 then .idle else .placed p)
        [⟨p, x, decide ((p.put (s.node v).store).1 ≠ 0)⟩] (s.node v).queue := by
      cases edge
      exact turns_setNode rfl rfl rfl rfl
    have stored : ∀ w, Stored (s.node w) → Stored (s'.node w) := by
      cases edge
      exact fun w => stored_setNode fun h => h.put rfl rfl
    have issued : s'.issued = s.issued := by cases edge; rfl
    have link : s'.link = s.link := by cases edge; rfl
    clear edge
    obtain ⟨slave, puts, queue⟩ := views
    have new : Placed s' v p := by
      refine ⟨⟨p, x, decide ((p.put (s.node v).store).1 ≠ 0)⟩, ?_, rfl⟩
      rw [puts, if_pos rfl]
      exact List.mem_append_right _ List.mem_cons_self
    constructor
    case stored => exact stored
    case issues | toIssued | puts | toPuts | toReceived | toPlaced | toQueue | received | placed
      | queue | toLink | link => grind

theorem moved_push (edge : pushStep s v x = some s') : Moved listed s s' := by
  unfold pushStep at edge
  split at edge
  case h_2 => cases edge
  case h_1 p state =>
    have views : Turns s s' v x .idle [] ((s.node v).queue ++ [⟨p, x⟩]) := by
      cases edge
      exact turns_setNode rfl rfl (List.append_nil _).symm rfl
    have stored : ∀ w, Stored (s.node w) → Stored (s'.node w) := by
      cases edge
      exact fun w => stored_setNode fun h => ⟨h.rejected, h.accepted, h.origin⟩
    have issued : s'.issued = s.issued := by cases edge; rfl
    have link : s'.link = s.link := by cases edge; rfl
    clear edge
    obtain ⟨slave, puts, queue⟩ := views
    constructor
    case stored => exact stored
    case issues | toIssued | puts | toPuts | toReceived | toPlaced | toQueue | received | placed
      | queue | toLink | link => grind

theorem moved_issue {k : Fin maxApps} {region : UInt8} {data : List UInt8} {stamp : UInt32}
    (edge : issueStep s v k region data stamp = some s') : Moved listed s s' := by
  simp only [issueStep] at edge
  generalize packet : (⟨s.issued.length, region, data, stamp⟩ : Packet) = p at edge
  have number : p.id = s.issued.length := by rw [← packet]
  split at edge
  case isFalse => cases edge
  case isTrue free =>
    have idle := free.1
    have stored : ∀ w, Stored (s.node w) → Stored (s'.node w) := by
      split at edge <;> cases edge
      · exact fun w => stored_setNode fun h => ⟨h.rejected, h.accepted, h.origin⟩
      · exact fun _ => id
    have issued : s'.issued = s.issued ++ [⟨v, k, p⟩] := by split at edge <;> cases edge <;> rfl
    have link : s'.link = s.link := by split at edge <;> cases edge <;> rfl
    split at edge
    case isTrue whole =>
      have views : Turns s s' v (.app k) (.received p) [] (s.node v).queue := by
        cases edge
        exact turns_setNode rfl rfl (List.append_nil _).symm rfl
      have new : Issued s' p := ⟨⟨v, k, p⟩, by simp [issued], rfl⟩
      clear edge
      obtain ⟨slave, puts, queue⟩ := views
      constructor
      case stored => exact stored
      case issues | toIssued | puts | toPuts | toReceived | toPlaced | toQueue | received | placed
        | queue | toLink | link => grind
    case isFalse short =>
      have node : s'.node = s.node := by cases edge; rfl
      clear edge
      constructor
      case stored => exact stored
      case issues | toIssued | puts | toPuts | toReceived | toPlaced | toQueue | received | placed
        | queue | toLink | link => grind

theorem moved_receive {u : V} (edge : receiveStep s v u = some s') : Moved listed s s' := by
  unfold receiveStep at edge
  split at edge
  case h_2 => cases edge
  case h_1 p rest idle next =>
    have issued : s'.issued = s.issued := by
      simp only [Option.some.injEq] at edge
      split at edge <;> cases edge <;> rfl
    have link : ∀ a w, s'.link a w = if a = u ∧ w = v then rest else s.link a w := by
      simp only [Option.some.injEq] at edge
      split at edge <;> cases edge <;> exact fun _ _ => rfl
    simp only [Option.some.injEq] at edge
    split at edge
    case isTrue whole =>
      have views : Turns s s' v (.clip u) (.received p) [] (s.node v).queue := by
        cases edge
        exact turns_setNode rfl rfl (List.append_nil _).symm rfl
      have stored : ∀ w, Stored (s.node w) → Stored (s'.node w) := by
        cases edge
        exact fun w => stored_setNode fun h => ⟨h.rejected, h.accepted, h.origin⟩
      clear edge
      obtain ⟨slave, puts, queue⟩ := views
      constructor
      case stored => exact stored
      case issues | toIssued | puts | toPuts | toReceived | toPlaced | toQueue | received | placed
        | queue | toLink | link => grind
    case isFalse short =>
      have node : s'.node = s.node := by cases edge; rfl
      clear edge
      constructor
      case stored =>
        intro w
        rw [node]
        exact id
      case issues | toIssued | puts | toPuts | toReceived | toPlaced | toQueue | received | placed
        | queue | toLink | link => grind

theorem moved_broadcast (edge : broadcastStep listed s v = some s') : Moved listed s s' := by
  unfold broadcastStep at edge
  split at edge
  case h_1 => cases edge
  case h_2 b rest next =>
    have views : Turns s s' v (.clip v) ((s.node v).slave (.clip v)) [] rest := by
      cases edge
      exact turns_setNode rfl (Function.update_eq_self _ _).symm (List.append_nil _).symm rfl
    have stored : ∀ w, Stored (s.node w) → Stored (s'.node w) := by
      cases edge
      exact fun w => stored_setNode fun h => ⟨h.rejected, h.accepted, h.origin⟩
    have issued : s'.issued = s.issued := by cases edge; rfl
    have link : ∀ a w, s'.link a w =
        if a = v ∧ Forwards listed v w b then s.link a w ++ [b.p] else s.link a w := by
      cases edge
      exact fun _ _ => rfl
    clear edge
    obtain ⟨slave, puts, queue⟩ := views
    constructor
    case stored => exact stored
    case issues | toIssued | puts | toPuts | toReceived | toPlaced | toQueue | received | placed
      | queue | toLink | link => grind

theorem moved_of_move {s : State V} {a : Flood.Label V} (edge : moveStep s a = some s') :
    Moved s.listed s.net s' := by
  cases a with
  | issue v k region data stamp => exact moved_issue edge
  | receive v u =>
    simp only [moveStep, Option.ite_none_right_eq_some] at edge
    exact moved_receive edge.2
  | put v x => exact moved_put edge
  | push v x => exact moved_push edge
  | broadcast v => exact moved_broadcast edge

omit [DecidableEq V] in
theorem Moved.refl (s : Flood.State V) : Moved listed s s where
  issues := ⟨Nat.le_refl _, fun _ => id⟩
  toIssued _ := .inl
  puts _ _ := id
  toPuts _ _ := .inl
  stored _ := id
  toReceived _ _ _ := .inl
  toPlaced _ _ _ := .inl
  toQueue _ _ := .inl
  toLink _ _ _ := .inl
  received _ _ _ := .inl
  placed _ _ _ := .inl
  queue _ _ := .inl
  link _ _ _ mine _ := .inl mine

theorem moved_of_step {s s' : State V} {a : Label V} (edge : step s a = some s') :
    Moved s.listed s.net s'.net ∧ (∀ u v, s.listed u v = true → s'.listed u v = true) ∧
      ∀ u v, s.broken u v = true → s'.broken u v = true := by
  cases a with
  | move a =>
    obtain ⟨net, goes, rfl⟩ := Option.map_eq_some_iff.mp edge
    exact ⟨moved_of_move goes, fun _ _ => id, fun _ _ => id⟩
  | connect u v =>
    simp only [step] at edge
    split at edge <;> cases edge
    exact ⟨.refl _, fun a w old => by simp [old], fun _ _ => id⟩
  | cut u v =>
    cases edge
    exact ⟨.refl _, fun _ _ => id, fun a w old => by simp [old]⟩

omit [DecidableEq V] in
theorem Placed.step {p : Packet} (moved : Moved listed s s') (h : Placed s v p) : Placed s' v p := by
  obtain ⟨q, put, same⟩ := h
  exact ⟨q, moved.puts v q put, same⟩

omit [DecidableEq V] in
theorem Issued.step {p : Packet} (moved : Moved listed s s') (h : Issued s p) : Issued s' p := by
  obtain ⟨i, issued, same⟩ := h
  exact ⟨i, moved.issues.2 i issued, same⟩

end Moves

section Traces

variable {listed : V → V → Bool} {s s' : Flood.State V}

/-- Where packets come from: nothing is received from a clipboard that has not placed it, nothing is
placed that has not been issued, and an issued packet gets to a slave. -/
structure Traced (s : Flood.State V) : Prop where
  numbered : ∀ i ∈ s.issued, i.p.id < s.issued.length
  entered : ∀ i ∈ s.issued, i.p.received = true →
    (s.node i.node).slave (.app i.app) = .received i.p ∨ Placed s i.node i.p
  puts : ∀ v, ∀ q ∈ (s.node v).puts, Issued s q.p ∧ ∀ u, q.via = .clip u → Placed s u q.p
  received : ∀ v x p, (s.node v).slave x = .received p →
    Issued s p ∧ ∀ u, x = .clip u → Placed s u p
  placed : ∀ v x p, (s.node v).slave x = .placed p → Placed s v p
  queue : ∀ v, ∀ b ∈ (s.node v).queue, Placed s v b.p
  link : ∀ u v, ∀ p ∈ s.link u v, Placed s u p

omit [DecidableEq V] in
theorem Traced.step (traced : Traced s) (moved : Moved listed s s') : Traced s' := by
  have issued_of_placed {v : V} {p : Packet} (h : Placed s v p) : Issued s p := by
    obtain ⟨q, put, rfl⟩ := h
    exact (traced.puts v q put).1
  constructor
  case numbered =>
    intro i mine
    have more := moved.issues.1
    rcases moved.toIssued i mine with old | ⟨number, more, _⟩
    · have before := traced.numbered i old
      omega
    · omega
  case entered =>
    intro i mine whole
    rcases moved.toIssued i mine with old | ⟨_, _, received⟩
    · rcases traced.entered i old whole with waits | put
      · exact moved.received _ _ _ waits
      · exact .inr (put.step moved)
    · exact .inl (received whole)
  case puts =>
    intro v q mine
    rcases moved.toPuts v q mine with old | ⟨received, _⟩
    · obtain ⟨issued, came⟩ := traced.puts v q old
      exact ⟨issued.step moved, fun u via => (came u via).step moved⟩
    · obtain ⟨issued, came⟩ := traced.received v q.via q.p received
      exact ⟨issued.step moved, fun u via => (came u via).step moved⟩
  case received =>
    intro v x p state
    rcases moved.toReceived v x p state with old | ⟨k, rfl, issued⟩ | ⟨u, rfl, sent⟩
    · obtain ⟨issued, came⟩ := traced.received v x p old
      exact ⟨issued.step moved, fun u via => (came u via).step moved⟩
    · exact ⟨issued, fun u via => by cases via⟩
    · have put := traced.link u v p sent
      refine ⟨(issued_of_placed put).step moved, fun w via => ?_⟩
      cases via
      exact put.step moved
  case placed =>
    intro v x p state
    rcases moved.toPlaced v x p state with old | put
    · exact (traced.placed v x p old).step moved
    · exact put
  case queue =>
    intro v b mine
    rcases moved.toQueue v b mine with old | state
    · exact (traced.queue v b old).step moved
    · exact (traced.placed v b.fromPeer b.p state).step moved
  case link =>
    intro u v p mine
    rcases moved.toLink u v p mine with old | ⟨b, waits, rfl⟩
    · exact (traced.link u v p old).step moved
    · exact (traced.queue u b waits).step moved

def Carried (listed : V → V → Bool) (c : Packet) (s : Flood.State V) : Prop :=
  ∀ u, ∀ q ∈ (s.node u).puts, q.p = c → q.accepted = true →
    (s.node u).slave q.via = .placed c ∨ ⟨c, q.via⟩ ∈ (s.node u).queue ∨
      ∀ v, listed u v = true → q.via = .clip v ∨ c ∈ s.link u v ∨
        (s.node v).slave (.clip u) = .received c ∨ Placed s v c

omit [DecidableEq V] in
theorem Carried.step {then_ now : V → V → Bool} {c : Packet} (carried : Carried then_ c s)
    (moved : Moved now s s') (later : ∀ u v, then_ u v = true → now u v = true)
    (whole : c.received = true) (sendable : c.sendable = true) : Carried then_ c s' := by
  intro u q put same yes
  rcases moved.toPuts u q put with old | ⟨_, placed⟩
  · rcases carried u q old same yes with state | waits | sent
    · rcases moved.placed u q.via c state with still | pushed
      · exact .inl still
      · exact .inr (.inl pushed)
    · rcases moved.queue u _ waits with still | sent
      · exact .inr (.inl still)
      · refine .inr (.inr fun v here => ?_)
        by_cases back : q.via = .clip v
        · exact .inl back
        · exact .inr (.inl (sent v ⟨later u v here, back, sendable⟩))
    · refine .inr (.inr fun v here => ?_)
      rcases sent v here with back | way | received | put
      · exact .inl back
      · rcases moved.link u v c way whole with still | received
        · exact .inr (.inl still)
        · exact .inr (.inr (.inl received))
      · rcases moved.received v _ c received with still | put
        · exact .inr (.inr (.inl still))
        · exact .inr (.inr (.inr put))
      · exact .inr (.inr (.inr (put.step moved)))
  · exact .inl (same ▸ placed yes)

end Traces

section NewCopy

def joined (S : Set V) (s t : State V) : SimpleGraph V where
  Adj u v := u ≠ v ∧ (u ∈ S ∧ v ∈ S) ∧ (s.listed u v = true ∧ s.listed v u = true) ∧
    t.broken u v = false ∧ t.broken v u = false
  symm := ⟨fun _ _ ⟨ne, ⟨hu, hv⟩, ⟨there, here⟩, out, back⟩ =>
    ⟨ne.symm, ⟨hv, hu⟩, ⟨here, there⟩, back, out⟩⟩
  loopless := ⟨fun _ loop => loop.1 rfl⟩

structure Rested (S : Set V) (s : State V) : Prop where
  queues : ∀ v ∈ S, (s.net.node v).queue = []
  slaves : ∀ v ∈ S, ∀ x, (s.net.node v).slave x = .idle
  links : ∀ u, ∀ v ∈ S, s.listed v u = true → s.broken u v = false → s.net.link u v = []

variable {S : Set V} {s s₁ t : State V} {u v w : V} {r : Region} {c : Packet}

theorem traced_of_reach (h : (network (V := V)).Reach System.anyStep s) : Traced s.net := by
  have start : Traced (network (V := V)).init.net := by
    constructor
    case numbered | entered => exact fun _ mine => absurd mine List.not_mem_nil
    case puts | queue => exact fun _ _ mine => absurd mine List.not_mem_nil
    case received | placed => exact fun _ _ _ state => by cases state
    case link => exact fun _ _ _ mine => absurd mine List.not_mem_nil
  exact h.invariant (I := fun s : State V => Traced s.net) start
    fun _ _ _ traced _ edge => traced.step (moved_of_step edge).1

theorem stored_of_reach (h : (network (V := V)).Reach System.anyStep s) (v : V) :
    Stored (s.net.node v) := by
  have start : ∀ v, Stored ((network (V := V)).init.net.node v) := fun _ =>
    ⟨fun _ mine => absurd mine List.not_mem_nil, fun _ mine => absurd mine List.not_mem_nil,
      fun _ filled => by cases filled⟩
  exact h.invariant (I := fun s : State V => ∀ v, Stored (s.net.node v)) start
    (fun _ _ _ stored _ edge v => (moved_of_step edge).1.stored v (stored v)) v

def nextCopy (s : State V) (region : UInt8) (data : List UInt8) (stamp : UInt32) : Packet :=
  ⟨s.net.issued.length, region, data, stamp⟩

theorem carried_of_issue {k : Fin maxApps} {region : UInt8} {data : List UInt8} {stamp : UInt32}
    (traced : Traced s.net) (edge : step s (.move (.issue v k region data stamp)) = some s₁) :
    Carried s.listed (nextCopy s region data stamp) s₁.net := by
  intro u q put same _
  have issued : Issued s.net q.p := by
    rcases (moved_of_step edge).1.toPuts u q put with old | ⟨received, _⟩
    · exact (traced.puts u q old).1
    · exact (traced.received u q.via q.p received).1
  obtain ⟨i, mine, packet⟩ := issued
  have before := traced.numbered i mine
  rw [packet, same] at before
  exact absurd before (Nat.lt_irrefl _)

theorem issued_of_edge {k : Fin maxApps} {region : UInt8} {data : List UInt8} {stamp : UInt32}
    (edge : step s (.move (.issue v k region data stamp)) = some s₁) :
    ⟨v, k, nextCopy s region data stamp⟩ ∈ s₁.net.issued := by
  obtain ⟨net, goes, rfl⟩ := Option.map_eq_some_iff.mp edge
  have last := issued_of_issue goes
  rw [last]
  exact List.mem_append_right _ List.mem_cons_self

theorem issued_of_path {i : Issue V} (path : (network (V := V)).Path System.anyStep s₁ t)
    (mine : i ∈ s₁.net.issued) : i ∈ t.net.issued :=
  path.invariant (I := fun x : State V => i ∈ x.net.issued)
    (fun _ _ _ mine _ edge => (moved_of_step edge).1.issues.2 i mine) mine

theorem carried_of_path {then_ : V → V → Bool} (path : (network (V := V)).Path System.anyStep s₁ t)
    (later : ∀ u v, then_ u v = true → s₁.listed u v = true) (whole : c.received = true)
    (sendable : c.sendable = true) (start : Carried then_ c s₁.net) :
    Carried then_ c t.net ∧ ∀ u v, then_ u v = true → t.listed u v = true := by
  refine path.invariant (I := fun x : State V =>
    Carried then_ c x.net ∧ ∀ u v, then_ u v = true → x.listed u v = true)
    (fun x a y ⟨carried, later⟩ _ edge => ?_) ⟨start, later⟩
  obtain ⟨moved, listed, _⟩ := moved_of_step edge
  exact ⟨carried.step moved later whole sendable, fun u v old => listed u v (later u v old)⟩

/-- The copy carries a greater timestamp than every other that has been issued to the region. -/
def Latest (s : State V) (c : Packet) (r : Region) : Prop :=
  ∀ i ∈ s.net.issued, Lands i.p r → i.p ≠ c → stamp i.p < stamp c

section Rest

variable (traced : Traced t.net) (stored : ∀ v, Stored (t.net.node v)) (rested : Rested S t)
  (latest : Latest t c r)

include traced stored latest

omit [DecidableEq V] in
theorem holds_of_placed (lands : Lands c r) (put : Placed t.net v c) :
    held t.net v r = some c.data ∧ ∃ q ∈ (t.net.node v).puts, q.p = c ∧ q.accepted = true := by
  obtain ⟨q, put, rfl⟩ := put
  obtain ⟨q', put', yes, lands', data, _, newer⟩ := covered_of_put (stored v) put lands
  obtain ⟨i, issued, packet⟩ := (traced.puts v q' put').1
  have same : q'.p = q.p := by
    by_contra other
    have older := latest i issued (packet ▸ lands') (packet ▸ other)
    rw [packet] at older
    omega
  exact ⟨same ▸ data, q', put', same, yes⟩

include rested

omit [DecidableEq V] in
theorem placed_of_joined
    (carried : Carried s.listed c t.net ∧ ∀ u v, s.listed u v = true → t.listed u v = true)
    (lands : Lands c r) (adj : (joined S s t).Adj u v) (put : Placed t.net u c) :
    Placed t.net v c := by
  obtain ⟨_, ⟨mine, other⟩, ⟨there, back⟩, out, _⟩ := adj
  obtain ⟨carried, later⟩ := carried
  obtain ⟨_, q, put, same, yes⟩ := holds_of_placed traced stored latest lands put
  rcases carried u q put same yes with state | waits | sent
  · rw [rested.slaves u mine] at state
    cases state
  · rw [rested.queues u mine] at waits
    cases waits
  · rcases sent v there with from_ | way | received | put'
    · rw [← same]
      exact (traced.puts u q put).2 v from_
    · rw [rested.links u v other (later v u back) out] at way
      cases way
    · rw [rested.slaves v other] at received
      cases received
    · exact put'

omit [DecidableEq V] in
theorem placed_of_reachable
    (carried : Carried s.listed c t.net ∧ ∀ u v, s.listed u v = true → t.listed u v = true)
    (lands : Lands c r) (path : (joined S s t).Reachable u v) (put : Placed t.net u c) :
    Placed t.net v c := by
  obtain ⟨walk⟩ := path
  induction walk with
  | nil => exact put
  | cons adj _ ih => exact ih (placed_of_joined traced stored rested latest carried lands adj put)

end Rest

/-- Whatever clipboards have connected and disconnected, and do so later, and whatever was or is being
copied: a copy that is newer than all others to its region comes to every clipboard that was joined to
its own when it was issued and still is, once these have nothing left to do. -/
theorem new_copy_everywhere {k : Fin maxApps} {region : UInt8} {data : List UInt8} {stamp : UInt32}
    (h : (network (V := V)).Reach System.anyStep s)
    (edge : step s (.move (.issue v k region data stamp)) = some s₁)
    (path : (network (V := V)).Path System.anyStep s₁ t) (size : data.length ≤ 2 ^ 31 - 11)
    (lands : Lands (nextCopy s region data stamp) r)
    (latest : Latest t (nextCopy s region data stamp) r) (rested : Rested S t) (here : v ∈ S)
    (way : (joined S s t).Reachable v w) : held t.net w r = some data := by
  have issued := issued_of_path path (issued_of_edge edge)
  have start := carried_of_issue (traced_of_reach h) edge
  have bytes : (nextCopy s region data stamp).data = data := rfl
  generalize nextCopy s region data stamp = c at lands latest issued start bytes
  have size : c.data.length ≤ 2 ^ 31 - 11 := by rwa [bytes]
  have whole : c.received = true := Packet.received_iff.mpr (by omega)
  have sendable : c.sendable = true := by
    rw [Packet.sendable_iff, packetDataSize]
    omega
  have issue : (network (V := V)).Path System.anyStep s s₁ := .single (a := .move _) trivial edge
  have reach : (network (V := V)).Reach System.anyStep t := (h.trans issue).trans path
  have traced := traced_of_reach reach
  have stored := stored_of_reach reach
  have carried := carried_of_path path (moved_of_step edge).2.1 whole sendable start
  have put : Placed t.net v c := by
    rcases traced.entered _ issued whole with waits | put
    · rw [rested.slaves v here] at waits
      cases waits
    · exact put
  have got := placed_of_reachable traced stored rested latest carried lands way put
  rw [(holds_of_placed traced stored latest lands got).1, bytes]

def lateChild {V : Type} (root early late : V) : List (Label V) :=
  [.connect root early, .connect early root, Label.move (.issue root firstApp 3 [1] 5),
    .move (.put root (.app firstApp)), .move (.push root (.app firstApp)), .move (.broadcast root),
    .connect root late, .connect late root, .cut root early, .cut early root]

def lateCopy {V : Type} (root late : V) : List (Label V) :=
  [Label.move (.put late (.app firstApp)), .move (.push late (.app firstApp)),
    .move (.broadcast late), .move (.receive root late), .move (.put root (.clip late)),
    .move (.push root (.clip late)), .move (.broadcast root)]

theorem new_copy_everywhere_late : ∃ s t : State (Fin 3),
    (network (V := Fin 3)).Reach System.anyStep t ∧ held s.net 0 ⟨3, by decide⟩ = some [1] ∧
      held s.net 2 ⟨3, by decide⟩ = none ∧ held t.net 0 ⟨3, by decide⟩ = some [2] := by
  have goes : (((network (V := Fin 3)).run (network (V := Fin 3)).init (lateChild 0 1 2)).bind fun s =>
      (step s (.move (.issue 2 firstApp 3 [2] 7))).bind fun s₁ =>
        ((network (V := Fin 3)).run s₁ (lateCopy 0 2)).map fun t => decide (
          (held s.net 0 ⟨3, by decide⟩ = some [1] ∧ held s.net 2 ⟨3, by decide⟩ = none) ∧
          Lands (nextCopy s 3 [2] 7) ⟨3, by decide⟩ ∧
          (∀ i ∈ t.net.issued, Lands i.p ⟨3, by decide⟩ → i.p ≠ nextCopy s 3 [2] 7 →
            stamp i.p < stamp (nextCopy s 3 [2] 7)) ∧
          ((∀ v, v ≠ 1 → (t.net.node v).queue = []) ∧
            (∀ v, v ≠ 1 → ∀ x, (t.net.node v).slave x = .idle) ∧
            ∀ u v, v ≠ 1 → t.listed v u = true → t.broken u v = false → t.net.link u v = []) ∧
          (s.listed 2 0 = true ∧ s.listed 0 2 = true) ∧
          t.broken 2 0 = false ∧ t.broken 0 2 = false)) = some true := by
    decide +kernel
  obtain ⟨s, before, goes⟩ := Option.bind_eq_some_iff.mp goes
  obtain ⟨s₁, edge, goes⟩ := Option.bind_eq_some_iff.mp goes
  obtain ⟨t, after, seen⟩ := Option.map_eq_some_iff.mp goes
  obtain ⟨⟨old, none_⟩, lands, latest, ⟨queues, slaves, links⟩, listed, out, back⟩ :=
    of_decide_eq_true seen
  have reach : (network (V := Fin 3)).Reach System.anyStep s :=
    System.path_of_run _ (fun _ _ _ => trivial) before
  have path : (network (V := Fin 3)).Path System.anyStep s₁ t :=
    System.path_of_run _ (fun _ _ _ => trivial) after
  have issue : (network (V := Fin 3)).Path System.anyStep s s₁ := .single (a := .move _) trivial edge
  have adj : (joined { v | v ≠ 1 } s t).Adj 2 0 :=
    ⟨by decide, ⟨by decide, by decide⟩, listed, out, back⟩
  refine ⟨s, t, (reach.trans issue).trans path, old, none_, ?_⟩
  exact new_copy_everywhere reach edge path (by decide) lands latest ⟨queues, slaves, links⟩
    (by decide : (2 : Fin 3) ≠ 1) adj.reachable

end NewCopy

end DistributedClipboard.Network.Joining
