/- module: DistributedClipboard/Network/Pastes
   source: src/src/interfaces/clipif.c, src/src/interfaces/appif.c, src/src/mem/clmem.c, src/Library/client_api.c
   layer: theorem
   digest: What an application that pastes anywhere in the network gets, from call to copy. -/

import DistributedClipboard.Interfaces.AppSession
import DistributedClipboard.Network.Convergence
import DistributedClipboard.Network.Quiescence

set_option autoImplicit false
set_option relaxedAutoImplicit false

namespace DistributedClipboard.Network.Pastes

open DistributedClipboard.Common
open DistributedClipboard.Interfaces.AppSession (FitsFrame)
open DistributedClipboard.Interfaces.AppSlave
open DistributedClipboard.Lib.Stream
open DistributedClipboard.Lib.Transition
open DistributedClipboard.Library.ClientApi
open DistributedClipboard.Mem.Clmem
open DistributedClipboard.Network.Conservation
open DistributedClipboard.Network.Convergence
open DistributedClipboard.Network.Delivery
open DistributedClipboard.Network.Flood hiding SlaveState
open DistributedClipboard.Network.Quiescence
open DistributedClipboard.Network.Routes
open DistributedClipboard.Utils.Packet
open Proc (Runs Asks)

universe u

/-- A call of `clipboard_paste` on a clipboard with the memory `m`: its slave answers the request
with one response and leaves the memory alone, and the call ends with `data` in its buffer. -/
def PasteGives (m : Memory) (r : Region) (count : Nat) (data : List UInt8) : Prop :=
  ∀ (clock : Nat → UInt32) (t : SlaveState), t.mem = m → 1 ≤ t.err → ∃ response t',
    Runs (appifSlave clock t) (pasteFrame r count).bytes [response] (some t') ∧
      t'.mem = m ∧ 1 ≤ t'.err ∧
        Asks (clipboardPaste r.val count) (pasteFrame r count).bytes response ⟨data.length, data⟩

section Calls

variable {m : Memory} {store : Store} {r : Region} {count : Nat} {data data' : List UInt8}

theorem pasteGives_of_refines (refines : Refines m store) (fits : FitsFrame count) :
    PasteGives m r count (storeGet store r count) := by
  intro clock t mem alive
  have upper := fits.2
  have size : (UInt32.ofNat count).toNat = count := by
    rw [UInt32.toNat_ofNat']
    exact Nat.mod_eq_of_lt (by omega)
  have region : (UInt8.ofNat r.val).toNat = r.val := by
    rw [UInt8.toNat_ofNat']
    exact Nat.mod_eq_of_lt (by have : r.val < 10 := r.isLt; omega)
  have found : memGet t.mem (pasteFrame r count).region.toNat (pasteFrame r count).dataSize.toNat =
      some (storeGet store r count) := by
    have got := memGet_refines refines r.val count
    rw [storeApply, regionOf_val] at got
    obtain ⟨bytes, same, equal⟩ := Option.map_eq_some_iff.mp got
    rw [pasteFrame, region, size, mem, same]
    exact congrArg some (Res.bytes.inj equal)
  have short : (storeGet store r count).length ≤ count := by
    unfold storeGet
    split
    · exact List.length_take_le _ _
    · exact Nat.zero_le _
  have handles := pasteRequest_runs clock (s := { t with err := 1 }) (pasteFrame r count) rfl found
  have turn := appifSlave_runs alive handles (respond_runs_once ?_ ?_ ?_ ?_)
  · exact ⟨_, { t with err := 5, readings := t.readings + 1 }, turn, mem,
      (by decide : (1 : Int) ≤ 5), clipboardPaste_asks short (by omega)⟩
  · simp [PacketData.bytes]
  · rw [List.length_append, PacketData.length_bytes]
  · show packetDataSize + (storeGet store r count).length < 2 ^ 31
    rw [packetDataSize]
    omega
  · show (5 : Int) < (packetDataSize + (storeGet store r count).length : Nat)
    rw [packetDataSize]
    omega

theorem PasteGives.unique (h : PasteGives m r count data) (h' : PasteGives m r count data') : data = data' := by
  let t : SlaveState := ⟨m, [], 0, 1⟩
  obtain ⟨response, _, answers, _, _, next, sends, _, reads⟩ :=
    h (fun _ => 0) t rfl (Int.le_refl 1)
  obtain ⟨response', _, answers', _, _, next', sends', _, reads'⟩ :=
    h' (fun _ => 0) t rfl (Int.le_refl 1)
  have once := (answers.exec []).symm.trans (answers'.exec [])
  simp only [Option.some.injEq, Prod.mk.injEq, true_and, List.cons.injEq, and_true] at once
  obtain ⟨_, rfl⟩ := once
  have same := sends.symm.trans sends'
  simp only [Proc.send.injEq, true_and] at same
  subst same
  have result := (reads.exec []).symm.trans (reads'.exec [])
  simp only [Option.some.injEq, Prod.mk.injEq, Result.mk.injEq, and_true] at result
  exact result.2

end Calls

section Memories

variable {V : Type u} [DecidableEq V] {G : SimpleGraph V} [DecidableRel G.Adj] {s s' : State V}
  {v w : V} {r : Region} {count : Nat} {data : List UInt8}

theorem store_step (a : Label V) (edge : Flood.step G s a = some s') (w : V) :
    ((s'.node w).store = (s.node w).store ∧ (s'.node w).puts = (s.node w).puts) ∨
      ∃ p x, (s'.node w).store = (p.put (s.node w).store).2 ∧
        (s'.node w).puts = (s.node w).puts ++ [⟨p, x, (p.put (s.node w).store).1 ≠ 0⟩] := by
  by_cases here : w = mover a
  · subst here
    cases a with
    | issue v k region data stamp =>
      simp only [Flood.step, issueStep] at edge
      split at edge
      · split at edge <;> cases edge <;> simp [mover, State.setSlave, State.setNode]
      · cases edge
    | receive v u =>
      simp only [Flood.step, receiveStep] at edge
      split at edge
      · split at edge <;> cases edge <;> simp [mover, State.setSlave, State.setNode]
      · cases edge
    | put v x =>
      simp only [Flood.step, putStep] at edge
      split at edge <;> cases edge
      rename_i p _
      refine .inr ⟨p, x, ?_⟩
      rw [mover, setNode_self]
      exact ⟨rfl, rfl⟩
    | push v x =>
      simp only [Flood.step, pushStep] at edge
      split at edge <;> cases edge
      simp [mover, State.setNode]
    | broadcast v =>
      simp only [Flood.step, broadcastStep] at edge
      split at edge <;> cases edge
      simp [mover, State.setNode]
  · rw [step_node_of_ne a edge here]
    exact .inl ⟨rfl, rfl⟩

def Backed (s : State V) : Prop := ∀ v, ∃ store : Store, Refines (s.node v).store store

theorem Backed.step (h : Backed s) (a : Label V) (edge : Flood.step G s a = some s') :
    Backed s' := by
  intro w
  obtain ⟨store, refines⟩ := h w
  rcases store_step a edge w with ⟨same, _⟩ | ⟨p, x, put, _⟩
  · exact ⟨store, same ▸ refines⟩
  · refine ⟨_, put ▸ (memPut_refines refines p.region.toNat p.data p.recvAt.toNat).2⟩

theorem backed_of_reach {ok : State V → Label V → Prop} (h : (flood G).Reach ok s) : Backed s :=
  h.invariant (fun _ => ⟨_, memInit_refines⟩) fun _ a _ inv _ edge => inv.step a edge

theorem puts_of_path {ok : State V → Label V → Prop} (h : (flood G).Path ok s s') (v : V) :
    (s.node v).puts <+: (s'.node v).puts := by
  refine System.Path.invariant (I := fun t => (s.node v).puts <+: (t.node v).puts)
    (fun t a t' grown _ edge => ?_) h (List.prefix_refl _)
  rcases store_step a edge v with ⟨_, same⟩ | ⟨p, x, _, more⟩
  · rw [same]
    exact grown
  · rw [more]
    exact grown.trans (List.prefix_append _ _)

theorem issued_of_path {ok : State V → Label V → Prop} (h : (flood G).Path ok s s') :
    s.issued <+: s'.issued := by
  refine System.Path.invariant (I := fun t => s.issued <+: t.issued)
    (fun t a t' grown _ edge => ?_) h (List.prefix_refl _)
  by_cases own : internal t a
  · rw [issued_of_internal own edge]
    exact grown
  · cases a with
    | issue v k region data stamp =>
      simp only [flood, Flood.step, issueStep] at edge
      split at edge
      · split at edge <;> cases edge <;> exact grown.trans (List.prefix_append _ _)
      · cases edge
    | receive v u => exact absurd trivial own
    | put v x => exact absurd trivial own
    | push v x => exact absurd trivial own
    | broadcast v => exact absurd trivial own

def Known (s : State V) : Prop := ∀ v x p, p ∈ s.sent v x → ∃ i ∈ s.issued, i.p = p

theorem Known.step (inv : Conserved G s) (h : Known s) (a : Label V)
    (edge : Flood.step G s a = some s') : Known s' := by
  intro w y p mine
  cases a with
  | issue v k region data stamp =>
    simp only [Flood.step, issueStep] at edge
    split at edge
    · split at edge
      · cases edge
        simp only at mine ⊢
        split at mine
        · rcases List.mem_append.mp mine with old | new
          · obtain ⟨i, issued, same⟩ := h _ _ p old
            exact ⟨i, List.mem_append_left _ issued, same⟩
          · obtain rfl := List.mem_singleton.mp new
            exact ⟨_, List.mem_append_right _ (List.mem_singleton.mpr rfl), rfl⟩
        · obtain ⟨i, issued, same⟩ := h w y p mine
          exact ⟨i, List.mem_append_left _ issued, same⟩
      · cases edge
        obtain ⟨i, issued, same⟩ := h w y p mine
        exact ⟨i, List.mem_append_left _ issued, same⟩
    · cases edge
  | receive v u =>
    simp only [Flood.step, receiveStep] at edge
    split at edge
    · split at edge <;> cases edge <;> exact h w y p mine
    · cases edge
  | put v x =>
    simp only [Flood.step, putStep] at edge
    split at edge <;> cases edge
    exact h w y p mine
  | push v x =>
    simp only [Flood.step, pushStep] at edge
    split at edge <;> cases edge
    exact h w y p mine
  | broadcast v =>
    simp only [Flood.step, broadcastStep] at edge
    split at edge
    · cases edge
    · rename_i b rest queue
      cases edge
      simp only at mine
      split at mine
      · rcases List.mem_append.mp mine with old | new
        · exact h w _ p old
        · obtain rfl := List.mem_singleton.mp new
          have pushed : b ∈ pushes (s.node v) := by simp [pushes, queue]
          exact h v b.fromPeer b.p (sent_of_pushed inv pushed)
      · exact h w y p mine

theorem known_of_reach {ok : State V → Label V → Prop} (h : (flood G).Reach ok s) : Known s := by
  have start : Known (flood G).init := fun v x p mine => absurd mine List.not_mem_nil
  exact h.invariant_of (fun t => conserved_of_reach) start
    fun _ a _ inv known _ edge => known.step inv a edge

end Memories

section Copies

variable {V : Type u} {s s' : State V} {v : V} {r : Region} {count : Nat} {data : List UInt8}

/-- The clipboard has accepted the copy: it came in, and `mem_put` kept it. -/
def Accepted (s : State V) (v : V) (i : Issue V) (r : Region) : Prop :=
  i ∈ s.issued ∧ Lands i.p r ∧ ∃ q ∈ (s.node v).puts, q.p = i.p ∧ q.accepted = true

/-- The copy is among those the clipboard has accepted one with the greatest timestamp. -/
def Latest (s : State V) (v : V) (i : Issue V) (r : Region) : Prop :=
  Accepted s v i r ∧ ∀ j, Accepted s v j r → stamp j.p ≤ stamp i.p

/-- What a paste is to get from a clipboard: the first bytes of such a copy, or nothing where the
clipboard has accepted none. -/
def FromLatest (s : State V) (v : V) (r : Region) (count : Nat) (data : List UInt8) : Prop :=
  (data = [] ∧ ∀ i, ¬ Accepted s v i r) ∨ ∃ i, Latest s v i r ∧ data = i.p.data.take count

variable [DecidableEq V] {G : SimpleGraph V} [DecidableRel G.Adj]

theorem paste_of_reach (h : (flood G).Reach System.anyStep s) (v : V) (r : Region)
    (fits : FitsFrame count) :
    ∃ data, PasteGives (s.node v).store r count data ∧ FromLatest s v r count data := by
  obtain ⟨store, refines⟩ := backed_of_reach h v
  have stored := stored_of_reach h v
  have inv : Conserved G s := conserved_of_reach h
  refine ⟨_, pasteGives_of_refines refines fits, ?_⟩
  have zone := refines r
  cases kept : store r with
  | none =>
    rw [kept] at zone
    refine .inl ⟨by rw [storeGet, kept], fun i accepted => ?_⟩
    obtain ⟨_, lands, q, put, same, yes⟩ := accepted
    obtain ⟨r', lands', held, _⟩ := stored.accepted q put yes
    obtain rfl : r' = r := lands'.unique (same ▸ lands)
    rw [zone.1] at held
    cases held
  | some entry =>
    obtain ⟨bytes, cond⟩ := entry
    rw [kept] at zone
    obtain ⟨pointer, _, current⟩ := zone
    obtain ⟨q, put, yes, lands, same, carried⟩ := stored.origin r (by rw [pointer]; rfl)
    obtain ⟨i, issued, equal⟩ := known_of_reach h v q.via q.p (sent_of_put inv put)
    refine .inr ⟨i, ⟨⟨issued, equal ▸ lands, q, put, equal.symm, yes⟩, fun j accepted => ?_⟩, ?_⟩
    · obtain ⟨_, lands', q', put', same', yes'⟩ := accepted
      obtain ⟨r', lands'', _, least⟩ := stored.accepted q' put' yes'
      obtain rfl : r' = r := lands''.unique (same' ▸ lands')
      rw [equal, ← carried, ← same']
      exact least
    · rw [pointer] at same
      rw [storeGet, kept, equal, Option.some.inj same]

theorem Accepted.of_path {ok : State V → Label V → Prop} {i : Issue V} (h : Accepted s v i r)
    (later : (flood G).Path ok s s') : Accepted s' v i r := by
  obtain ⟨issued, lands, q, put, same, yes⟩ := h
  exact ⟨(issued_of_path later).subset issued, lands, q, (puts_of_path later v).subset put, same, yes⟩

end Copies

section Everywhere

variable {V : Type u} [DecidableEq V] {G : SimpleGraph V} [DecidableRel G.Adj] {s t : State V}
  {count : Nat}

/-- A paste of any region to which something has been copied gets, at every clipboard, the first
bytes of a copy that carries the region's greatest timestamp. -/
def PastesNewest (s t : State V) (count : Nat) : Prop :=
  ∀ r v, (∃ i ∈ s.issued, Lands i.p r) →
    ∃ i, Newest s i r ∧ PasteGives (t.node v).store r count (i.p.data.take count)

theorem pastesNewest_of_quiet (tree : G.IsTree) (h : (flood G).Reach System.anyStep t)
    (quiet : Quiet t) (sizes : ∀ i ∈ t.issued, i.p.data.length ≤ 2 ^ 31 - 11)
    (fits : FitsFrame count) : PastesNewest t t count := by
  intro r v some
  obtain ⟨i, issued, lands⟩ := some
  obtain ⟨newest, greatest⟩ := exists_newest issued lands
  have everywhere := everywhere_of_quiet tree h quiet sizes
  have accepted : Accepted t v newest r := by
    obtain ⟨known, lands', most⟩ := newest_iff.mp greatest
    have once := (everywhere r _ most v).2 newest known lands' rfl
    obtain ⟨q, put, same, yes⟩ := acceptances_pos_iff.mp (by rw [once]; exact Nat.one_pos)
    exact ⟨known, lands', q, put, same, yes⟩
  obtain ⟨data, gives, latest⟩ := paste_of_reach h v r fits
  rcases latest with ⟨_, none_⟩ | ⟨j, latest, same⟩
  · exact absurd accepted (none_ newest)
  · refine ⟨j, ⟨latest.1.1, latest.1.2.1, fun k known lands' => ?_⟩, same ▸ gives⟩
    exact (greatest.2.2 k known lands').trans (latest.2 newest accepted)

/-- A paste of the region gets at every clipboard the first bytes of one and the same newest copy. -/
def PastesOne (s t : State V) (count : Nat) (r : Region) : Prop :=
  ∃ i, Newest s i r ∧ ∀ v, PasteGives (t.node v).store r count (i.p.data.take count)

theorem pasteGives_of_held (h : (flood G).Reach System.anyStep t) {v : V} {r : Region}
    {bytes : List UInt8} (has : held t v r = some bytes) (fits : FitsFrame count) :
    PasteGives (t.node v).store r count (bytes.take count) := by
  obtain ⟨store, refines⟩ := backed_of_reach h v
  have zone := refines r
  rw [held] at has
  cases kept : store r with
  | none =>
    rw [kept] at zone
    rw [zone.1] at has
    cases has
  | some entry =>
    obtain ⟨data, cond⟩ := entry
    rw [kept] at zone
    obtain rfl : data = bytes := Option.some.inj (zone.1.symm.trans has)
    have gives := pasteGives_of_refines refines fits (r := r)
    rwa [storeGet, kept] at gives

theorem pastesOne_of_quiet (tree : G.IsTree) (h : (flood G).Reach System.anyStep t)
    (quiet : Quiet t) (sizes : ∀ i ∈ t.issued, i.p.data.length ≤ 2 ^ 31 - 11)
    (fits : FitsFrame count) {r : Region} (some_ : ∃ i ∈ t.issued, Lands i.p r)
    (uncrossed : Uncrossed t r) : PastesOne t t count r := by
  have everywhere := everywhere_of_quiet tree h quiet sizes
  obtain ⟨i, issued, lands⟩ := some_
  obtain ⟨v⟩ : Nonempty V := tree.connected.nonempty
  have holds := holdsNewest_of_quiet tree h everywhere v r
  rw [HoldsNewest] at holds
  cases has : held t v r with
  | none =>
    rw [has] at holds
    exact absurd lands (holds i issued)
  | some bytes =>
    rw [has] at holds
    obtain ⟨j, newest, same⟩ := holds
    refine ⟨j, newest, fun w => pasteGives_of_held h ?_ fits⟩
    rw [same, ← has]
    exact agree_of_uncrossed tree h quiet everywhere uncrossed w v

end Everywhere

end DistributedClipboard.Network.Pastes
