/- module: DistributedClipboard/Mem/Blocks
   source: src/src/mem/clmem.c
   layer: result
   digest: Every heap block has one owner in every run, and the only bad access is a get after a shutdown. -/

import DistributedClipboard.Mem.Sleepers

set_option autoImplicit false
set_option relaxedAutoImplicit false

namespace DistributedClipboard.Mem.Blocks

open DistributedClipboard.Common
open DistributedClipboard.Lib.Transition
open DistributedClipboard.Mem.Linearizable ( piece_prefix)
open DistributedClipboard.Mem.LockView
open DistributedClipboard.Mem.Shutdown
open DistributedClipboard.Mem.Sleepers
open DistributedClipboard.Mem.Threads
open DistributedClipboard.Mem.TornCounts (Torn calmly reach_of_calm tornStep tornSystem)
open DistributedClipboard.Thread.Rwlock
open DistributedClipboard.Thread.Sections (writer_alone)

universe u

def block : Pc → Option Nat
  | .fill a | .testNull a | .compare a | .rejected a | .freeOld a | .setData a => some a
  | _ => none

def torn : Pc → Bool
  | .setData _ | .setSize _ | .finishNull => true
  | _ => false

structure Content where
  data : Option Nat
  size : Nat
  terminate : Bool

section Invariant

variable {T : Type u}

def content (s : State T) (r : Region) : Content :=
  ⟨(s.zones r).data, (s.zones r).size, (s.zones r).terminate⟩

def NoBlock (heap : Nat → Option (Block T)) (r : Region) : Prop :=
  ∀ a d, heap a ≠ some ⟨d, .zone r⟩

def ZoneOk (z : Content) (heap : Nat → Option (Block T)) (r : Region) : Prop :=
  match z.data with
  | none => z.size = 0 ∨ z.terminate = true
  | some a => ∃ d, heap a = some ⟨d, .zone r⟩ ∧ z.size = d.length

def CallerOk (t : T) (th : Thread) (z : Content) (heap : Nat → Option (Block T)) : Prop :=
  match th.pc with
  | .readData cpSize => cpSize ≠ 0 ∧ cpSize ≤ z.size
  | .copy cpSize src buffer => z.data = some src ∧ cpSize ≤ z.size ∧ buffer.length ≤ cpSize
  | .fill a => ∃ d, d <+: th.data ∧ heap a = some ⟨d, .caller t⟩
  | .testNull a | .rejected a => heap a = some ⟨th.data, .caller t⟩
  | .compare a | .freeOld a => heap a = some ⟨th.data, .caller t⟩ ∧ z.data.isSome = true
  | .setData a => heap a = some ⟨th.data, .caller t⟩ ∧ NoBlock heap th.region
  | .setSize a => z.data = some a ∧ heap a = some ⟨th.data, .zone th.region⟩
  | .finishTest => z.terminate = true
  | .finishFree => z.terminate = true ∧ z.data.isSome = true
  | .finishNull => z.terminate = true ∧ NoBlock heap th.region
  | _ => True

def Caller (s : State T) (t : T) : Prop :=
  CallerOk t (s.threads t) (content s (s.threads t).region) s.heap

def Claimed (s : State T) (a : Nat) : Owner T → Prop
  | .caller t => block (s.threads t).pc = some a
  | .zone r => (s.zones r).data = some a

structure Inv (s : State T) : Prop where
  zone : ∀ r, (∀ t, (s.threads t).region = r → torn (s.threads t).pc = false) →
    ZoneOk (content s r) s.heap r
  caller : ∀ t, Caller s t
  owned : ∀ a b, s.heap a = some b → Claimed s a b.owner
  bound : ∀ a, s.brk ≤ a → s.heap a = none

def Apart (s : State T) : Prop :=
  ∀ t u, t ≠ u → (s.threads t).region = (s.threads u).region →
    (s.threads t).pos = .reading ∨ (s.threads t).pos = .writing → (s.threads u).pos ≠ .writing

end Invariant

section Turns

variable {T : Type u} [DecidableEq T] {s s' : State T} {t u : T} {r : Region} {k : Nat}

theorem apart_of_regimes [Fintype T] (regimes : ∀ r, Balanced s r ∨ Starved s r) : Apart s := by
  intro t u ne same inside write
  rcases inside with read | writes
  · exact no_writer_beside (regimes (s.threads t).region) rfl (.inl read) same.symm write
  · have holds (v : T) (there : (s.threads v).region = (s.threads t).region)
        (writing : (s.threads v).pos = .writing) :
        (posAt s (s.threads t).region v).holdsWrite = true := by
      simp [posAt, there, writing, Pos.holdsWrite]
    rcases regimes (s.threads t).region with balanced | starved
    · have other := (writer_alone balanced.lock (holds t rfl writes) ne.symm).1
      rw [holds u same.symm write] at other
      cases other
    · have nobody := starved.lock.noWriter t
      simp only [lockAt] at nobody
      rw [holds t rfl writes] at nobody
      cases nobody

omit [DecidableEq T] in
theorem writing_of_torn (fit : Fits s) (h : torn (s.threads t).pc = true) :
    (s.threads t).pos = .writing := by
  have here := fit t
  cases hpc : (s.threads t).pc <;> rw [hpc] at h here <;> simp_all [torn, fits]

omit [DecidableEq T] in
theorem Inv.zone_inside (inv : Inv s) (fit : Fits s) (apart : Apart s)
    (inside : (s.threads u).pos = .reading ∨ (s.threads u).pos = .writing)
    (clean : torn (s.threads u).pc = false) :
    ZoneOk (content s (s.threads u).region) s.heap (s.threads u).region := by
  refine inv.zone _ fun t same => ?_
  by_cases eq : u = t
  · exact eq ▸ clean
  · by_contra touched
    have write := writing_of_torn fit (by simpa using touched)
    exact apart u t eq same.symm inside write

structure SameRegion (s s' : State T) (r : Region) : Prop where
  content : content s' r = content s r
  blocks : ∀ a d, s'.heap a = some ⟨d, .zone r⟩ ↔ s.heap a = some ⟨d, .zone r⟩

omit [DecidableEq T] in
theorem SameRegion.zoneOk (h : SameRegion s s' r) (ok : ZoneOk (Blocks.content s r) s.heap r) :
    ZoneOk (Blocks.content s' r) s'.heap r := by
  rw [h.content]
  unfold ZoneOk at ok ⊢
  split at ok
  · exact ok
  · obtain ⟨d, live, length⟩ := ok
    exact ⟨d, (h.blocks _ d).mpr live, length⟩

omit [DecidableEq T] in
theorem SameRegion.noBlock (h : SameRegion s s' r) (none_ : NoBlock s.heap r) : NoBlock s'.heap r :=
  fun a d live => none_ a d ((h.blocks a d).mp live)

structure Turn (s s' : State T) (u : T) : Prop where
  threads : ∀ t, t ≠ u → s'.threads t = s.threads t
  others : ∀ t, t ≠ u → ∀ a d, s'.heap a = some ⟨d, .caller t⟩ ↔ s.heap a = some ⟨d, .caller t⟩
  zones : ∀ r, ((s.threads u).region = r → (s.threads u).pos ≠ .writing) → SameRegion s s' r
  own : Caller s' u
  mine : ∀ a d, s'.heap a = some ⟨d, .caller u⟩ → block (s'.threads u).pc = some a
  region : (s.threads u).pos = .writing → (s'.threads u).region = (s.threads u).region
  whole : (s.threads u).pos = .writing → torn (s'.threads u).pc = false →
    ZoneOk (content s' (s.threads u).region) s'.heap (s.threads u).region
  named : (s.threads u).pos = .writing → ∀ a d, s'.heap a = some ⟨d, .zone (s.threads u).region⟩ →
    (s'.zones (s.threads u).region).data = some a
  bound : ∀ a, s'.brk ≤ a → s'.heap a = none

omit [DecidableEq T] in
theorem Turn.frame (turn : Turn s s' u) (fit : Fits s) (apart : Apart s) (ne : t ≠ u)
    (h : Caller s t) : Caller s' t := by
  have here := fit t
  have block (a : Nat) (d : List UInt8) := (turn.others t ne a d).mpr
  have zone (inside : (s.threads t).pos = .reading ∨ (s.threads t).pos = .writing) :
      SameRegion s s' (s.threads t).region :=
    turn.zones _ fun same => apart t u ne same.symm inside
  unfold Caller CallerOk at h ⊢
  rw [turn.threads t ne]
  cases hpc : (s.threads t).pc <;> rw [hpc] at here <;> simp only [hpc] at h ⊢ <;>
    simp only [fits, decide_eq_true_eq] at here
  case readData | copy =>
    rw [(zone (.inl here)).content]
    exact h
  case fill a =>
    obtain ⟨d, part, own⟩ := h
    exact ⟨d, part, block a d own⟩
  case testNull a | rejected a => exact block a _ h
  case compare a | freeOld a =>
    rw [(zone (.inr here)).content]
    exact ⟨block a _ h.1, h.2⟩
  case setData a => exact ⟨block a _ h.1, (zone (.inr here)).noBlock h.2⟩
  case setSize a =>
    have same := zone (.inr here)
    rw [same.content]
    exact ⟨h.1, (same.blocks a _).mpr h.2⟩
  case finishTest | finishFree =>
    rw [(zone (.inr here)).content]
    exact h
  case finishNull =>
    have same := zone (.inr here)
    rw [same.content]
    exact ⟨h.1, same.noBlock h.2⟩

omit [DecidableEq T] in
theorem Turn.inv (turn : Turn s s' u) (fit : Fits s) (apart : Apart s) (inv : Inv s) : Inv s' where
  zone r clean := by
    by_cases mine : (s.threads u).region = r ∧ (s.threads u).pos = .writing
    · obtain ⟨rfl, write⟩ := mine
      exact turn.whole write (clean u (turn.region write))
    · have same := turn.zones r fun region write => mine ⟨region, write⟩
      refine same.zoneOk (inv.zone r fun t region => ?_)
      by_cases eq : t = u
      · subst eq
        by_contra touched
        exact mine ⟨region, writing_of_torn fit (by simpa using touched)⟩
      · have := clean t
        rw [turn.threads t eq] at this
        exact this region
  caller t := by
    by_cases eq : t = u
    · exact eq ▸ turn.own
    · exact turn.frame fit apart eq (inv.caller t)
  owned a b live := by
    obtain ⟨d, owner⟩ := b
    cases owner with
    | caller t =>
      by_cases eq : t = u
      · exact eq ▸ turn.mine a d (eq ▸ live)
      · have claimed := inv.owned a _ ((turn.others t eq a d).mp live)
        simp only [Claimed, turn.threads t eq]
        exact claimed
    | zone r =>
      by_cases mine : (s.threads u).region = r ∧ (s.threads u).pos = .writing
      · obtain ⟨rfl, write⟩ := mine
        exact turn.named write a d live
      · have same := turn.zones r fun region write => mine ⟨region, write⟩
        have claimed := inv.owned a _ ((same.blocks a d).mp live)
        exact (congrArg Content.data same.content).trans claimed
  bound := turn.bound

omit [DecidableEq T] in
theorem Inv.live_below (inv : Inv s) {a : Nat} {b : Block T} (h : s.heap a = some b) :
    a < s.brk := by
  by_contra above
  have := inv.bound a (by omega)
  rw [h] at this
  cases this

omit [DecidableEq T] in
theorem update_other {heap : Nat → Option (Block T)} {a : Nat} {x : Option (Block T)} {o : Owner T}
    (old : ∀ d, heap a ≠ some ⟨d, o⟩) (new : ∀ d, x ≠ some ⟨d, o⟩) (b : Nat) (d : List UInt8) :
    Function.update heap a x b = some ⟨d, o⟩ ↔ heap b = some ⟨d, o⟩ := by
  by_cases same : b = a
  · subst same
    rw [Function.update_self]
    exact ⟨fun h => absurd h (new d), fun h => absurd h (old d)⟩
  · rw [Function.update_of_ne same]

omit [DecidableEq T] in
theorem Turn.of_move (inv : Inv s) (threads : ∀ t, t ≠ u → s'.threads t = s.threads t)
    (contents : ∀ r, content s' r = content s r) (heap : s'.heap = s.heap) (brk : s'.brk = s.brk)
    (keeps : ∀ a, block (s.threads u).pc = some a → block (s'.threads u).pc = some a)
    (own : CallerOk u (s'.threads u) (content s (s'.threads u).region) s.heap)
    (region : (s.threads u).pos = .writing → (s'.threads u).region = (s.threads u).region)
    (whole : (s.threads u).pos = .writing →
      ZoneOk (content s (s.threads u).region) s.heap (s.threads u).region) : Turn s s' u where
  threads := threads
  others t _ a d := by rw [heap]
  zones r _ := ⟨contents r, fun a d => by rw [heap]⟩
  own := by
    unfold Caller
    rw [contents, heap]
    exact own
  mine a d live := keeps a (inv.owned a ⟨d, .caller u⟩ (heap ▸ live))
  region := region
  whole write _ := by
    rw [contents, heap]
    exact whole write
  named _ a d live :=
    (congrArg Content.data (contents _)).trans
      (inv.owned a ⟨d, .zone (s.threads u).region⟩ (heap ▸ live))
  bound := by
    rw [heap, brk]
    exact inv.bound

section Statements

attribute [local simp] State.setThread State.setZone State.setBlock State.goto State.callLock
  State.decide State.finishRead State.fail

variable (inv : Inv s) (fit : Fits s) (apart : Apart s)

include inv fit apart

omit [DecidableEq T] in
theorem turn_move (threads : ∀ t, t ≠ u → s'.threads t = s.threads t)
    (contents : ∀ r, content s' r = content s r) (heap : s'.heap = s.heap) (brk : s'.brk = s.brk)
    (same : (s'.threads u).region = (s.threads u).region)
    (keeps : ∀ a, block (s.threads u).pc = some a → block (s'.threads u).pc = some a)
    (clean : torn (s.threads u).pc = false)
    (own : CallerOk u (s'.threads u) (content s (s.threads u).region) s.heap) : Turn s s' u :=
  Turn.of_move inv threads contents heap brk keeps (by rwa [same]) (fun _ => same)
    (fun write => inv.zone_inside fit apart (.inr write) clean)

theorem turn_startCopy {cpSize : Nat} (pc : block (s.threads u).pc = none)
    (clean : torn (s.threads u).pc = false)
    (size : cpSize ≤ (s.zones (s.threads u).region).size) : Turn s (s.startCopy u cpSize) u := by
  unfold State.startCopy
  split
  · exact turn_move inv fit apart (fun t ne => by simp [ne]) (fun _ => rfl) rfl rfl (by simp)
      (by simp [pc]) clean (by simp [CallerOk])
  · rename_i some_bytes
    exact turn_move inv fit apart (fun t ne => by simp [ne]) (fun _ => rfl) rfl rfl (by simp)
      (by simp [pc]) clean (by simpa [CallerOk] using ⟨some_bytes, size⟩)

omit apart

theorem turn_malloc (pc : (s.threads u).pc = .malloc) (edge : opStep s u k = some s') :
    Turn s s' u := by
  have out : (s.threads u).pos = .out := by simpa [pc, fits] using fit u
  have fresh := inv.bound s.brk (Nat.le_refl _)
  simp only [opStep, pc, Option.some.injEq] at edge
  subst edge
  constructor
  case threads => exact fun t ne => by simp [ne]
  case others => exact fun t ne => update_other (by simp [fresh]) (by simp [ne.symm])
  case zones => exact fun r _ => ⟨rfl, update_other (by simp [fresh]) (by simp)⟩
  case own => simp [Caller, CallerOk]
  case mine =>
    intro a d live
    by_cases new : a = s.brk
    · simp [new, block]
    · have claimed := inv.owned a ⟨d, .caller u⟩ (by simpa [new] using live)
      simp [Claimed, pc, block] at claimed
  case region => simp
  case whole => simp [out]
  case named => simp [out]
  case bound =>
    intro a above
    have above : s.brk + 1 ≤ a := above
    have ne : a ≠ s.brk := by omega
    simpa [ne] using inv.bound a (by omega)

theorem turn_fill {a : Nat} (pc : (s.threads u).pc = .fill a) (edge : opStep s u k = some s') :
    Turn s s' u := by
  have out : (s.threads u).pos = .out := by simpa [pc, fits] using fit u
  have own := inv.caller u
  simp only [Caller, CallerOk, pc] at own
  obtain ⟨d, part, live⟩ := own
  simp only [opStep, pc, live] at edge
  split at edge
  · rename_i complete
    cases edge
    have whole := part.eq_of_length complete
    exact Turn.of_move inv (fun t ne => by simp [ne]) (fun _ => rfl) rfl rfl
      (by simp [pc, block]) (by simpa [CallerOk, whole] using live) (by simp) (by simp [out])
  · cases edge
    constructor
    case threads => exact fun t ne => rfl
    case others => exact fun t ne => update_other (by simp [live, ne.symm]) (by simp [ne.symm])
    case zones => exact fun r _ => ⟨rfl, update_other (by simp [live]) (by simp)⟩
    case own =>
      simp only [Caller, CallerOk, State.setBlock, pc, Function.update_self]
      exact ⟨_, piece_prefix part _, rfl⟩
    case mine =>
      intro b e h
      by_cases same : b = a
      · simp [pc, block, same]
      · exact inv.owned b ⟨e, .caller u⟩ (by simpa [same] using h)
    case region => simp
    case whole => simp [out]
    case named => simp [out]
    case bound =>
      intro b above
      have below := inv.live_below live
      have ne : b ≠ a := by
        rintro rfl
        exact absurd below (Nat.not_lt.mpr above)
      simpa [ne] using inv.bound b above

omit [DecidableEq T] fit in
theorem noBlock_of_free {a : Nat} (pointed : (s.zones r).data = some a) :
    NoBlock (Function.update s.heap a none) r := by
  intro b d live
  by_cases same : b = a
  · simp [same] at live
  · have claimed := inv.owned b ⟨d, .zone r⟩ (by simpa [same] using live)
    have other : (s.zones r).data = some b := claimed
    rw [pointed] at other
    exact same (Option.some.inj other).symm

omit [DecidableEq T] inv fit in
theorem free_live [DecidableEq T] {a : Nat} {b : Block T} (live : s.heap a = some b) :
    s.free a = s.setBlock a none := by
  simp [State.free, live]

omit fit in
theorem turn_rejected {a : Nat} (fit : Fits s) (pc : (s.threads u).pc = .rejected a)
    (out : (s.threads u).pos.inLock = false) (edge : opStep s u k = some s') : Turn s s' u := by
  have out : (s.threads u).pos = .out := by
    have here := fits_outside (fit u) out
    rwa [pc] at here
  have live := inv.caller u
  simp only [Caller, CallerOk, pc] at live
  simp only [opStep, pc, free_live live, Option.some.injEq] at edge
  subst edge
  constructor
  case threads => exact fun t ne => by simp [ne]
  case others => exact fun t ne => update_other (by simp [live, ne.symm]) (by simp)
  case zones => exact fun r _ => ⟨rfl, update_other (by simp [live]) (by simp)⟩
  case own => simp [Caller, CallerOk]
  case mine =>
    intro b d h
    by_cases same : b = a
    · simp [same] at h
    · have claimed := inv.owned b ⟨d, .caller u⟩ (by simpa [same] using h)
      simp only [Claimed, pc, block, Option.some.injEq] at claimed
      exact absurd claimed.symm same
  case region => simp
  case whole => simp [out]
  case named => simp [out]
  case bound =>
    intro b above
    by_cases same : b = a
    · simp [same]
    · simpa [same] using inv.bound b above

omit fit in
theorem turn_free {a : Nat} {pc' : Pc} (write : (s.threads u).pos = .writing)
    (pointed : (s.zones (s.threads u).region).data = some a) {d : List UInt8}
    (live : s.heap a = some ⟨d, .zone (s.threads u).region⟩)
    (keeps : block pc' = block (s.threads u).pc) (after : torn pc' = true)
    (own : NoBlock (Function.update s.heap a none) (s.threads u).region →
      CallerOk u { s.threads u with pc := pc' } (content s (s.threads u).region)
        (Function.update s.heap a none)) : Turn s ((s.free a).goto u pc') u := by
  have gone := noBlock_of_free inv pointed
  rw [free_live live]
  constructor
  case threads => exact fun t ne => by simp [ne]
  case others => exact fun t ne => update_other (by simp [live]) (by simp)
  case zones =>
    intro r other
    have ne : (s.threads u).region ≠ r := fun same => other same write
    exact ⟨rfl, update_other (by simp [live, ne]) (by simp)⟩
  case own =>
    simp only [Caller, State.goto, State.setThread, State.setBlock, Function.update_self]
    exact own gone
  case mine =>
    intro b e h
    by_cases same : b = a
    · simp [same] at h
    · have claimed := inv.owned b ⟨e, .caller u⟩ (by simpa [same] using h)
      simpa [Claimed, keeps] using claimed
  case region => simp
  case whole => simp [after]
  case named => exact fun _ b e h => absurd h (gone b e)
  case bound =>
    intro b above
    by_cases same : b = a
    · simp [same]
    · simpa [same] using inv.bound b above

theorem turn_setData {a : Nat} (pc : (s.threads u).pc = .setData a)
    (edge : opStep s u k = some s') : Turn s s' u := by
  have write : (s.threads u).pos = .writing := by simpa [pc, fits] using fit u
  have own := inv.caller u
  simp only [Caller, CallerOk, pc] at own
  obtain ⟨live, gone⟩ := own
  simp only [opStep, pc, live, Option.map_some, Option.some.injEq] at edge
  subst edge
  constructor
  case threads => exact fun t ne => by simp [ne]
  case others => exact fun t ne => update_other (by simp [live, ne.symm]) (by simp)
  case zones =>
    intro r other
    have ne : (s.threads u).region ≠ r := fun same => other same write
    exact ⟨by simp [content, ne.symm], update_other (by simp [live]) (by simp [ne])⟩
  case own => simp [Caller, CallerOk, content]
  case mine =>
    intro b d h
    by_cases same : b = a
    · simp [same] at h
    · have claimed := inv.owned b ⟨d, .caller u⟩ (by simpa [same] using h)
      simp only [Claimed, pc, block, Option.some.injEq] at claimed
      exact absurd claimed.symm same
  case region => simp
  case whole => simp [torn]
  case named =>
    intro _ b d h
    by_cases same : b = a
    · simp [same]
    · exact absurd (by simpa [same] using h) (gone b d)
  case bound =>
    intro b above
    have below := inv.live_below live
    have ne : b ≠ a := by
      rintro rfl
      exact absurd below (Nat.not_lt.mpr above)
    simpa [ne] using inv.bound b above

omit fit in
theorem turn_setZone {z : LockedZone T} {pc' : Pc} (p : Pos) (write : (s.threads u).pos = .writing)
    (keeps : ∀ a, block (s.threads u).pc ≠ some a)
    (named : ∀ a d, s.heap a = some ⟨d, .zone (s.threads u).region⟩ → z.data = some a)
    (own : CallerOk u { s.threads u with pc := pc', pos := p } ⟨z.data, z.size, z.terminate⟩ s.heap)
    (whole : torn pc' = false →
      ZoneOk ⟨z.data, z.size, z.terminate⟩ s.heap (s.threads u).region) :
    Turn s ((s.setZone (s.threads u).region z).callLock u pc' p) u := by
  constructor
  case threads => exact fun t ne => by simp [ne]
  case others => exact fun t _ a d => Iff.rfl
  case zones =>
    intro r other
    have ne : (s.threads u).region ≠ r := fun same => other same write
    exact ⟨by simp [content, ne.symm], fun a d => Iff.rfl⟩
  case own => simpa [Caller, content] using own
  case mine => exact fun a d live => absurd (inv.owned a ⟨d, .caller u⟩ live) (keeps a)
  case region => simp
  case whole => simpa [content] using fun _ => whole
  case named => simpa using fun _ => named
  case bound => exact inv.bound

omit [DecidableEq T] fit in
theorem noBlock_of_null (null : (s.zones r).data = none) : NoBlock s.heap r := by
  intro a d live
  have claimed := inv.owned a ⟨d, .zone r⟩ live
  have pointed : (s.zones r).data = some a := claimed
  rw [null] at pointed
  cases pointed

include apart

theorem turn_opStep (out : (s.threads u).pos.inLock = false) (edge : opStep s u k = some s') :
    Turn s s' u := by
  have own := inv.caller u
  have here := fits_outside (fit u) out
  cases pc : (s.threads u).pc
  case malloc => exact turn_malloc inv fit pc edge
  case fill a => exact turn_fill inv fit pc edge
  case rejected a => exact turn_rejected inv fit pc out edge
  case setData a => exact turn_setData inv fit pc edge
  all_goals
    simp only [Caller, CallerOk, pc] at own
    simp only [pc, home] at here
    simp only [opStep, pc] at edge
  case idle => cases edge
  case done res =>
    cases edge
    exact turn_move inv fit apart (fun t ne => by simp [ne]) (fun _ => rfl) rfl rfl (by simp)
      (by simp [pc, block]) (by simp [pc, torn]) (by simp [CallerOk])
  case readSize =>
    split at edge
    · cases edge
      exact turn_move inv fit apart (fun t ne => by simp [ne]) (fun _ => rfl) rfl rfl (by simp)
        (by simp [pc, block]) (by simp [pc, torn]) (by simp [CallerOk])
    · rename_i small
      cases edge
      exact turn_startCopy inv fit apart (by simp [pc, block]) (by simp [pc, torn]) (by omega)
  case readSizeAgain =>
    cases edge
    exact turn_startCopy inv fit apart (by simp [pc, block]) (by simp [pc, torn]) (Nat.le_refl _)
  case readData cpSize =>
    split at edge
    · rename_i src pointed
      cases edge
      exact turn_move inv fit apart (fun t ne => by simp [ne]) (fun _ => rfl) rfl rfl (by simp)
        (by simp [pc, block]) (by simp [pc, torn]) (by simpa [CallerOk, content] using ⟨pointed, own.2⟩)
    · cases edge
      exact turn_move inv fit apart (fun t _ => rfl) (fun _ => rfl) rfl rfl rfl
        (fun a h => h) (by simp [pc, torn]) (by simpa [CallerOk, pc] using own)
  case copy cpSize src buffer =>
    obtain ⟨pointed, within, upto⟩ := own
    split at edge
    · cases edge
      exact turn_move inv fit apart (fun t ne => by simp [ne]) (fun _ => rfl) rfl rfl (by simp)
        (by simp [pc, block]) (by simp [pc, torn]) (by simp [CallerOk])
    · split at edge
      · split at edge
        · cases edge
          refine turn_move inv fit apart (fun t ne => by simp [ne]) (fun _ => rfl) rfl rfl (by simp)
            (by simp [pc, block]) (by simp [pc, torn]) ?_
          simp only [CallerOk, State.goto, State.setThread, Function.update_self]
          refine ⟨pointed, within, ?_⟩
          simp only [List.length_append, List.length_take, List.length_drop]
          omega
        · cases edge
          exact turn_move inv fit apart (fun t _ => rfl) (fun _ => rfl) rfl rfl rfl
            (fun a h => h) (by simp [pc, torn]) (by simpa [CallerOk, pc] using ⟨pointed, within, upto⟩)
      · cases edge
        exact turn_move inv fit apart (fun t _ => rfl) (fun _ => rfl) rfl rfl rfl
          (fun a h => h) (by simp [pc, torn]) (by simpa [CallerOk, pc] using ⟨pointed, within, upto⟩)
  case saveCond | testCond | testTerminate | testExit =>
    (repeat' split at edge) <;> cases edge <;>
      exact turn_move inv fit apart (fun t ne => by simp [ne]) (fun _ => rfl) rfl rfl (by simp)
        (by simp [pc, block]) (by simp [pc, torn]) (by simp [CallerOk])
  case testNull a =>
    split at edge
    · rename_i pointed
      cases edge
      exact turn_move inv fit apart (fun t ne => by simp [ne]) (fun _ => rfl) rfl rfl (by simp)
        (by simp [pc, block]) (by simp [pc, torn])
        (by simpa [CallerOk, content] using ⟨own, pointed⟩)
    · rename_i null
      cases edge
      have gone := noBlock_of_null inv (r := (s.threads u).region) (by simpa using null)
      exact turn_move inv fit apart (fun t ne => by simp [ne]) (fun _ => rfl) rfl rfl (by simp)
        (by simp [pc, block]) (by simp [pc, torn]) (by simpa [CallerOk] using ⟨own, gone⟩)
  case compare a =>
    split at edge
    · cases edge
      exact turn_move inv fit apart (fun t ne => by simp [ne]) (fun _ => rfl) rfl rfl (by simp)
        (by simp [pc, block]) (by simp [pc, torn]) (by simpa [CallerOk] using own.1)
    · cases edge
      exact turn_move inv fit apart (fun t ne => by simp [ne]) (fun _ => rfl) rfl rfl (by simp)
        (by simp [pc, block]) (by simp [pc, torn]) (by simpa [CallerOk] using own)
  case freeOld a =>
    obtain ⟨old, pointed⟩ := Option.isSome_iff_exists.mp own.2
    have pointed : (s.zones (s.threads u).region).data = some old := pointed
    have whole := inv.zone_inside fit apart (.inr here) (by simp [pc, torn])
    simp only [ZoneOk, content, pointed] at whole
    obtain ⟨d, live, _⟩ := whole
    rw [pointed] at edge
    cases edge
    refine turn_free inv here pointed live (by simp [pc, block]) rfl fun gone => ?_
    have ne : a ≠ old := by
      rintro rfl
      rw [own.1] at live
      cases live
    simpa [CallerOk, ne] using ⟨own.1, gone⟩
  case setSize a =>
    cases edge
    refine turn_setZone inv _ here (by simp [pc, block]) (fun b d live => ?_)
      (by simp [CallerOk]) (fun _ => ?_)
    · exact inv.owned b ⟨d, .zone (s.threads u).region⟩ live
    · have pointed : (s.zones (s.threads u).region).data = some a := own.1
      simp only [ZoneOk, pointed]
      exact ⟨_, own.2, rfl⟩
  case setCond a =>
    cases edge
    refine turn_move inv fit apart (fun t ne => by simp [ne]) (fun r => ?_) rfl rfl (by simp)
      (by simp [pc, block]) (by simp [pc, torn]) (by simp [CallerOk])
    by_cases same : r = (s.threads u).region
    · simp [content, same]
    · simp [content, same]
  case setTerminate =>
    cases edge
    have whole := inv.zone_inside fit apart (.inr here) (by simp [pc, torn])
    refine turn_setZone inv _ here (by simp [pc, block]) (fun b d live => ?_)
      (by simp [CallerOk]) (fun _ => ?_)
    · exact inv.owned b ⟨d, .zone (s.threads u).region⟩ live
    · unfold ZoneOk content at whole
      unfold ZoneOk
      cases pointed : (s.zones (s.threads u).region).data with
      | none => exact .inr rfl
      | some b => simpa [pointed] using whole
  case finishTest =>
    split at edge
    · rename_i pointed
      cases edge
      exact turn_move inv fit apart (fun t ne => by simp [ne]) (fun _ => rfl) rfl rfl (by simp)
        (by simp [pc, block]) (by simp [pc, torn])
        (by simpa [CallerOk, content] using ⟨own, pointed⟩)
    · rename_i null
      cases edge
      have gone := noBlock_of_null inv (r := (s.threads u).region) (by simpa using null)
      exact turn_move inv fit apart (fun t ne => by simp [ne]) (fun _ => rfl) rfl rfl (by simp)
        (by simp [pc, block]) (by simp [pc, torn]) (by simpa [CallerOk] using ⟨own, gone⟩)
  case finishFree =>
    obtain ⟨old, pointed⟩ := Option.isSome_iff_exists.mp own.2
    have pointed : (s.zones (s.threads u).region).data = some old := pointed
    have whole := inv.zone_inside fit apart (.inr here) (by simp [pc, torn])
    simp only [ZoneOk, content, pointed] at whole
    obtain ⟨d, live, _⟩ := whole
    rw [pointed] at edge
    cases edge
    refine turn_free inv here pointed live (by simp [pc, block]) rfl fun gone => ?_
    simpa [CallerOk] using ⟨own.1, gone⟩
  case finishNull =>
    cases edge
    refine turn_setZone inv .wunlockPost here (by simp [pc, block]) (fun b d live => ?_)
      (by simp [CallerOk]) (fun _ => .inr own.1)
    exact absurd live (own.2 b d)
  case nextZone =>
    split at edge
    · cases edge
      exact Turn.of_move inv (fun t ne => by simp [ne]) (fun _ => rfl) rfl rfl
        (by simp [pc, block]) (by simp [CallerOk]) (by simp [here]) (by simp [here])
    · cases edge
      exact turn_move inv fit apart (fun t ne => by simp [ne]) (fun _ => rfl) rfl rfl (by simp)
        (by simp [pc, block]) (by simp [pc, torn]) (by simp [CallerOk])

omit apart

omit fit in
theorem turn_lock (l : RwLock T) (p : Pos) (inside : (s.threads u).pos.inLock = true) :
    Turn s ((s.setZone (s.threads u).region { s.zones (s.threads u).region with lock := l }).setThread u
      { s.threads u with pos := p }) u := by
  refine Turn.of_move inv (fun t ne => by simp [ne]) (fun r => ?_) rfl rfl (by simp) ?_ (by simp) ?_
  · by_cases same : r = (s.threads u).region
    · simp [content, same]
    · simp [content, same]
  · simpa [Caller, CallerOk] using inv.caller u
  · intro write
    rw [write] at inside
    cases inside

theorem turn_begin (idle : (s.threads u).pc = .idle) (c : Call) : Turn s (begin s u c) u := by
  have out := out_of_idle (fit u) idle
  unfold begin
  cases c <;> (repeat' split) <;>
    exact Turn.of_move inv (fun t ne => by simp [ne]) (fun _ => rfl) rfl rfl
      (by simp [idle, block]) (by simp [CallerOk]) (by simp [out]) (by simp [out])

include apart

theorem Inv.step {a : Label T} (edge : memStep s a = some s') : Inv s' := by
  cases a with
  | call u c =>
    simp only [memStep, Option.ite_none_right_eq_some] at edge
    obtain ⟨idle, edge⟩ := edge
    cases edge
    exact (turn_begin inv fit idle c).inv fit apart inv
  | step u k =>
    simp only [memStep] at edge
    split at edge
    · rename_i inside
      obtain ⟨⟨l, p⟩, _, rfl⟩ := Option.map_eq_some_iff.mp edge
      exact (turn_lock inv l p inside).inv fit apart inv
    · rename_i outside
      exact (turn_opStep inv fit apart (by simpa using outside) edge).inv fit apart inv

/-- The caller is about to read through the null pointer of a region that has been shut down. -/
structure NullRead (s : State T) (t : T) : Prop where
  reads : ∃ cpSize, (s.threads t).pc = .readData cpSize
  null : (s.zones (s.threads t).region).data = none
  shut : (s.zones (s.threads t).region).terminate = true

theorem fault_of_step {a : Label T} (edge : memStep s a = some s') (sound : s.fault = false)
    (bad : s'.fault = true) : NullRead s a.thread := by
  cases a with
  | call u c =>
    simp only [memStep, Option.ite_none_right_eq_some] at edge
    obtain ⟨_, edge⟩ := edge
    cases edge
    unfold begin at bad
    cases c <;> (repeat' split at bad) <;> simp_all
  | step u k =>
    simp only [memStep] at edge
    split at edge
    · obtain ⟨⟨l, p⟩, _, rfl⟩ := Option.map_eq_some_iff.mp edge
      simp [sound] at bad
    · rename_i outside
      have own := inv.caller u
      have here := fits_outside (fit u) (by simpa using outside)
      have whole (inside : home (s.threads u).pc = .reading ∨ home (s.threads u).pc = .writing)
          (clean : torn (s.threads u).pc = false) :=
        inv.zone_inside fit apart (here ▸ inside) clean
      simp only [Caller, CallerOk] at own
      unfold opStep at edge
      cases pc : (s.threads u).pc <;> simp only [pc] at own edge whole
      case readData cpSize =>
        split at edge
        · cases edge
          simp [sound] at bad
        · rename_i null
          have shut := whole (.inl rfl) rfl
          simp only [ZoneOk, content, null] at shut
          refine ⟨⟨cpSize, pc⟩, null, shut.resolve_left fun zero => ?_⟩
          have within : cpSize ≤ (s.zones (s.threads u).region).size := own.2
          have some_bytes := own.1
          omega
      case copy cpSize src buffer =>
        obtain ⟨pointed, within, upto⟩ := own
        have pointed : (s.zones (s.threads u).region).data = some src := pointed
        have within : cpSize ≤ (s.zones (s.threads u).region).size := within
        have live := whole (.inl rfl) rfl
        simp only [ZoneOk, content, pointed] at live
        obtain ⟨d, live, length⟩ := live
        simp only [live] at edge
        split at edge
        · cases edge
          simp [sound] at bad
        · split at edge
          · cases edge
            simp [sound] at bad
          · omega
      case fill a =>
        obtain ⟨d, _, live⟩ := own
        simp only [live] at edge
        split at edge <;> cases edge <;> simp [sound] at bad
      case rejected a =>
        rw [free_live own] at edge
        cases edge
        simp [sound] at bad
      case freeOld a =>
        obtain ⟨old, pointed⟩ := Option.isSome_iff_exists.mp own.2
        have pointed : (s.zones (s.threads u).region).data = some old := pointed
        have live := whole (.inr rfl) rfl
        simp only [ZoneOk, content, pointed] at live
        obtain ⟨d, live, _⟩ := live
        rw [pointed] at edge
        simp only [free_live live] at edge
        cases edge
        simp [sound] at bad
      case finishFree =>
        obtain ⟨old, pointed⟩ := Option.isSome_iff_exists.mp own.2
        have pointed : (s.zones (s.threads u).region).data = some old := pointed
        have live := whole (.inr rfl) rfl
        simp only [ZoneOk, content, pointed] at live
        obtain ⟨d, live, _⟩ := live
        rw [pointed] at edge
        simp only [free_live live] at edge
        cases edge
        simp [sound] at bad
      case readSize | readSizeAgain =>
        simp only [State.startCopy] at edge
        (repeat' split at edge) <;> cases edge <;> simp [sound] at bad
      all_goals (repeat' split at edge) <;> cases edge <;> simp [sound] at bad

end Statements

end Turns

section Runs

variable {T : Type u} [DecidableEq T] {s : State T}

theorem inv_of_reach [Fintype T] (h : (memSystem T).Reach System.anyStep s) : Inv s := by
  refine h.invariant_of (I := Inv) (fun _ => reach_balanced_or_starved) ?_
    fun m a m' reach inv _ edge => ?_
  · exact ⟨fun _ _ => .inl rfl, fun _ => trivial, (fun _ _ live => by cases live), fun _ _ => rfl⟩
  · exact inv.step reach.1 (apart_of_regimes reach.2) edge

/-- No block is lost, and no caller or region has the address of a block that is gone. -/
structure Accounted (s : State T) : Prop where
  owned : ∀ a b, s.heap a = some b → Claimed s a b.owner
  puts : ∀ t a, block (s.threads t).pc = some a → ∃ d, s.heap a = some ⟨d, .caller t⟩
  regions : ∀ r, (∀ t, (s.threads t).region = r → (s.threads t).pos ≠ .writing) →
    ZoneOk (content s r) s.heap r

omit [DecidableEq T] in
theorem Inv.accounted (inv : Inv s) (fit : Fits s) : Accounted s where
  owned := inv.owned
  puts t a holds := by
    have own := inv.caller t
    unfold Caller CallerOk at own
    cases pc : (s.threads t).pc <;> rw [pc] at holds <;> simp only [block, reduceCtorEq] at holds <;>
      cases holds <;> simp only [pc] at own
    case fill =>
      obtain ⟨d, _, live⟩ := own
      exact ⟨d, live⟩
    case testNull | rejected => exact ⟨_, own⟩
    all_goals exact ⟨_, own.1⟩
  regions r quiet := inv.zone r fun t there => by
    by_contra touched
    exact quiet t there (writing_of_torn fit (by simpa using touched))

theorem memory_accounted [Fintype T] (h : (memSystem T).Reach System.anyStep s) :
    Accounted s ∧ (s.fault = true → ∃ r, (s.zones r).terminate = true) ∧
      ∀ a s', memStep s a = some s' → s.fault = false → s'.fault = true → NullRead s a.thread := by
  have regimes {m : State T} (reach : (memSystem T).Reach System.anyStep m) :=
    reach_balanced_or_starved reach
  refine ⟨(inv_of_reach h).accounted (regimes h).1, ?_, fun a s' edge sound bad =>
    fault_of_step (inv_of_reach h) (regimes h).1 (apart_of_regimes (regimes h).2) edge sound bad⟩
  refine h.invariant_of (I := fun m => m.fault = true → ∃ r, (m.zones r).terminate = true)
    (fun m reach => And.intro (inv_of_reach reach) (regimes reach)) (by simp [memSystem])
    fun m a m' reach known _ edge bad => ?_
  obtain ⟨inv, fit, regimes⟩ := reach
  cases sound : m.fault with
  | true =>
    obtain ⟨r, shut⟩ := known sound
    exact ⟨r, terminate_kept edge shut⟩
  | false =>
    have null := fault_of_step inv fit (apart_of_regimes regimes) edge sound bad
    exact ⟨_, terminate_kept edge null.shut⟩

/-- In every run of any number of gets, puts, waits and shutdowns in which no caller goes to sleep
while another thread holds the mutex of its region, each live block belongs to one put in progress or
to one region, which has its address, and neither has the address of a dead one. The only bad access
such a run can come to is that of a get which reads through the null pointer of a region that has been
shut down. -/
theorem blocks_accounted [Fintype T] {s : Torn T}
    (h : (tornSystem T).Reach (calmly System.anyStep) s) :
    Accounted s.mem ∧ (s.mem.fault = true → ∃ r, (s.mem.zones r).terminate = true) ∧
      ∀ a s', tornStep s a = some s' → s.mem.fault = false → s'.mem.fault = true →
        NullRead s.mem a.thread := by
  obtain ⟨whole, reach⟩ := reach_of_calm h
  obtain ⟨accounted, faults, causes⟩ := memory_accounted reach
  refine ⟨accounted, faults, fun a s' edge sound bad => ?_⟩
  obtain ⟨same, -⟩ | ⟨goes, -⟩ := whole.step_cases edge
  · rw [same, sound] at bad
    cases bad
  · exact causes a s'.mem goes sound bad

private def lateGetRun {T : Type u} (t u : T) : List (Label T) :=
  [Label.call t (.put 0 [1] 1)] ++ List.replicate 11 (Label.step t 0) ++ [Label.call u .finish] ++
    List.replicate 72 (Label.step u 0) ++ [Label.call t (.get 0 4)] ++
    List.replicate 8 (Label.step t 0)

theorem blocks_accounted_late : ∃ s s' : Torn (Fin 2),
    (tornSystem (Fin 2)).Reach (calmly System.anyStep) s ∧ tornStep s (.step 0 0) = some s' ∧
    s.mem.fault = false ∧ s'.mem.fault = true ∧ NullRead s.mem 0 := by
  have reached : ∃ s : Torn (Fin 2), (tornSystem (Fin 2)).Reach (calmly System.anyStep) s ∧
      (decide (s.mem.fault = false) &&
        ((tornStep s (.step 0 0)).map fun s' => s'.mem.fault).getD false) = true :=
    System.reach_of_guardedRun _ true (lateGetRun 0 1) (by decide +kernel)
  obtain ⟨s, reach, seen⟩ := reached
  obtain ⟨sound, goes⟩ := Bool.and_eq_true_iff.mp seen
  have sound := of_decide_eq_true sound
  cases edge : tornStep s (.step 0 0) with
  | none =>
    rw [edge] at goes
    cases goes
  | some s' =>
    rw [edge] at goes
    exact ⟨s, s', reach, edge, sound, goes,
      (blocks_accounted reach).2.2 (.step 0 0) s' edge sound goes⟩

end Runs

end DistributedClipboard.Mem.Blocks
