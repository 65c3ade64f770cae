/- module: DistributedClipboard/Mem/Linearizable
   source: src/src/mem/clmem.c
   layer: refinement
   digest: Concurrent gets and puts of the memory are a linearizable timestamp-guarded store. -/

import DistributedClipboard.Mem.LockView
import DistributedClipboard.Thread.Sections

set_option autoImplicit false
set_option relaxedAutoImplicit false

namespace DistributedClipboard.Mem.Linearizable

open DistributedClipboard.Common
open DistributedClipboard.Lib.Linearizability
open DistributedClipboard.Lib.Transition
open DistributedClipboard.Mem.Clmem
open DistributedClipboard.Mem.LockView
open DistributedClipboard.Mem.Threads
open DistributedClipboard.Thread.Rwlock
open DistributedClipboard.Thread.Sections (writer_alone step_keeps_inv)

universe u

/-- Threads call `mem_get` and `mem_put` only. -/
def getsAndPuts {T : Type u} : State T → Label T → Prop
  | _, .call _ (.get _ _) | _, .call _ (.put _ _ _) => True
  | _, .call _ (.wait _ _) | _, .call _ .finish => False
  | _, .step _ _ => True

/-- What `mem_get` and `mem_put` read and write of a zone. -/
structure Fields where
  data : Option Nat
  size : Nat
  updateCond : Nat

section Model

variable {T : Type u}

def fields (s : State T) (r : Region) : Fields :=
  ⟨(s.zones r).data, (s.zones r).size, (s.zones r).updateCond⟩

/-- The store at the points passed so far. -/
def store (s : State T) : Store := s.recorder.state storeSpec

def Stored (z : Fields) (heap : Nat → Option (Block T)) (r : Region) :
    Option (List UInt8 × Nat) → Prop
  | none => z.data = none ∧ z.size = 0
  | some (d, stamp) =>
    (∃ a, z.data = some a ∧ heap a = some ⟨d, .zone r⟩) ∧ z.size = d.length ∧ z.updateCond = stamp

/-- Between the first and the last of the three writes of `mem_put`. -/
def dirty : Pc → Bool
  | .setData _ | .setSize _ | .setCond _ => true
  | _ => false

def Getting (th : Thread) (ph : Phase Op Res) : Prop :=
  ∃ c region, ph = .called c (.get region th.size) ∧ regionOf region = some th.region

def Putting (th : Thread) (ph : Phase Op Res) : Prop :=
  ∃ c region, ph = .called c (.put region th.data th.updateCond) ∧
    regionOf region = some th.region ∧ th.data ≠ []

def CallerOk (t : T) (th : Thread) (ph : Phase Op Res) (z : Fields)
    (heap : Nat → Option (Block T)) (kept : Option (List UInt8 × Nat)) : Prop :=
  match th.pc with
  | .idle => ph = .idle
  | .done res => ∃ c o, ph = .decided c o res
  | .readSize => Getting th ph
  | .readSizeAgain => Getting th ph ∧ z.size < th.size
  | .readData cpSize => Getting th ph ∧ cpSize = min th.size z.size ∧ cpSize ≠ 0
  | .copy cpSize src buffer => Getting th ph ∧ cpSize = min th.size z.size ∧ z.data = some src ∧
      ∃ d stamp, kept = some (d, stamp) ∧ buffer <+: d ∧ buffer.length ≤ cpSize
  | .malloc => Putting th ph
  | .fill a => Putting th ph ∧ ∃ bytes, bytes <+: th.data ∧ heap a = some ⟨bytes, .caller t⟩
  | .testNull a => Putting th ph ∧ heap a = some ⟨th.data, .caller t⟩
  | .compare a => Putting th ph ∧ heap a = some ⟨th.data, .caller t⟩ ∧ z.data ≠ none
  | .rejected a => (∃ c o, ph = .decided c o (.count 0)) ∧ heap a = some ⟨th.data, .caller t⟩
  | .freeOld a => Putting th ph ∧ heap a = some ⟨th.data, .caller t⟩ ∧
      z.updateCond ≤ th.updateCond
  | .setData a => Putting th ph ∧ heap a = some ⟨th.data, .caller t⟩ ∧
      ∀ d stamp, kept = some (d, stamp) → stamp ≤ th.updateCond
  | .setSize a => Putting th ph ∧ z.data = some a ∧ heap a = some ⟨th.data, .zone th.region⟩ ∧
      ∀ d stamp, kept = some (d, stamp) → stamp ≤ th.updateCond
  | .setCond a => Putting th ph ∧ z.data = some a ∧ heap a = some ⟨th.data, .zone th.region⟩ ∧
      z.size = th.data.length ∧ ∀ d stamp, kept = some (d, stamp) → stamp ≤ th.updateCond
  | _ => False

def Caller (s : State T) (t : T) : Prop :=
  CallerOk t (s.threads t) (s.recorder.phase t) (fields s (s.threads t).region) s.heap
    (store s (s.threads t).region)

structure DataInv (s : State T) : Prop where
  stored : ∀ r, (∀ t, (s.threads t).region = r → dirty (s.threads t).pc = false) →
    Stored (fields s r) s.heap r (store s r)
  caller : ∀ t, Caller s t
  bound : ∀ a, s.brk ≤ a → s.heap a = none
  valid : s.recorder.Valid storeSpec
  sound : s.fault = false

end Model

section Invariant

variable {T : Type u} [Fintype T] [DecidableEq T] {s s' : State T} {t u : T}

def LocksOk (s : State T) : Prop := ∀ r, Inv (s.zones r).lock (posAt s r)

theorem LocksOk.alone (h : LocksOk s) (write : (s.threads t).pos = .writing) (ne : u ≠ t)
    (same : (s.threads u).region = (s.threads t).region) :
    (s.threads u).pos ≠ .reading ∧ (s.threads u).pos ≠ .writing := by
  have := writer_alone (h (s.threads t).region) (t := t) (u := u)
    (by simp [posAt, write, Pos.holdsWrite]) ne
  simp only [posAt, same, if_true] at this
  constructor <;> intro eq <;> simp [eq, Pos.holdsWrite, Pos.holdsGroup] at this

structure SameZone (s s' : State T) (r : Region) : Prop where
  fields : fields s' r = fields s r
  store : store s' r = store s r
  blocks : ∀ a d, s.heap a = some ⟨d, .zone r⟩ → s'.heap a = some ⟨d, .zone r⟩

omit [Fintype T] [DecidableEq T] in
theorem piece_prefix {part whole : List UInt8} (h : part <+: whole) (n : Nat) :
    part ++ (whole.drop part.length).take n <+: whole := by
  obtain ⟨rest, rfl⟩ := h
  rw [List.drop_left]
  exact (List.prefix_append_right_inj part).mpr (List.take_prefix n rest)

structure Good (s s' : State T) (u : T) : Prop where
  threads : ∀ t, t ≠ u → s'.threads t = s.threads t
  phases : ∀ t, t ≠ u → s'.recorder.phase t = s.recorder.phase t
  blocks : ∀ t, t ≠ u → ∀ a d, s.heap a = some ⟨d, .caller t⟩ → s'.heap a = some ⟨d, .caller t⟩
  zones : ∀ r, ((s.threads u).region = r → (s.threads u).pos ≠ .writing) → SameZone s s' r
  own : Caller s' u
  region : (s.threads u).pos = .writing → (s'.threads u).region = (s.threads u).region
  stored : (s.threads u).pos = .writing → dirty (s'.threads u).pc = false →
    Stored (Linearizable.fields s' (s.threads u).region) s'.heap (s.threads u).region
      (Linearizable.store s' (s.threads u).region)
  bound : ∀ a, s'.brk ≤ a → s'.heap a = none
  valid : s'.recorder.Valid storeSpec
  sound : s'.fault = false

omit [Fintype T] [DecidableEq T] in
theorem Stored.same {r : Region} (zone : SameZone s s' r)
    (h : Stored (fields s r) s.heap r (store s r)) :
    Stored (fields s' r) s'.heap r (store s' r) := by
  rw [zone.fields, zone.store]
  cases hk : store s r with
  | none => rwa [hk] at h
  | some kept =>
    obtain ⟨d, stamp⟩ := kept
    rw [hk] at h
    obtain ⟨⟨a, pointer, block⟩, rest⟩ := h
    exact ⟨⟨a, pointer, zone.blocks a d block⟩, rest⟩

omit [Fintype T] [DecidableEq T] in
theorem writing_of_dirty (fit : Fits s) (h : dirty (s.threads t).pc = true) :
    (s.threads t).pos = .writing := by
  have here := fit t
  cases hpc : (s.threads t).pc <;> rw [hpc] at h here <;> simp_all [dirty, fits]

theorem DataInv.stored_inside (inv : DataInv s) (fit : Fits s) (locks : LocksOk s)
    (inside : (s.threads u).pos = .reading ∨ (s.threads u).pos = .writing)
    (clean : dirty (s.threads u).pc = false) :
    Stored (fields s (s.threads u).region) s.heap (s.threads u).region
      (store s (s.threads u).region) := by
  refine inv.stored _ fun t same => ?_
  by_cases eq : u = t
  · exact eq ▸ clean
  · by_contra touched
    have write := writing_of_dirty fit (by simpa using touched)
    obtain ⟨notReading, notWriting⟩ := locks.alone write eq same.symm
    exact inside.elim notReading notWriting

theorem Good.zone_of_inside (good : Good s s' u) (locks : LocksOk s) (ne : t ≠ u)
    (inside : (s.threads t).pos = .reading ∨ (s.threads t).pos = .writing) :
    SameZone s s' (s.threads t).region := by
  refine good.zones _ fun same write => ?_
  obtain ⟨notReading, notWriting⟩ := locks.alone write ne same.symm
  exact inside.elim notReading notWriting

theorem Good.frame (good : Good s s' u) (fit : Fits s) (locks : LocksOk s) (ne : t ≠ u)
    (h : Caller s t) : Caller s' t := by
  have here := fit t
  have zone := good.zone_of_inside locks ne
  have block := good.blocks t ne
  unfold Caller CallerOk at h ⊢
  rw [good.threads t ne, good.phases t ne]
  cases hpc : (s.threads t).pc <;> rw [hpc] at here <;> simp only [hpc] at h ⊢ <;>
    simp only [fits, decide_eq_true_eq] at here
  case idle | done | readSize | malloc => exact h
  case readSizeAgain | readData | copy =>
    have same := zone (.inl here)
    rw [same.fields]
    try rw [same.store]
    exact h
  case fill a =>
    obtain ⟨putting, bytes, part, own⟩ := h
    exact ⟨putting, bytes, part, block a _ own⟩
  case testNull a | rejected a => exact ⟨h.1, block a _ h.2⟩
  case compare a | freeOld a =>
    rw [(zone (.inr here)).fields]
    exact ⟨h.1, block a _ h.2.1, h.2.2⟩
  case setData a =>
    rw [(zone (.inr here)).store]
    exact ⟨h.1, block a _ h.2.1, h.2.2⟩
  case setSize a | setCond a =>
    have same := zone (.inr here)
    rw [same.fields, same.store]
    obtain ⟨putting, pointer, own, rest⟩ := h
    exact ⟨putting, pointer, same.blocks a _ own, rest⟩

theorem Good.inv (good : Good s s' u) (fit : Fits s) (locks : LocksOk s) (inv : DataInv s) :
    DataInv s' where
  stored r clean := by
    by_cases mine : (s.threads u).region = r ∧ (s.threads u).pos = .writing
    · obtain ⟨rfl, write⟩ := mine
      exact good.stored write (clean u (good.region write))
    · have zone := good.zones r fun same write => mine ⟨same, write⟩
      refine Stored.same zone (inv.stored r fun t same => ?_)
      by_cases eq : t = u
      · subst eq
        by_contra touched
        exact mine ⟨same, writing_of_dirty fit (by simpa using touched)⟩
      · have := clean t
        rw [good.threads t eq] at this
        exact this same
  caller t := by
    by_cases eq : t = u
    · exact eq ▸ good.own
    · exact good.frame fit locks eq (inv.caller t)
  bound := good.bound
  valid := good.valid
  sound := good.sound

section Statements

attribute [local simp] State.setThread State.setZone State.setBlock State.goto State.callLock
  State.decide

omit [Fintype T] [DecidableEq T] in
theorem Good.of_move (inv : DataInv s)
    (threads : ∀ t, t ≠ u → s'.threads t = s.threads t)
    (zones : ∀ r, Linearizable.fields s' r = Linearizable.fields s r)
    (heap : s'.heap = s.heap) (brk : s'.brk = s.brk) (fault : s'.fault = s.fault)
    (phases : ∀ t, t ≠ u → s'.recorder.phase t = s.recorder.phase t)
    (store : Linearizable.store s' = Linearizable.store s)
    (valid : s'.recorder.Valid storeSpec) (own : Caller s' u)
    (region : (s.threads u).pos = .writing → (s'.threads u).region = (s.threads u).region)
    (stored : (s.threads u).pos = .writing →
      Stored (Linearizable.fields s (s.threads u).region) s.heap (s.threads u).region
        (Linearizable.store s (s.threads u).region)) : Good s s' u where
  threads := threads
  phases := phases
  blocks t _ a d h := by rw [heap, h]
  zones r _ := ⟨zones r, by rw [store], fun a d h => by rw [heap, h]⟩
  own := own
  region := region
  stored write _ := by
    rw [zones, heap, store]
    exact stored write
  bound := by
    rw [heap, brk]
    exact inv.bound
  valid := valid
  sound := fault.trans inv.sound

omit [Fintype T] [DecidableEq T] in
private theorem apart_of_owner {a b : Nat} {d e : List UInt8} {o o' : Owner T}
    (h : s.heap a = some ⟨d, o⟩) (other : s.heap b = some ⟨e, o'⟩) (ne : o ≠ o') : b ≠ a := by
  rintro rfl
  rw [h] at other
  cases other
  exact ne rfl

omit [Fintype T] [DecidableEq T] in
private theorem DataInv.live_below (inv : DataInv s) {a : Nat} {b : Block T}
    (h : s.heap a = some b) : a < s.brk := by
  by_contra above
  have := inv.bound a (by omega)
  rw [h] at this
  cases this

variable (inv : DataInv s) (fit : Fits s) (locks : LocksOk s)

include inv fit locks

theorem good_callLock {pc : Pc} (pos : Pos) (clean : dirty (s.threads u).pc = false)
    (own : CallerOk u { s.threads u with pc := pc } (s.recorder.phase u)
      (fields s (s.threads u).region) s.heap (store s (s.threads u).region)) :
    Good s (s.callLock u pc pos) u := by
  refine Good.of_move inv (fun t ne => by simp [ne]) (fun _ => rfl) rfl rfl rfl (fun _ _ => rfl)
    rfl inv.valid ?_ (fun _ => by simp)
    (fun write => inv.stored_inside fit locks (.inr write) clean)
  simp only [Caller, State.callLock, State.setThread, Function.update_self]
  exact own

theorem good_decide {pc : Pc} {res : Res} (pos : Pos) {c : Nat} {o : Op}
    (clean : dirty (s.threads u).pc = false) (phase : s.recorder.phase u = .called c o)
    (answer : storeApply (store s) o = (res, store s))
    (own : CallerOk u { s.threads u with pc := pc } (.decided c o res)
      (fields s (s.threads u).region) s.heap (store s (s.threads u).region)) :
    Good s ((s.callLock u pc pos).decide u res) u := by
  have same : Linearizable.store ((s.callLock u pc pos).decide u res) = Linearizable.store s := by
    have decided : (s.recorder.decide u res).state storeSpec = _ :=
      Recorder.state_decide phase res
    simp only [store, State.decide, State.callLock, State.setThread, decided]
    exact congrArg Prod.snd answer
  refine Good.of_move inv (fun t ne => by simp [ne]) (fun _ => rfl) rfl rfl rfl ?_ same ?_ ?_
    (fun _ => by simp) (fun write => inv.stored_inside fit locks (.inr write) clean)
  · intro t ne
    simp [Recorder.phase_decide phase, ne]
  · refine inv.valid.decide u fun c' o' called => ?_
    obtain ⟨rfl, rfl⟩ : c = c' ∧ o = o' := by simpa [phase] using called
    exact congrArg Prod.fst answer
  · rw [Caller, same]
    simp only [State.decide, State.callLock, State.setThread, Function.update_self,
      Recorder.phase_decide phase]
    exact own

theorem good_finishRead {buffer : List UInt8} (clean : dirty (s.threads u).pc = false)
    (getting : Getting (s.threads u) (s.recorder.phase u))
    (right : storeGet (store s) (s.threads u).region (s.threads u).size = buffer) :
    Good s (s.finishRead u buffer) u := by
  obtain ⟨c, region, phase, valid⟩ := getting
  exact good_decide inv fit locks .runlockLock clean phase (by simp [storeApply, valid, right])
    ⟨c, _, rfl⟩

theorem good_startCopy {cpSize : Nat} (read : (s.threads u).pos = .reading)
    (clean : dirty (s.threads u).pc = false)
    (getting : Getting (s.threads u) (s.recorder.phase u))
    (size : cpSize = min (s.threads u).size (fields s (s.threads u).region).size) :
    Good s (s.startCopy u cpSize) u := by
  have stored := inv.stored_inside fit locks (.inl read) clean
  unfold State.startCopy
  split
  · rename_i zero
    refine good_finishRead inv fit locks clean getting ?_
    unfold storeGet
    cases hk : store s (s.threads u).region with
    | none => rfl
    | some kept =>
      rw [hk] at stored
      obtain ⟨_, length, _⟩ := stored
      rw [zero, length] at size
      have : (s.threads u).size = 0 ∨ kept.1.length = 0 := by omega
      simpa [List.take_eq_nil_iff] using this
  · rename_i some_bytes
    exact good_callLock inv fit locks _ clean ⟨getting, size, some_bytes⟩

theorem good_readData {cpSize k : Nat} (pc : (s.threads u).pc = .readData cpSize)
    (edge : opStep s u k = some s') : Good s s' u := by
  have here := fit u
  have own := inv.caller u
  simp only [Caller, CallerOk, pc] at own
  obtain ⟨getting, size, some_bytes⟩ := own
  simp only [fits, pc, decide_eq_true_eq] at here
  have stored := inv.stored_inside fit locks (.inl here) (by rw [pc]; rfl)
  cases hk : store s (s.threads u).region with
  | none =>
    rw [hk] at stored
    have empty := stored.2
    omega
  | some kept =>
    obtain ⟨d, stamp⟩ := kept
    rw [hk] at stored
    obtain ⟨⟨a, pointer, block⟩, length, _⟩ := stored
    have pointed : (s.zones (s.threads u).region).data = some a := pointer
    simp only [opStep, pc, pointed, Option.some.injEq] at edge
    subst edge
    exact good_callLock inv fit locks _ (by rw [pc]; rfl)
      ⟨getting, size, pointer, d, stamp, hk, by simp, by simp⟩

theorem good_copy {cpSize src k : Nat} {buffer : List UInt8}
    (pc : (s.threads u).pc = .copy cpSize src buffer) (edge : opStep s u k = some s') :
    Good s s' u := by
  have here := fit u
  have own := inv.caller u
  simp only [Caller, CallerOk, pc] at own
  obtain ⟨getting, size, pointer, d, stamp, kept, copied, upto⟩ := own
  simp only [fits, pc, decide_eq_true_eq] at here
  have stored := inv.stored_inside fit locks (.inl here) (by rw [pc]; rfl)
  rw [kept] at stored
  obtain ⟨⟨a, pointer', block⟩, length, _⟩ := stored
  obtain rfl : src = a := by simpa [pointer] using pointer'
  have within : cpSize ≤ d.length := by omega
  simp only [opStep, pc] at edge
  split at edge
  · rename_i complete
    cases edge
    refine good_finishRead inv fit locks (by rw [pc]; rfl) getting ?_
    rw [List.prefix_iff_eq_take.mp copied, complete, size, length]
    simp [storeGet, kept, List.take_eq_take_iff]
  · rw [block] at edge
    simp only at edge
    split at edge
    · cases edge
      refine good_callLock inv fit locks _ (by rw [pc]; rfl)
        ⟨getting, size, pointer, d, stamp, kept, piece_prefix copied _, ?_⟩
      simp
      omega
    · omega

omit [Fintype T] locks in
theorem good_malloc {k : Nat} (pc : (s.threads u).pc = .malloc)
    (edge : opStep s u k = some s') : Good s s' u := by
  have here := fit u
  have own := inv.caller u
  simp only [Caller, CallerOk, pc] at own
  simp only [fits, pc, decide_eq_true_eq] at here
  simp only [opStep, pc, Option.some.injEq] at edge
  subst edge
  have live {a : Nat} {b : Block T} (h : s.heap a = some b) : a ≠ s.brk :=
    Nat.ne_of_lt (inv.live_below h)
  refine ⟨fun t ne => by simp [ne], fun _ _ => rfl, fun t _ a d h => ?_, fun r _ => ?_, ?_,
    fun _ => by simp, fun write => ?_, fun a above => ?_, inv.valid, inv.sound⟩
  · simpa [live h] using h
  · refine ⟨rfl, rfl, fun a d h => ?_⟩
    simpa [live h] using h
  · simp only [Caller, State.setBlock, State.goto, State.setThread, Function.update_self]
    exact ⟨own, [], List.nil_prefix, Function.update_self ..⟩
  · rw [here] at write
    cases write
  · simp only [State.setBlock, State.goto, State.setThread] at above ⊢
    rw [Function.update_of_ne (by omega)]
    exact inv.bound a (by omega)

theorem good_fill {a k : Nat} (pc : (s.threads u).pc = .fill a) (edge : opStep s u k = some s') :
    Good s s' u := by
  have here := fit u
  have own := inv.caller u
  simp only [Caller, CallerOk, pc] at own
  obtain ⟨putting, bytes, part, block⟩ := own
  simp only [fits, pc, decide_eq_true_eq] at here
  simp only [opStep, pc, block] at edge
  split at edge
  · rename_i complete
    cases edge
    obtain rfl := part.eq_of_length complete
    exact good_callLock inv fit locks _ (by rw [pc]; rfl) ⟨putting, block⟩
  · cases edge
    refine ⟨fun t ne => rfl, fun _ _ => rfl, fun t ne b d h => ?_, fun r _ => ?_, ?_,
      fun _ => rfl, fun write => ?_, fun b above => ?_, inv.valid, inv.sound⟩
    · have apart := apart_of_owner block h (by simpa using Ne.symm ne)
      simpa [apart] using h
    · refine ⟨rfl, rfl, fun b d h => ?_⟩
      have apart := apart_of_owner block h (by simp)
      simpa [apart] using h
    · simp only [Caller, State.setBlock, CallerOk, pc]
      exact ⟨putting, _, piece_prefix part _, Function.update_self ..⟩
    · rw [here] at write
      cases write
    · have apart : b ≠ a := Nat.ne_of_gt (Nat.lt_of_lt_of_le (inv.live_below block) above)
      simpa [apart] using inv.bound b above

theorem good_testNull {a k : Nat} (pc : (s.threads u).pc = .testNull a)
    (out : (s.threads u).pos.inLock = false) (edge : opStep s u k = some s') : Good s s' u := by
  have here := fit u
  have own := inv.caller u
  simp only [Caller, CallerOk, pc] at own
  obtain ⟨putting, block⟩ := own
  have write : (s.threads u).pos = .writing := by
    cases hp : (s.threads u).pos <;> simp_all [fits, Pos.fn?, Pos.inLock]
  have stored := inv.stored_inside fit locks (.inr write) (by rw [pc]; rfl)
  simp only [opStep, pc] at edge
  split at edge <;> cases edge
  · rename_i some_data
    refine good_callLock inv fit locks _ (by rw [pc]; rfl) ⟨putting, block, ?_⟩
    exact Option.isSome_iff_ne_none.mp some_data
  · rename_i no_data
    refine good_callLock inv fit locks _ (by rw [pc]; rfl) ⟨putting, block, fun d stamp kept => ?_⟩
    rw [kept] at stored
    obtain ⟨⟨b, pointer, _⟩, _⟩ := stored
    have : (s.zones (s.threads u).region).data = some b := pointer
    simp [this] at no_data

theorem good_compare {a k : Nat} (pc : (s.threads u).pc = .compare a)
    (edge : opStep s u k = some s') : Good s s' u := by
  have here := fit u
  have own := inv.caller u
  simp only [Caller, CallerOk, pc] at own
  obtain ⟨putting, block, some_data⟩ := own
  simp only [fits, pc, decide_eq_true_eq] at here
  have stored := inv.stored_inside fit locks (.inr here) (by rw [pc]; rfl)
  simp only [opStep, pc] at edge
  split at edge <;> cases edge
  · rename_i stale
    cases hk : store s (s.threads u).region with
    | none =>
      rw [hk] at stored
      exact absurd stored.1 some_data
    | some kept =>
      rw [hk] at stored
      obtain ⟨_, _, cond⟩ := stored
      have older : (s.threads u).updateCond < kept.2 := cond ▸ stale
      obtain ⟨c, region, phase, valid, nonempty⟩ := putting
      refine good_decide inv fit locks _ (by rw [pc]; rfl) phase ?_ ⟨⟨c, _, rfl⟩, block⟩
      simp [storeApply, storePut, valid, nonempty, hk, older]
  · rename_i fresh
    exact good_callLock inv fit locks _ (by rw [pc]; rfl) ⟨putting, block, Nat.le_of_not_lt fresh⟩

omit [Fintype T] fit locks in
theorem good_free {a : Nat} {pc : Pc} {d : List UInt8} {o : Owner T}
    (block : s.heap a = some ⟨d, o⟩)
    (mine : o = .caller u ∧ (s.threads u).pos ≠ .writing ∨
      o = .zone (s.threads u).region ∧ (s.threads u).pos = .writing ∧ dirty pc = true)
    (own : CallerOk u { s.threads u with pc := pc } (s.recorder.phase u)
      (fields s (s.threads u).region) (Function.update s.heap a none)
      (store s (s.threads u).region)) :
    Good s ((s.free a).goto u pc) u := by
  have freed : s.free a = s.setBlock a none := by simp [State.free, block]
  rw [freed]
  refine ⟨fun t ne => by simp [ne], fun _ _ => rfl, fun t ne b e h => ?_, fun r clear => ?_, ?_,
    fun _ => by simp, fun write clean => ?_, fun b above => ?_, inv.valid, inv.sound⟩
  · have apart : b ≠ a := apart_of_owner block h (by
      rcases mine with ⟨rfl, _⟩ | ⟨rfl, _⟩
      · simpa using Ne.symm ne
      · simp)
    simpa [apart] using h
  · refine ⟨rfl, rfl, fun b e h => ?_⟩
    have apart : b ≠ a := apart_of_owner block h (by
      rcases mine with ⟨rfl, _⟩ | ⟨rfl, write, _⟩
      · simp
      · intro same
        exact clear (Owner.zone.inj same) write)
    simpa [apart] using h
  · simp only [Caller, State.setBlock, State.goto, State.setThread, Function.update_self]
    exact own
  · rcases mine with ⟨_, notWriting⟩ | ⟨_, _, touched⟩
    · exact absurd write notWriting
    · simp [touched] at clean
  · by_cases eq : b = a
    · subst eq
      simp
    · simpa [eq] using inv.bound b above

omit [Fintype T] locks in
theorem good_rejected {a k : Nat} (pc : (s.threads u).pc = .rejected a)
    (edge : opStep s u k = some s') : Good s s' u := by
  have here := fit u
  have own := inv.caller u
  simp only [Caller, CallerOk, pc] at own
  obtain ⟨decided, block⟩ := own
  simp only [opStep, pc, Option.some.injEq] at edge
  subst edge
  refine good_free inv block (.inl ⟨rfl, fun write => ?_⟩) decided
  simp [fits, pc, write, Pos.fn?] at here

theorem good_freeOld {a k : Nat} (pc : (s.threads u).pc = .freeOld a)
    (edge : opStep s u k = some s') : Good s s' u := by
  have here := fit u
  have own := inv.caller u
  simp only [Caller, CallerOk, pc] at own
  obtain ⟨putting, block, fresh⟩ := own
  simp only [fits, pc, decide_eq_true_eq] at here
  have stored := inv.stored_inside fit locks (.inr here) (by rw [pc]; rfl)
  have newer (d : List UInt8) (stamp : Nat) (kept : store s (s.threads u).region = some (d, stamp)) :
      stamp ≤ (s.threads u).updateCond := by
    rw [kept] at stored
    exact stored.2.2 ▸ fresh
  cases hd : (s.zones (s.threads u).region).data with
  | none =>
    simp only [opStep, pc, hd, Option.some.injEq] at edge
    subst edge
    exact good_callLock inv fit locks _ (by rw [pc]; rfl) ⟨putting, block, newer⟩
  | some old =>
    simp only [opStep, pc, hd, Option.some.injEq] at edge
    subst edge
    cases hk : store s (s.threads u).region with
    | none =>
      rw [hk] at stored
      have : (s.zones (s.threads u).region).data = none := stored.1
      simp [hd] at this
    | some kept =>
      obtain ⟨d, stamp⟩ := kept
      rw [hk] at stored
      obtain ⟨⟨b, pointer, old_block⟩, _⟩ := stored
      obtain rfl : old = b := by simpa [fields, hd] using pointer
      have apart : a ≠ old := apart_of_owner old_block block (by simp)
      refine good_free inv old_block (.inr ⟨rfl, here, rfl⟩) ⟨putting, ?_, newer⟩
      rw [Function.update_of_ne apart]
      exact block

omit [Fintype T] locks in
theorem good_setData {a k : Nat} (pc : (s.threads u).pc = .setData a)
    (edge : opStep s u k = some s') : Good s s' u := by
  have here := fit u
  have own := inv.caller u
  simp only [Caller, CallerOk, pc] at own
  obtain ⟨putting, block, newer⟩ := own
  simp only [fits, pc, decide_eq_true_eq] at here
  simp only [opStep, pc, block, Option.map_some, Option.some.injEq] at edge
  subst edge
  refine ⟨fun t ne => by simp [ne], fun _ _ => rfl, fun t ne b d h => ?_, fun r clear => ?_, ?_,
    fun _ => by simp, fun _ clean => ?_, fun b above => ?_, inv.valid, inv.sound⟩
  · have apart := apart_of_owner block h (by simpa using Ne.symm ne)
    simpa [apart] using h
  · have other : r ≠ (s.threads u).region := fun eq => clear eq.symm here
    refine ⟨by simp [fields, other], rfl, fun b d h => ?_⟩
    have apart := apart_of_owner block h (by simp)
    simpa [apart] using h
  · simp only [Caller, State.setBlock, State.setZone, State.goto, State.setThread,
      Function.update_self, fields]
    exact ⟨putting, rfl, Function.update_self .., newer⟩
  · simp [dirty] at clean
  · have apart : b ≠ a := Nat.ne_of_gt (Nat.lt_of_lt_of_le (inv.live_below block) above)
    simpa [apart] using inv.bound b above

omit [Fintype T] locks in
theorem good_setSize {a k : Nat} (pc : (s.threads u).pc = .setSize a)
    (edge : opStep s u k = some s') : Good s s' u := by
  have here := fit u
  have own := inv.caller u
  simp only [Caller, CallerOk, pc] at own
  obtain ⟨putting, pointer, block, newer⟩ := own
  simp only [fits, pc, decide_eq_true_eq] at here
  simp only [opStep, pc, Option.some.injEq] at edge
  subst edge
  refine ⟨fun t ne => by simp [ne], fun _ _ => rfl, fun _ _ _ _ h => h, fun r clear => ?_, ?_,
    fun _ => by simp, fun _ clean => ?_, inv.bound, inv.valid, inv.sound⟩
  · have other : r ≠ (s.threads u).region := fun eq => clear eq.symm here
    exact ⟨by simp [fields, other], rfl, fun _ _ h => h⟩
  · simp only [Caller, State.setZone, State.goto, State.setThread, Function.update_self, fields]
    exact ⟨putting, pointer, block, rfl, newer⟩
  · simp [dirty] at clean

omit [Fintype T] locks in
theorem good_setCond {a k : Nat} (pc : (s.threads u).pc = .setCond a)
    (edge : opStep s u k = some s') : Good s s' u := by
  have here := fit u
  have own := inv.caller u
  simp only [Caller, CallerOk, pc] at own
  obtain ⟨⟨c, region, phase, valid, nonempty⟩, pointer, block, length, newer⟩ := own
  simp only [fits, pc, decide_eq_true_eq] at here
  simp only [opStep, pc, Option.some.injEq] at edge
  subst edge
  have accepted : storePut (store s) (s.threads u).region (s.threads u).data
      (s.threads u).updateCond = ((s.threads u).data.length,
        Function.update (store s) (s.threads u).region
          (some ((s.threads u).data, (s.threads u).updateCond))) := by
    unfold storePut
    cases hk : store s (s.threads u).region with
    | none => rfl
    | some kept =>
      have := newer kept.1 kept.2 hk
      simp [Nat.not_lt.mpr this]
  have after : (s.recorder.decide u (.count (s.threads u).data.length)).state storeSpec =
      Function.update (store s) (s.threads u).region
        (some ((s.threads u).data, (s.threads u).updateCond)) := by
    rw [Recorder.state_decide phase]
    simp only [storeSpec, storeApply, valid, nonempty, if_false]
    exact congrArg Prod.snd accepted
  refine ⟨fun t ne => by simp [ne], fun t ne => by simp [Recorder.phase_decide phase, ne],
    fun _ _ _ _ h => h, fun r clear => ?_, ?_, fun _ => by simp, fun _ _ => ?_, inv.bound, ?_,
    inv.sound⟩
  · have other : r ≠ (s.threads u).region := fun eq => clear eq.symm here
    refine ⟨by simp [fields, other], ?_, fun _ _ h => h⟩
    simp only [store, State.decide, State.callLock, State.setThread, State.setZone, after]
    rw [Function.update_of_ne other]
  · simp only [Caller, State.decide, State.callLock, State.setThread, State.setZone,
      Function.update_self, Recorder.phase_decide phase]
    exact ⟨c, _, rfl⟩
  · simp only [store, State.decide, State.callLock, State.setThread, State.setZone, after]
    simp only [fields, Function.update_self]
    exact ⟨⟨a, pointer, block⟩, length, rfl⟩
  · refine inv.valid.decide u fun c' o' called => ?_
    obtain ⟨rfl, rfl⟩ : c = c' ∧ _ = o' := by simpa [phase] using called
    simp only [storeSpec, storeApply, valid, nonempty, if_false]
    exact congrArg (fun r => Res.count r.1) accepted

omit [Fintype T] locks in
theorem good_done {res : Res} {k : Nat} (pc : (s.threads u).pc = .done res)
    (edge : opStep s u k = some s') : Good s s' u := by
  have here := fit u
  have own := inv.caller u
  simp only [Caller, CallerOk, pc] at own
  obtain ⟨c, o, phase⟩ := own
  have outside : (s.threads u).pos ≠ .writing := by
    intro write
    simp [fits, pc, write, Pos.fn?] at here
  simp only [opStep, pc, Option.some.injEq] at edge
  subst edge
  refine Good.of_move inv (fun t ne => by simp [ne]) (fun _ => rfl) rfl rfl rfl
    (fun t ne => by simp [Recorder.phase_respond phase, ne]) (Recorder.state_respond ..)
    (inv.valid.respond phase) ?_ (fun _ => by simp) (fun write => absurd write outside)
  simp only [Caller, State.goto, State.setThread, Function.update_self,
    Recorder.phase_respond phase]
  rfl

theorem good_opStep {k : Nat} (out : (s.threads u).pos.inLock = false)
    (edge : opStep s u k = some s') : Good s s' u := by
  have here := fit u
  have own := inv.caller u
  cases hpc : (s.threads u).pc
  case idle => simp [opStep, hpc] at edge
  case done res => exact good_done inv fit hpc edge
  case readSize =>
    have read : (s.threads u).pos = .reading := by
      cases hp : (s.threads u).pos <;> simp_all [fits, Pos.fn?, Pos.inLock]
    simp only [Caller, CallerOk, hpc] at own
    simp only [opStep, hpc] at edge
    split at edge <;> cases edge
    · rename_i shorter
      exact good_callLock inv fit locks _ (by rw [hpc]; rfl) ⟨own, shorter⟩
    · rename_i longer
      exact good_startCopy inv fit locks read (by rw [hpc]; rfl) own
        (Nat.min_eq_left (Nat.le_of_not_lt longer)).symm
  case readSizeAgain =>
    simp only [Caller, CallerOk, hpc] at own
    simp only [fits, hpc, decide_eq_true_eq] at here
    simp only [opStep, hpc, Option.some.injEq] at edge
    subst edge
    exact good_startCopy inv fit locks here (by rw [hpc]; rfl) own.1
      (Nat.min_eq_right (Nat.le_of_lt own.2)).symm
  case readData cpSize => exact good_readData inv fit locks hpc edge
  case copy cpSize src buffer => exact good_copy inv fit locks hpc edge
  case malloc => exact good_malloc inv fit hpc edge
  case fill a => exact good_fill inv fit locks hpc edge
  case testNull a => exact good_testNull inv fit locks hpc out edge
  case compare a => exact good_compare inv fit locks hpc edge
  case rejected a => exact good_rejected inv fit hpc edge
  case freeOld a => exact good_freeOld inv fit locks hpc edge
  case setData a => exact good_setData inv fit hpc edge
  case setSize a => exact good_setSize inv fit hpc edge
  case setCond a => exact good_setCond inv fit hpc edge
  all_goals simp [Caller, CallerOk, hpc] at own

omit [Fintype T] fit locks in
theorem good_lock (l : RwLock T) (p : Pos) (inside : (s.threads u).pos.inLock = true) :
    Good s ((s.setZone (s.threads u).region
      { s.zones (s.threads u).region with lock := l }).setThread u { s.threads u with pos := p }) u := by
  have zones (r : Region) : fields (s.setZone (s.threads u).region
      { s.zones (s.threads u).region with lock := l }) r = fields s r := by
    by_cases eq : r = (s.threads u).region
    · subst eq
      simp [fields]
    · simp [fields, eq]
  have outside : (s.threads u).pos ≠ .writing := by
    intro write
    simp [write, Pos.inLock] at inside
  refine Good.of_move inv (fun t ne => by simp [ne]) zones rfl rfl rfl (fun _ _ => rfl) rfl
    inv.valid ?_ (fun _ => by simp) (fun write => absurd write outside)
  have own := inv.caller u
  simp only [Caller, State.setThread, State.setZone, Function.update_self, fields]
  exact own

omit [Fintype T] locks in
theorem good_invoke {th : Thread} {o : Op} (idle : (s.threads u).pc = .idle)
    (own : CallerOk u th (.called s.recorder.calls o) (fields s th.region) s.heap
      (store s th.region)) :
    Good s (State.setThread { s with recorder := s.recorder.invoke u o } u th) u := by
  have outside : (s.threads u).pos ≠ .writing := by simp [out_of_idle (fit u) idle]
  refine Good.of_move inv (fun t ne => by simp [ne]) (fun _ => rfl) rfl rfl rfl
    (fun t ne => by simp [Recorder.phase_invoke, ne]) (Recorder.state_invoke ..)
    (inv.valid.invoke u o) ?_ (fun write => absurd write outside)
    (fun write => absurd write outside)
  simp only [Caller, State.setThread, Function.update_self, Recorder.phase_invoke, store,
    Recorder.state_invoke]
  exact own

omit [Fintype T] locks in
theorem good_refused {o : Op} {res : Res} (idle : (s.threads u).pc = .idle)
    (answer : storeApply (store s) o = (res, store s)) :
    Good s ((State.goto { s with recorder := s.recorder.invoke u o } u (.done res)).decide u res)
      u := by
  have outside : (s.threads u).pos ≠ .writing := by simp [out_of_idle (fit u) idle]
  have called : (s.recorder.invoke u o).phase u = .called s.recorder.calls o := by
    simp [Recorder.phase_invoke]
  have same : ((s.recorder.invoke u o).decide u res).state storeSpec = store s := by
    rw [Recorder.state_decide called, Recorder.state_invoke]
    exact congrArg Prod.snd answer
  refine Good.of_move inv (fun t ne => by simp [ne]) (fun _ => rfl) rfl rfl rfl ?_ same ?_ ?_
    (fun write => absurd write outside) (fun write => absurd write outside)
  · intro t ne
    simp [Recorder.phase_decide called, Recorder.phase_invoke, ne]
  · refine (inv.valid.invoke u o).decide u fun c' o' mine => ?_
    obtain ⟨rfl, rfl⟩ : s.recorder.calls = c' ∧ o = o' := by simpa [called] using mine
    rw [Recorder.state_invoke]
    exact congrArg Prod.fst answer
  · simp only [Caller, State.decide, State.goto, State.setThread, Function.update_self,
      Recorder.phase_decide called]
    exact ⟨_, o, rfl⟩

omit [Fintype T] locks in
theorem good_begin {c : Call} (idle : (s.threads u).pc = .idle)
    (guard : getsAndPuts s (.call u c)) : Good s (begin s u c) u := by
  cases c with
  | get region size =>
    simp only [begin]
    split
    · rename_i refused
      exact good_refused inv fit idle (by simp [storeApply, refused])
    · rename_i r valid
      exact good_invoke inv fit idle ⟨_, region, rfl, valid⟩
  | put region data stamp =>
    simp only [begin]
    split
    · rename_i refused
      exact good_refused inv fit idle (by simp [storeApply, refused])
    · rename_i r valid
      split
      · rename_i empty
        have nil : data = [] := List.length_eq_zero_iff.mp empty
        exact good_refused inv fit idle (by simp [storeApply, valid, nil])
      · rename_i nonempty
        refine good_invoke inv fit idle ⟨_, region, rfl, valid, ?_⟩
        rintro rfl
        exact nonempty rfl
  | wait region size => exact guard.elim
  | finish => exact guard.elim

theorem good_step {a : Label T} (guard : getsAndPuts s a) (edge : memStep s a = some s') :
    Good s s' a.thread := by
  cases a with
  | call t c =>
    simp only [memStep, Option.ite_none_right_eq_some] at edge
    obtain ⟨idle, edge⟩ := edge
    cases edge
    exact good_begin inv fit idle guard
  | step t k =>
    simp only [memStep] at edge
    split at edge
    · rename_i inside
      obtain ⟨⟨l, p⟩, _, rfl⟩ := Option.map_eq_some_iff.mp edge
      exact good_lock inv l p inside
    · rename_i out
      have outside : (s.threads t).pos.inLock = false := by simpa using out
      exact good_opStep inv fit locks outside edge

omit locks in
theorem locks_step {a : Label T} (locks : LocksOk s) (edge : memStep s a = some s') :
    LocksOk s' := by
  intro r
  rcases lockAt_step fit edge r with same | ⟨b, cause, move⟩
  · have lock : (s'.zones r).lock = (s.zones r).lock := congrArg LockState.lock same
    have pos : posAt s' r = posAt s r := congrArg LockState.pos same
    rw [lock, pos]
    exact locks r
  · refine step_keeps_inv (lockAt s r) b (lockAt s' r) (locks r) ?_ move
    cases b with
    | enter t f =>
      rintro rfl
      obtain ⟨aux, pc, _⟩ := cause.1 rfl
      have own := inv.caller t
      simp [Caller, CallerOk, pc] at own
    | go t => trivial
    | leave t =>
      have pc : (s.threads t).pc = .testExit := cause
      have own := inv.caller t
      simp [Caller, CallerOk, pc] at own

end Statements

omit [Fintype T] in
theorem dataInv_init : DataInv (memSystem T).init where
  stored _ _ := ⟨rfl, rfl⟩
  caller _ := rfl
  bound _ _ := rfl
  valid := Recorder.valid_empty
  sound := rfl

theorem reach_inv (h : (memSystem T).Reach getsAndPuts s) :
    DataInv s ∧ Fits s ∧ LocksOk s := by
  refine h.invariant (I := fun s => DataInv s ∧ Fits s ∧ LocksOk s)
    ⟨dataInv_init, fits_init, fun r => ?_⟩ ?_
  · have start := lockAt_init (T := T) r
    have lock := congrArg LockState.lock start
    have pos := congrArg LockState.pos start
    simp only [lockAt] at lock pos
    rw [lock, pos]
    exact inv_init
  · rintro s a s' ⟨inv, fit, locks⟩ guard edge
    have good := good_step inv fit locks guard edge
    exact ⟨good.inv fit locks inv, fits_step fit edge, locks_step inv fit locks edge⟩

/-- Gets and puts of any number of threads form one order in which each get answers with the last
accepted payload and each put as the sequential store does, and none touches a dead block. -/
theorem store_linearizable (s : State T) (h : (memSystem T).Reach getsAndPuts s) :
    Linearizable storeSpec s.recorder.hist ∧ s.fault = false := by
  obtain ⟨inv, _, _⟩ := reach_inv h
  exact ⟨inv.valid.linearizable, inv.sound⟩

end Invariant

private def overlappingRun : List (Label (Fin 2)) :=
  [Label.call 0 (.put 3 [7, 8, 9] 5), .call 1 (.get 3 2)] ++
    [Label.step 0 0, .step 0 1, .step 0 9, .step 0 0, .step 0 0] ++
    [Label.step 1 0, .step 1 0, .step 1 0] ++ List.replicate 6 (Label.step 0 0) ++
    List.replicate 13 (Label.step 1 0) ++ [Label.step 0 0]

private def overlappingHist : List (Event Op Res) :=
  [.invoke 0 (.put 3 [7, 8, 9] 5), .invoke 1 (.get 3 2), .point 0 (.put 3 [7, 8, 9] 5) (.count 3),
    .point 1 (.get 3 2) (.bytes [7, 8]), .respond 1 (.bytes [7, 8]), .respond 0 (.count 3)]

theorem store_linearizable_overlapping : ∃ s : State (Fin 2),
    s.recorder.hist = overlappingHist ∧ Linearizable storeSpec s.recorder.hist ∧
    s.fault = false := by
  have reached : ∃ s : State (Fin 2), (memSystem (Fin 2)).Reach getsAndPuts s ∧
      s.recorder.hist = overlappingHist :=
    System.reach_of_run (fun s : State (Fin 2) => s.recorder.hist) overlappingHist overlappingRun
      (by simp [overlappingRun, getsAndPuts]) (by decide +kernel)
  obtain ⟨s, reach, seen⟩ := reached
  exact ⟨s, seen, store_linearizable s reach⟩

end DistributedClipboard.Mem.Linearizable
