/- module: DistributedClipboard/Lib/SlotTable
   layer: library
   digest: Connections that take slots of a table while the kernel hands descriptors out again. -/

import Mathlib.Logic.Function.Basic

set_option autoImplicit false
set_option relaxedAutoImplicit false

namespace DistributedClipboard.Lib.SlotTable

universe u v

/-- What has become of a connection: not there, open without a slot, in a slot with its descriptor
open, out of its slot with its descriptor open, or in its slot with its descriptor closed. -/
inductive Life (S : Type u)
  | absent
  | waiting (fd : Nat)
  | held (i : S)
  | cleared (fd : Nat)
  | stale (i : S)

def Life.isOpen {S : Type u} : Life S → Bool
  | .waiting _ | .held _ | .cleared _ => true
  | .absent | .stale _ => false

structure Table (S : Type u) where
  fd : S → Nat
  owner : S → Option Nat
  life : Nat → Life S

variable {S : Type u} {C : Type v}

def Table.empty : Table S := ⟨fun _ => 0, fun _ => none, fun _ => .absent⟩

structure Consistent (kernel : Nat → Option C) (tag : Nat → C) (r : Table S) : Prop where
  owned : ∀ i k, r.owner i = some k ↔ r.life k = .held i ∨ r.life k = .stale i
  zero : ∀ i, r.fd i = 0 ↔ r.owner i = none
  opened : ∀ i k, r.life k = .held i → kernel (r.fd i) = some (tag k)
  waiting : ∀ k f, r.life k = .waiting f → 0 < f ∧ kernel f = some (tag k)
  cleared : ∀ k f, r.life k = .cleared f → kernel f = some (tag k)
  distinct : ∀ i j, r.fd i ≠ 0 → r.fd i = r.fd j → i = j

theorem Table.ext_of {r r' : Table S} (fd : ∀ i, r.fd i = r'.fd i)
    (owner : ∀ i, r.owner i = r'.owner i) (life : ∀ k, r.life k = r'.life k) : r = r' := by
  cases r
  cases r'
  simp only [Table.mk.injEq]
  exact ⟨funext fd, funext owner, funext life⟩

section Actions

variable [DecidableEq S] (r : Table S)

namespace Table

def setLife (k : Nat) (l : Life S) : Table S := { r with life := Function.update r.life k l }

def setSlot (i : S) (f : Nat) (o : Option Nat) : Table S :=
  { r with fd := Function.update r.fd i f, owner := Function.update r.owner i o }

def register (k : Nat) (i : S) (f : Nat) : Table S := (r.setSlot i f (some k)).setLife k (.held i)

def clear (k : Nat) (i : S) : Table S := (r.setSlot i 0 none).setLife k (.cleared (r.fd i))

def forget (k : Nat) (i : S) : Table S := (r.setSlot i 0 none).setLife k .absent

end Table

end Actions

namespace Consistent

variable {kernel kernel' : Nat → Option C} {tag : Nat → C} {r : Table S} {k : Nat} {i : S} {f : Nat}

theorem empty (tag : Nat → C) : Consistent (S := S) (fun _ => none) tag .empty where
  owned i k := by simp [Table.empty]
  zero i := by simp [Table.empty]
  opened i k held := by cases held
  waiting k f waits := by cases waits
  cleared k f cleared := by cases cleared
  distinct i j taken := absurd rfl taken

theorem owner_of_held (h : Consistent kernel tag r) (held : r.life k = .held i) :
    r.owner i = some k := (h.owned i k).mpr (.inl held)

theorem fd_ne_zero (h : Consistent kernel tag r) (owner : r.owner i = some k) : r.fd i ≠ 0 := by
  intro zero
  rw [(h.zero i).mp zero] at owner
  cases owner

theorem other (h : Consistent kernel tag r)
    (keeps : ∀ f k, (r.life k).isOpen = true → kernel f = some (tag k) →
      kernel' f = some (tag k)) : Consistent kernel' tag r where
  owned := h.owned
  zero := h.zero
  opened i k held := keeps _ _ (by rw [held]; rfl) (h.opened i k held)
  waiting k f waits := ⟨(h.waiting k f waits).1, keeps _ _ (by rw [waits]; rfl) (h.waiting k f waits).2⟩
  cleared k f cleared := keeps _ _ (by rw [cleared]; rfl) (h.cleared k f cleared)
  distinct := h.distinct

theorem setLife (h : Consistent kernel tag r) (l : Life S)
    (owned : ∀ i, r.owner i = some k ↔ l = .held i ∨ l = .stale i)
    (opened : ∀ i, l = .held i → kernel (r.fd i) = some (tag k))
    (waiting : ∀ f, l = .waiting f → 0 < f ∧ kernel f = some (tag k))
    (cleared : ∀ f, l = .cleared f → kernel f = some (tag k)) :
    Consistent kernel tag (r.setLife k l) where
  owned i m := by
    by_cases eq : m = k
    · subst eq
      simpa [Table.setLife] using owned i
    · simpa [Table.setLife, eq] using h.owned i m
  zero := h.zero
  opened i m held := by
    by_cases eq : m = k
    · subst eq
      exact opened i (by simpa [Table.setLife] using held)
    · exact h.opened i m (by simpa [Table.setLife, eq] using held)
  waiting m f waits := by
    by_cases eq : m = k
    · subst eq
      exact waiting f (by simpa [Table.setLife] using waits)
    · exact h.waiting m f (by simpa [Table.setLife, eq] using waits)
  cleared m f cleared' := by
    by_cases eq : m = k
    · subst eq
      exact cleared f (by simpa [Table.setLife] using cleared')
    · exact h.cleared m f (by simpa [Table.setLife, eq] using cleared')
  distinct := h.distinct

theorem shut (h : Consistent kernel tag r) (inj : Function.Injective tag)
    (closed : (r.life k).isOpen = false) (was : kernel f = some (tag k)) :
    Consistent (Function.update kernel f none) tag r := by
  refine h.other fun g l isOpen opened => ?_
  have apart : g ≠ f := by
    rintro rfl
    rw [was] at opened
    have same : k = l := inj (Option.some.inj opened)
    subst same
    rw [closed] at isOpen
    cases isOpen
  rw [Function.update_of_ne apart, opened]

theorem accept (h : Consistent kernel tag r) (absent : r.life k = .absent) (pos : 0 < f)
    (free : kernel f = none) :
    Consistent (Function.update kernel f (some (tag k))) tag (r.setLife k (.waiting f)) := by
  have base : Consistent (Function.update kernel f (some (tag k))) tag r := by
    refine h.other fun g l _ opened => ?_
    have apart : g ≠ f := by
      rintro rfl
      rw [free] at opened
      cases opened
    rw [Function.update_of_ne apart, opened]
  refine base.setLife _ (fun i => ?_) (fun i held => nomatch held) (fun g waits => ?_)
    (fun g cleared => nomatch cleared)
  · rw [h.owned i k, absent]
    simp
  · obtain rfl : f = g := by simpa using waits
    exact ⟨pos, Function.update_self ..⟩

theorem drop (h : Consistent kernel tag r) (inj : Function.Injective tag)
    (waits : r.life k = .waiting f) :
    Consistent (Function.update kernel f none) tag (r.setLife k .absent) := by
  refine (h.setLife .absent (fun i => ?_) (fun _ held => nomatch held)
    (fun _ waits => nomatch waits) (fun _ cleared => nomatch cleared)).shut inj
    (k := k) (by simp [Table.setLife, Life.isOpen]) (h.waiting k f waits).2
  rw [h.owned i k, waits]
  simp

theorem close (h : Consistent kernel tag r) (inj : Function.Injective tag)
    (cleared : r.life k = .cleared f) :
    Consistent (Function.update kernel f none) tag (r.setLife k .absent) := by
  refine (h.setLife .absent (fun i => ?_) (fun _ held => nomatch held)
    (fun _ waits => nomatch waits) (fun _ cleared => nomatch cleared)).shut inj
    (k := k) (by simp [Table.setLife, Life.isOpen]) (h.cleared k f cleared)
  rw [h.owned i k, cleared]
  simp

theorem closeHeld (h : Consistent kernel tag r) (inj : Function.Injective tag)
    (held : r.life k = .held i) :
    Consistent (Function.update kernel (r.fd i) none) tag (r.setLife k (.stale i)) := by
  refine (h.setLife (.stale i) (fun j => ?_) (fun _ held => nomatch held)
    (fun _ waits => nomatch waits) (fun _ cleared => nomatch cleared)).shut inj
    (k := k) (by simp [Table.setLife, Life.isOpen]) (h.opened i k held)
  rw [h.owned j k, held]
  simp

variable [DecidableEq S]

theorem register (h : Consistent kernel tag r) (inj : Function.Injective tag)
    (waits : r.life k = .waiting f) (free : r.owner i = none)
    (noStale : ∀ l j, r.life l ≠ .stale j) : Consistent kernel tag (r.register k i f) := by
  obtain ⟨pos, mine⟩ := h.waiting k f waits
  have fresh (j : S) : r.fd j ≠ f := by
    intro same
    cases ho : r.owner j with
    | none =>
      have := (h.zero j).mpr ho
      omega
    | some l =>
      rcases (h.owned j l).mp ho with held | stale
      · have opened := h.opened j l held
        rw [same, mine] at opened
        have eq : k = l := inj (Option.some.inj opened)
        subst eq
        rw [waits] at held
        cases held
      · exact noStale l j stale
  have elsewhere (j : S) (l : Nat) (owner : r.owner j = some l) : j ≠ i := by
    rintro rfl
    rw [free] at owner
    cases owner
  refine ⟨fun j l => ?_, fun j => ?_, fun j l held => ?_, fun l g waits' => ?_,
    fun l g cleared => ?_, fun j m taken same => ?_⟩
  · have old := h.owned j l
    by_cases eq : l = k <;> by_cases at_i : j = i
    · subst eq at_i
      simp [Table.register, Table.setLife, Table.setSlot]
    · subst eq
      simp [Table.register, Table.setLife, Table.setSlot, at_i, old, waits, Ne.symm at_i]
    · subst at_i
      have out : ¬(r.life l = .held j ∨ r.life l = .stale j) := by
        rw [← old, free]
        simp
      simp [Table.register, Table.setLife, Table.setSlot, eq, Ne.symm eq]
      exact not_or.mp out
    · simpa [Table.register, Table.setLife, Table.setSlot, eq, at_i] using old
  · by_cases at_i : j = i
    · subst at_i
      simp [Table.register, Table.setLife, Table.setSlot]
      omega
    · simpa [Table.register, Table.setLife, Table.setSlot, at_i] using h.zero j
  · by_cases eq : l = k
    · subst eq
      obtain rfl : i = j := by simpa [Table.register, Table.setLife, Table.setSlot] using held
      simpa [Table.register, Table.setLife, Table.setSlot] using mine
    · have old : r.life l = .held j := by
        simpa [Table.register, Table.setLife, Table.setSlot, eq] using held
      have apart := elsewhere j l (h.owner_of_held old)
      simpa [Table.register, Table.setLife, Table.setSlot, apart] using h.opened j l old
  · by_cases eq : l = k
    · subst eq
      simp [Table.register, Table.setLife, Table.setSlot] at waits'
    · exact h.waiting l g (by simpa [Table.register, Table.setLife, Table.setSlot, eq] using waits')
  · by_cases eq : l = k
    · subst eq
      simp [Table.register, Table.setLife, Table.setSlot] at cleared
    · exact h.cleared l g (by simpa [Table.register, Table.setLife, Table.setSlot, eq] using cleared)
  · simp only [Table.register, Table.setLife, Table.setSlot] at taken same
    by_cases j_i : j = i <;> by_cases m_i : m = i
    · rw [j_i, m_i]
    · subst j_i
      rw [Function.update_self, Function.update_of_ne m_i] at same
      exact absurd same.symm (fresh m)
    · subst m_i
      rw [Function.update_self, Function.update_of_ne j_i] at same
      exact absurd same (fresh j)
    · rw [Function.update_of_ne j_i] at taken same
      rw [Function.update_of_ne m_i] at same
      exact h.distinct j m taken same

theorem vacate (h : Consistent kernel tag r) (owner : r.owner i = some k) (l : Life S)
    (out : ∀ j, l ≠ .held j ∧ l ≠ .stale j) (waiting : ∀ g, l ≠ .waiting g)
    (cleared : ∀ g, l = .cleared g → kernel g = some (tag k)) :
    Consistent kernel tag ((r.setSlot i 0 none).setLife k l) := by
  have only (j : S) (m : Nat) (ne : m ≠ k) (owns : r.owner j = some m) : j ≠ i := by
    rintro rfl
    rw [owner] at owns
    exact ne (Option.some.inj owns).symm
  have single (j : S) (owns : r.owner j = some k) : j = i := by
    have first := (h.owned i k).mp owner
    have second := (h.owned j k).mp owns
    have same : i = j := by
      rcases first with first | first <;> rw [first] at second <;> simpa using second
    exact same.symm
  refine ⟨fun j m => ?_, fun j => ?_, fun j m held => ?_, fun m g waits => ?_,
    fun m g clear => ?_, fun j m taken same => ?_⟩
  · have old := h.owned j m
    by_cases eq : m = k
    · subst eq
      by_cases at_i : j = i
      · subst at_i
        simpa [Table.setLife, Table.setSlot] using out j
      · have : r.owner j ≠ some m := fun owns => at_i (single j owns)
        simp only [Table.setLife, Table.setSlot, Function.update_of_ne at_i, Function.update_self]
        exact ⟨fun owns => absurd owns this, fun either => (either.elim (out j).1 (out j).2).elim⟩
    · by_cases at_i : j = i
      · subst at_i
        have : r.owner j ≠ some m := fun owns => only j m eq owns rfl
        simp only [Table.setLife, Table.setSlot, Function.update_self, Function.update_of_ne eq]
        rw [← old]
        exact ⟨fun none => (nomatch none), fun owns => absurd owns this⟩
      · simpa [Table.setLife, Table.setSlot, eq, at_i] using old
  · by_cases at_i : j = i
    · subst at_i
      simp [Table.setLife, Table.setSlot]
    · simpa [Table.setLife, Table.setSlot, at_i] using h.zero j
  · by_cases eq : m = k
    · subst eq
      exact absurd (by simpa [Table.setLife, Table.setSlot] using held) (out j).1
    · have old : r.life m = .held j := by simpa [Table.setLife, Table.setSlot, eq] using held
      have apart := only j m eq (h.owner_of_held old)
      simpa [Table.setLife, Table.setSlot, apart] using h.opened j m old
  · by_cases eq : m = k
    · subst eq
      exact absurd (by simpa [Table.setLife, Table.setSlot] using waits) (waiting g)
    · exact h.waiting m g (by simpa [Table.setLife, Table.setSlot, eq] using waits)
  · by_cases eq : m = k
    · subst eq
      exact cleared g (by simpa [Table.setLife, Table.setSlot] using clear)
    · exact h.cleared m g (by simpa [Table.setLife, Table.setSlot, eq] using clear)
  · simp only [Table.setLife, Table.setSlot] at taken same
    have j_i : j ≠ i := by
      rintro rfl
      simp at taken
    rw [Function.update_of_ne j_i] at taken same
    have m_i : m ≠ i := by
      rintro rfl
      rw [Function.update_self] at same
      exact taken same
    rw [Function.update_of_ne m_i] at same
    exact h.distinct j m taken same

theorem clear (h : Consistent kernel tag r) (held : r.life k = .held i) :
    Consistent kernel tag (r.clear k i) := by
  refine h.vacate (h.owner_of_held held) _ (by simp) (by simp) fun g same => ?_
  obtain rfl : r.fd i = g := by simpa using same
  exact h.opened i k held

theorem forget (h : Consistent kernel tag r) (stale : r.life k = .stale i) :
    Consistent kernel tag (r.forget k i) :=
  h.vacate ((h.owned i k).mpr (.inr stale)) _ (by simp) (by simp) (by simp)

end Consistent

end DistributedClipboard.Lib.SlotTable
