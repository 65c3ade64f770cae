/- module: DistributedClipboard/Lib/Counting
   layer: library
   digest: How many members of a finite family meet a test, and how one update changes it. -/

import Mathlib.Algebra.BigOperators.Group.Finset.Basic
import Mathlib.Algebra.Order.BigOperators.Group.Finset
import Mathlib.Data.Fintype.BigOperators

set_option autoImplicit false
set_option relaxedAutoImplicit false

namespace DistributedClipboard.Lib.Counting

universe u v

variable {ι : Type u} [Fintype ι] {α : Type v}

/-- The number of indices whose value passes the test. -/
@[irreducible] def count (p : α → Bool) (f : ι → α) : Nat := ∑ i, (p (f i)).toNat

theorem count_pos_iff {p : α → Bool} {f : ι → α} : 0 < count p f ↔ ∃ i, p (f i) = true := by
  unfold count
  rw [Nat.pos_iff_ne_zero, Ne, Finset.sum_eq_zero_iff, not_forall]
  simp

theorem count_eq_zero_iff {p : α → Bool} {f : ι → α} : count p f = 0 ↔ ∀ i, p (f i) = false := by
  simp [count, Finset.sum_eq_zero_iff]

theorem one_le_count {p : α → Bool} {f : ι → α} {i : ι} (h : p (f i) = true) :
    1 ≤ count p f := count_pos_iff.mpr ⟨i, h⟩

theorem count_eq_card (p : α → Bool) (f : ι → α) :
    count p f = (Finset.univ.filter fun i => p (f i) = true).card := by
  rw [count, Finset.card_filter]
  exact Finset.sum_congr rfl fun i _ => by cases p (f i) <;> rfl

section Update

variable [DecidableEq ι]

theorem count_update (p : α → Bool) (f : ι → α) (i : ι) (a : α) :
    count p (Function.update f i a) + (p (f i)).toNat = count p f + (p a).toNat := by
  unfold count
  rw [← Finset.add_sum_erase _ _ (Finset.mem_univ i),
    ← Finset.add_sum_erase (a := i) _ (fun j => (p (f j)).toNat) (Finset.mem_univ i)]
  have rest : ∑ j ∈ Finset.univ.erase i, (p (Function.update f i a j)).toNat =
      ∑ j ∈ Finset.univ.erase i, (p (f j)).toNat := by
    refine Finset.sum_congr rfl fun j hj => ?_
    rw [Function.update_of_ne (Finset.ne_of_mem_erase hj)]
  rw [rest, Function.update_self]
  omega

end Update

section Sums

variable {κ : Type u}

theorem sum_change {s : Finset κ} (f f' : κ → Nat) (x : κ) (mem : x ∈ s)
    (same : ∀ y, y ≠ x → f' y = f y) : ∑ y ∈ s, f' y + f x = ∑ y ∈ s, f y + f' x := by
  classical
  have rest : ∑ y ∈ s.erase x, f' y = ∑ y ∈ s.erase x, f y :=
    Finset.sum_congr rfl fun y other => same y (Finset.ne_of_mem_erase other)
  have new := Finset.sum_erase_add s f' mem
  have old := Finset.sum_erase_add s f mem
  omega

end Sums

end DistributedClipboard.Lib.Counting
