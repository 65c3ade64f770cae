/- module: DistributedClipboard/Lib/Latest
   layer: library
   digest: A register that keeps the newest of what it is offered, the later one of two as new. -/

import Mathlib.Order.BoundedOrder.Lattice
import Mathlib.Order.MinMax
import Mathlib.Data.List.Induction

set_option autoImplicit false
set_option relaxedAutoImplicit false

namespace DistributedClipboard.Lib.Latest

universe u v

variable {α : Type u} {τ : Type v} [LinearOrder τ] [OrderBot τ] (stamp : α → τ)

def level (kept : Option α) : τ := kept.elim ⊥ stamp

def offer (kept : Option α) (x : α) : Option α := if level stamp kept ≤ stamp x then some x else kept

def offers (kept : Option α) (xs : List α) : Option α := xs.foldl (offer stamp) kept

def taken : Option α → List α → List α
  | _, [] => []
  | kept, x :: xs =>
    if level stamp kept ≤ stamp x then x :: taken (some x) xs else taken kept xs

/-- The last of those with the greatest stamp. -/
def IsLatest (xs : List α) (x : α) : Prop :=
  ∃ before after, xs = before ++ x :: after ∧ (∀ y ∈ before, stamp y ≤ stamp x) ∧
    ∀ y ∈ after, stamp y < stamp x

variable {stamp} {kept : Option α} {x y : α} {xs ys : List α}

@[simp] theorem level_none : level stamp none = ⊥ := rfl

@[simp] theorem level_some : level stamp (some x) = stamp x := rfl

@[simp] theorem offers_nil : offers stamp kept [] = kept := rfl

@[simp] theorem offers_cons : offers stamp kept (x :: xs) = offers stamp (offer stamp kept x) xs := rfl

theorem offers_append : offers stamp kept (xs ++ ys) = offers stamp (offers stamp kept xs) ys :=
  List.foldl_append

theorem offer_taken (newer : level stamp kept ≤ stamp x) : offer stamp kept x = some x := if_pos newer

theorem offer_refused (older : ¬ level stamp kept ≤ stamp x) : offer stamp kept x = kept :=
  if_neg older

theorem taken_cons : taken stamp kept (x :: xs) =
    if level stamp kept ≤ stamp x then x :: taken stamp (offer stamp kept x) xs
    else taken stamp (offer stamp kept x) xs := by
  by_cases newer : level stamp kept ≤ stamp x
  · rw [taken, if_pos newer, if_pos newer, offer_taken newer]
  · rw [taken, if_neg newer, if_neg newer, offer_refused newer]

theorem level_offer : level stamp (offer stamp kept x) = max (level stamp kept) (stamp x) := by
  by_cases newer : level stamp kept ≤ stamp x
  · rw [offer_taken newer, level_some, max_eq_right newer]
  · rw [offer_refused newer, max_eq_left (not_le.mp newer).le]

theorem level_offers_le {b : τ} :
    level stamp (offers stamp kept xs) ≤ b ↔ level stamp kept ≤ b ∧ ∀ x ∈ xs, stamp x ≤ b := by
  induction xs generalizing kept with
  | nil => simp
  | cons x xs ih => rw [offers_cons, ih, level_offer, max_le_iff, List.forall_mem_cons, and_assoc]

theorem level_offers_eq :
    level stamp (offers stamp kept xs) = level stamp kept ↔ ∀ x ∈ xs, stamp x ≤ level stamp kept := by
  have above : level stamp kept ≤ level stamp (offers stamp kept xs) :=
    (level_offers_le.mp le_rfl).1
  constructor
  · intro same
    exact (level_offers_le.mp same.le).2
  · intro older
    exact le_antisymm (level_offers_le.mpr ⟨le_rfl, older⟩) above

theorem level_taken_le {b : τ} : level stamp (offers stamp kept xs) ≤ b ↔
    level stamp kept ≤ b ∧ ∀ x ∈ taken stamp kept xs, stamp x ≤ b := by
  induction xs generalizing kept with
  | nil => simp [taken]
  | cons x xs ih =>
    rw [offers_cons, ih, taken_cons, level_offer, max_le_iff]
    by_cases newer : level stamp kept ≤ stamp x
    · rw [if_pos newer, List.forall_mem_cons, and_assoc]
    · rw [if_neg newer]
      have older : stamp x ≤ level stamp kept := (not_le.mp newer).le
      constructor
      · rintro ⟨⟨low, _⟩, rest⟩
        exact ⟨low, rest⟩
      · rintro ⟨low, rest⟩
        exact ⟨⟨low, older.trans low⟩, rest⟩

theorem exists_taken_iff :
    (∃ x, x ∈ taken stamp kept xs) ↔ ∃ x ∈ xs, level stamp kept ≤ stamp x := by
  induction xs with
  | nil => simp [taken]
  | cons x xs ih =>
    by_cases newer : level stamp kept ≤ stamp x
    · rw [taken, if_pos newer]
      exact ⟨fun _ => ⟨x, List.mem_cons_self, newer⟩, fun _ => ⟨x, List.mem_cons_self⟩⟩
    · rw [taken, if_neg newer, ih]
      simp [newer]

theorem offers_none : (xs = [] ∧ offers stamp none xs = none) ∨
    ∃ x, offers stamp none xs = some x ∧ IsLatest stamp xs x := by
  induction xs using List.reverseRecOn with
  | nil => exact .inl ⟨rfl, rfl⟩
  | append_singleton xs y ih =>
    right
    have last : offers stamp none (xs ++ [y]) = offer stamp (offers stamp none xs) y := offers_append
    rw [last]
    by_cases newer : level stamp (offers stamp none xs) ≤ stamp y
    · refine ⟨y, offer_taken newer, xs, [], rfl, ?_, nofun⟩
      exact (level_offers_le.mp newer).2
    · rw [offer_refused newer]
      rcases ih with ⟨rfl, _⟩ | ⟨x, kept, before, after, rfl, low, high⟩
      · exact absurd bot_le newer
      · rw [kept, level_some, not_le] at newer
        refine ⟨x, kept, before, after ++ [y], by simp, low, ?_⟩
        intro z mine
        rcases List.mem_append.mp mine with old | new
        · exact high z old
        · rwa [List.mem_singleton.mp new]

theorem offers_sorted (sorted : xs.Pairwise fun x y => stamp x ≤ stamp y) :
    offers stamp none xs = xs.getLast? := by
  induction xs using List.reverseRecOn with
  | nil => rfl
  | append_singleton xs y _ =>
    have newer : level stamp (offers stamp none xs) ≤ stamp y := by
      rw [level_offers_le]
      refine ⟨bot_le, fun x mine => ?_⟩
      exact (List.pairwise_append.mp sorted).2.2 x mine y (List.mem_singleton_self y)
    rw [offers_append, List.getLast?_concat]
    exact offer_taken newer

end DistributedClipboard.Lib.Latest
