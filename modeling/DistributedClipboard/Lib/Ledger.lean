/- module: DistributedClipboard/Lib/Ledger
   layer: library
   digest: Which buffers a log allocates, which it gives away, and that none is given away twice. -/

import Mathlib.Data.List.Nodup

set_option autoImplicit false
set_option relaxedAutoImplicit false

namespace DistributedClipboard.Lib.Ledger

inductive Entry
  | alloc
  | release (b : Nat)
  | handOver (b : Nat)
  | other
  deriving DecidableEq, Repr

namespace Entry

def released? : Entry → Option Nat
  | .release b => some b
  | _ => none

def handedOver? : Entry → Option Nat
  | .handOver b => some b
  | _ => none

def given? : Entry → Option Nat
  | .release b | .handOver b => some b
  | _ => none

end Entry

def buffers : Nat → List Entry → List Nat
  | _, [] => []
  | n, .alloc :: es => n :: buffers (n + 1) es
  | n, _ :: es => buffers (n + 1) es

def released (es : List Entry) : List Nat := es.filterMap Entry.released?

def handedOver (es : List Entry) : List Nat := es.filterMap Entry.handedOver?

def given (es : List Entry) : List Nat := es.filterMap Entry.given?

/-- A piece gives away buffers of its own only, and none of them twice. -/
structure Sound (n : Nat) (es : List Entry) : Prop where
  once : (given es).Nodup
  own : ∀ b ∈ given es, b ∈ buffers n es

def Complete (n : Nat) (es : List Entry) : Prop := ∀ b ∈ buffers n es, b ∈ given es

variable {n b : Nat} {es fs : List Entry}

theorem buffers_append (n : Nat) (es fs : List Entry) :
    buffers n (es ++ fs) = buffers n es ++ buffers (n + es.length) fs := by
  induction es generalizing n with
  | nil => rfl
  | cons e es ih =>
    have later : n + 1 + es.length = n + (e :: es).length := by
      rw [List.length_cons]
      omega
    cases e
    all_goals
      simp only [List.cons_append, buffers, ih, later]

theorem given_append (es fs : List Entry) : given (es ++ fs) = given es ++ given fs :=
  List.filterMap_append

theorem handedOver_append (es fs : List Entry) :
    handedOver (es ++ fs) = handedOver es ++ handedOver fs := List.filterMap_append

theorem place_of_mem (h : b ∈ buffers n es) : n ≤ b ∧ b < n + es.length := by
  induction es generalizing n with
  | nil => cases h
  | cons e es ih =>
    have later (h : b ∈ buffers (n + 1) es) : n ≤ b ∧ b < n + (e :: es).length := by
      obtain ⟨low, high⟩ := ih h
      rw [List.length_cons]
      omega
    cases e with
    | alloc =>
      rcases List.mem_cons.mp h with rfl | h
      · rw [List.length_cons]
        omega
      · exact later h
    | release _ | handOver _ | other => exact later h

theorem count_given (es : List Entry) (b : Nat) :
    (given es).count b = (released es).count b + (handedOver es).count b := by
  induction es with
  | nil => rfl
  | cons e es ih =>
    simp only [given, released, handedOver] at ih ⊢
    cases e with
    | alloc | other =>
      simp only [List.filterMap_cons, Entry.given?, Entry.released?, Entry.handedOver?, ih]
    | release _ | handOver _ =>
      simp only [List.filterMap_cons, Entry.given?, Entry.released?, Entry.handedOver?,
        List.count_cons, ih]
      omega

theorem sound_nil (n : Nat) : Sound n [] := ⟨List.nodup_nil, List.forall_mem_nil _⟩

theorem Sound.append (first : Sound n es) (second : Sound (n + es.length) fs) :
    Sound n (es ++ fs) := by
  constructor
  · rw [given_append, List.nodup_append]
    refine ⟨first.once, second.once, fun b mine c yours same => ?_⟩
    have below := (place_of_mem (first.own b mine)).2
    have above := (place_of_mem (second.own c yours)).1
    omega
  · intro b mine
    rw [given_append, List.mem_append] at mine
    rw [buffers_append, List.mem_append]
    rcases mine with mine | mine
    · exact .inl (first.own b mine)
    · exact .inr (second.own b mine)

theorem complete_append_iff (first : Sound n es) (second : Sound (n + es.length) fs) :
    Complete n (es ++ fs) ↔ Complete n es ∧ Complete (n + es.length) fs := by
  unfold Complete
  simp only [buffers_append, given_append, List.mem_append]
  constructor
  · intro all
    constructor
    · intro b mine
      rcases all b (.inl mine) with here | later
      · exact here
      · have below := (place_of_mem mine).2
        have above := (place_of_mem (second.own b later)).1
        omega
    · intro b mine
      rcases all b (.inr mine) with earlier | here
      · have below := (place_of_mem (first.own b earlier)).2
        have above := (place_of_mem mine).1
        omega
      · exact here
  · rintro ⟨here, later⟩ b (mine | mine)
    · exact .inl (here b mine)
    · exact .inr (later b mine)

theorem Sound.count (h : Sound n es) (b : Nat) :
    (given es).count b = if b ∈ given es then 1 else 0 := by
  by_cases mine : b ∈ given es
  · rw [if_pos mine]
    exact List.count_eq_one_of_mem h.once mine
  · rw [if_neg mine]
    exact List.count_eq_zero_of_not_mem mine

end DistributedClipboard.Lib.Ledger
