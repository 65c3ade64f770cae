/- module: DistributedClipboard/Lib/LockOrder
   layer: library
   digest: Programs that lock mutexes in ascending order do not wait for each other in a circle. -/

import DistributedClipboard.Lib.Discipline

set_option autoImplicit false
set_option relaxedAutoImplicit false

namespace DistributedClipboard.Lib.Discipline

universe u v w

variable {M : Type u} {E : Type v} {H : Type w} (rank : M → Nat)

def Ascending [DecidableEq M] : List M → List (Statement M E) → Prop
  | _, [] => True
  | held, .lock m :: rest => (∀ n ∈ held, rank n < rank m) ∧ Ascending (m :: held) rest
  | held, .unlock m :: rest => Ascending (held.filter (· ≠ m)) rest
  | held, .act _ :: rest => Ascending held rest

def wanted : List (Statement M E) → Option M
  | .lock m :: _ => some m
  | _ => none

variable {rank}

theorem Ascending.above [DecidableEq M] {held : List M} {code : List (Statement M E)} {m n : M}
    (h : Ascending rank held code) (wants : wanted code = some m) (holds : n ∈ held) :
    rank n < rank m := by
  cases code with
  | nil => cases wants
  | cons x rest =>
    cases x with
    | lock k =>
      obtain rfl := Option.some.inj wants
      exact h.1 n holds
    | unlock k | act e => cases wants

/-- Behind every mutex that is taken there is a holder that need not wait. By induction on the ranks
that are left above the mutex. -/
theorem exists_holder_goes {holder : M → Option H} {wants : H → Option M} {top : Nat}
    (bound : ∀ m, rank m ≤ top)
    (above : ∀ h m n, holder n = some h → wants h = some m → rank n < rank m) {m : M} {h : H}
    (taken : holder m = some h) :
    ∃ n k, holder n = some k ∧ ∀ l, wants k = some l → holder l = none := by
  induction left : top - rank m using Nat.strongRecOn generalizing m h with
  | ind d ih =>
    cases next : wants h with
    | none => exact ⟨m, h, taken, by simp [next]⟩
    | some l =>
      cases other : holder l with
      | none => exact ⟨m, h, taken, by simp [next, other]⟩
      | some k =>
        have higher := above h l m taken next
        have limit := bound l
        exact ih (top - rank l) (by omega) other rfl

end DistributedClipboard.Lib.Discipline
