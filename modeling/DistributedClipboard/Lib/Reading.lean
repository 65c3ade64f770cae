/- module: DistributedClipboard/Lib/Reading
   layer: library
   digest: A program that gets the bytes it reads in pieces: how many it waits for, and when it has all. -/

import DistributedClipboard.Lib.Stream

set_option autoImplicit false
set_option relaxedAutoImplicit false

namespace DistributedClipboard.Lib.Stream

namespace Proc

variable {β α : Type}

def wants : Proc β α → List β → Nat
  | recv n next, got =>
    if got.length < n then n - got.length else (next (got.take n)).wants (got.drop n)
  | send _ next, got => next.wants got
  | done _, _ => 0
  | await _, _ => 0
  | fault, _ => 0

variable {p : Proc β α} {got more : List β} {outs : List (List β)} {a : α}

theorem Runs.wants (runs : Runs p (got ++ more) outs a) (short : more ≠ []) :
    p.exec got = none ∧ 0 < p.wants got ∧ p.wants got ≤ more.length := by
  have some_ : 0 < more.length := List.length_pos_iff.mpr short
  generalize whole : got ++ more = ins at runs
  induction runs generalizing got with
  | done a => exact absurd (List.append_eq_nil_iff.mp whole).2 short
  | send bytes _ ih =>
    obtain ⟨waits, asks, few⟩ := ih whole
    refine ⟨?_, asks, few⟩
    rw [Proc.exec, waits]
    rfl
  | @recv n bs length next ins _ _ _ ih =>
    subst length
    have lengths := congrArg List.length whole
    rw [List.length_append, List.length_append] at lengths
    by_cases part : got.length < bs.length
    · rw [Proc.exec, if_neg (by omega), Proc.wants, if_pos part]
      exact ⟨rfl, by omega, by omega⟩
    · have enough : bs.length ≤ got.length := by omega
      have first : got.take bs.length = bs := by
        have head := congrArg (List.take bs.length) whole
        rwa [List.take_append_of_le_length enough, List.take_left] at head
      have rest : got.drop bs.length ++ more = ins := by
        have tail := congrArg (List.drop bs.length) whole
        rwa [List.drop_append_of_le_length enough, List.drop_left] at tail
      rw [Proc.exec, if_pos enough, Proc.wants, if_neg part, first]
      exact ih rest

theorem Runs.exec_all (runs : Runs p got outs a) : p.exec got = some (a, [], outs) := by
  have ends := runs.exec []
  rwa [List.append_nil] at ends

theorem Runs.prefix_of_waits {whole rest more : List β} (runs : Runs p whole outs a)
    (waits : p.exec got = none) (same : got ++ more = whole ++ rest) :
    ∃ left, left ≠ [] ∧ whole = got ++ left ∧ more = left ++ rest := by
  rcases List.append_eq_append_iff.mp same with ⟨left, split, behind⟩ | ⟨extra, split, _⟩
  · refine ⟨left, ?_, split, behind⟩
    rintro rfl
    rw [List.append_nil] at split
    subst split
    rw [runs.exec_all] at waits
    cases waits
  · rw [split, runs.exec extra] at waits
    cases waits

end Proc

end DistributedClipboard.Lib.Stream
