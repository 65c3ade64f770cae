/- module: DistributedClipboard/Lib/Frames
   layer: library
   digest: A line of numbered frames, the last of which may be cut short. -/

import Mathlib.Data.List.Basic

set_option autoImplicit false
set_option relaxedAutoImplicit false

namespace DistributedClipboard.Lib.Frames

structure Mark where
  frame : Nat
  offset : Nat
  deriving DecidableEq, Repr

/-- So many bytes of a frame from a given place on. -/
def chunk (n start count : Nat) : List Mark := (List.range' start count).map (Mark.mk n)

theorem chunk_append (n start count more : Nat) :
    chunk n start count ++ chunk n (start + count) more = chunk n start (count + more) := by
  rw [chunk, chunk, chunk, ← List.map_append]
  congr 1
  exact List.range'_append_1

@[simp] theorem chunk_zero (n start : Nat) : chunk n start 0 = [] := rfl

variable (size : Nat → Nat)

def frame (n : Nat) : List Mark := chunk n 0 (size n)

/-- The line carries whole frames in the order of their numbers, from number 0 on, and behind them
the first bytes of a later frame. -/
structure Line (line : List Mark) (frames : List Nat) (n sent : Nat) : Prop where
  first : (frames ++ [n]).head? = some 0
  order : (frames ++ [n]).Pairwise (· < ·)
  bytes : line = frames.flatMap (frame size) ++ chunk n 0 sent
  fits : sent ≤ size n

namespace Line

variable {size} {line : List Mark} {frames : List Nat} {n sent : Nat}

theorem empty : Line size [] [] 0 0 := ⟨rfl, List.pairwise_singleton _ _, rfl, Nat.zero_le _⟩

theorem before (h : Line size line frames n sent) {f : Nat} (member : f ∈ frames) : f < n :=
  (List.pairwise_append.mp h.order).2.2 f member n (List.mem_singleton.mpr rfl)

theorem write (h : Line size line frames n sent) {count : Nat} (room : sent + count ≤ size n) :
    Line size (line ++ chunk n sent count) frames n (sent + count) where
  first := h.first
  order := h.order
  bytes := by
    have joined := chunk_append n 0 sent count
    rw [Nat.zero_add] at joined
    rw [h.bytes, List.append_assoc, joined]
  fits := room

theorem next (h : Line size line frames n sent) (whole : sent = size n) {m : Nat} (later : n < m) :
    Line size line (frames ++ [n]) m 0 where
  first := by
    rw [List.head?_append_of_ne_nil _ (by simp)]
    exact h.first
  order := by
    refine List.pairwise_append.mpr ⟨h.order, List.pairwise_singleton _ _, ?_⟩
    intro f member g last
    obtain rfl : g = m := List.mem_singleton.mp last
    rcases List.mem_append.mp member with old | new
    · exact Nat.lt_trans (h.before old) later
    · obtain rfl : f = n := List.mem_singleton.mp new
      exact later
  bytes := by
    rw [h.bytes, List.flatMap_append, whole, chunk_zero, List.append_nil]
    simp [frame]
  fits := Nat.zero_le _

theorem skip (h : Line size line frames n 0) (greeted : frames ≠ []) {m : Nat}
    (later : ∀ f ∈ frames, f < m) : Line size line frames m 0 where
  first := by
    rw [List.head?_append_of_ne_nil _ greeted]
    have first := h.first
    rwa [List.head?_append_of_ne_nil _ greeted] at first
  order := by
    refine List.pairwise_append.mpr
      ⟨(List.pairwise_append.mp h.order).1, List.pairwise_singleton _ _, ?_⟩
    intro f member g last
    obtain rfl : g = m := List.mem_singleton.mp last
    exact later f member
  bytes := h.bytes
  fits := Nat.zero_le _

end Line

end DistributedClipboard.Lib.Frames
