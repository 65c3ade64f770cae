/- module: DistributedClipboard/Common
   source: src/src/common.h, src/src/interfaces/if.h
   layer: model
   digest: The constants, the region bounds test and the MIN macro. -/

import Mathlib.Order.Defs.LinearOrder
import Mathlib.Data.Fin.Basic

set_option autoImplicit false
set_option relaxedAutoImplicit false

namespace DistributedClipboard.Common

universe u

/-- `N_REGIONS` -/
def nRegions : Nat := 10

/-- `MAX_CLIPBOARDS` -/
def maxClipboards : Nat := 20

/-- `MAX_APPS` -/
def maxApps : Nat := 20

theorem maxApps_pos : 0 < maxApps := Nat.zero_lt_succ 19

/-- A region that has passed the bounds test of the store. -/
abbrev Region := Fin nRegions

def firstRegion : Region := ⟨0, by decide⟩

/-- `region >= 0 && region < N_REGIONS` -/
def regionOf (region : Int) : Option Region :=
  if h : 0 ≤ region ∧ region < nRegions then
    some ⟨region.toNat, by simp only [nRegions] at h ⊢; omega⟩
  else none

@[simp] theorem regionOf_val (r : Region) : regionOf (r.val : Int) = some r := by
  have bound : (r.val : Int) < nRegions := Int.ofNat_lt.mpr r.isLt
  rw [regionOf, dif_pos ⟨Int.natCast_nonneg _, bound⟩]
  rfl

def minMacro {α : Type u} [LT α] [DecidableLT α] (a b : α) : α := if b < a then b else a

def minMacroM {m : Type → Type} [Monad m] (a : m Int) (b : Int) : m Int := do
  let first ← a
  if first > b then return b else a

theorem minMacro_eq_min {α : Type u} [LinearOrder α] (a b : α) : minMacro a b = min a b := by
  unfold minMacro
  split
  · rename_i lower
    exact (min_eq_right lower.le).symm
  · rename_i upper
    exact (min_eq_left (not_lt.mp upper)).symm

end DistributedClipboard.Common
