/- module: DistributedClipboard/Mem/Clmem
   source: src/src/mem/clmem.c
   layer: model
   digest: The clipboard memory as one caller at a time sees it, and the store it stands for. -/

import DistributedClipboard.Common
import DistributedClipboard.Lib.Linearizability

set_option autoImplicit false
set_option relaxedAutoImplicit false

namespace DistributedClipboard.Mem.Clmem

open DistributedClipboard.Common
open DistributedClipboard.Lib.Linearizability

structure Zone where
  data : Option (List UInt8)
  size : Nat
  updateCond : Nat
  terminate : Bool
  deriving DecidableEq, Repr

/-- `struct clipboard_memory` -/
abbrev Memory := Region → Zone

/-- `mem_init`: the memory is set to zero. -/
def memInit : Memory := fun _ => ⟨none, 0, 0, false⟩

def memcpyFrom (data : Option (List UInt8)) (n : Nat) : Option (List UInt8) :=
  match data with
  | none => none
  | some d => if n ≤ d.length then some (d.take n) else none

/-- `mem_get`: the bytes copied, as many as the value returned. -/
def memGet (m : Memory) (region : Int) (size : Nat) : Option (List UInt8) :=
  match regionOf region with
  | none => some []
  | some r =>
    let cpSize := minMacro size (m r).size
    if cpSize = 0 then some [] else memcpyFrom (m r).data cpSize

/-- `mem_put`: the value returned and the memory after it. -/
def memPut (m : Memory) (region : Int) (data : List UInt8) (updateCond : Nat) : Nat × Memory :=
  match regionOf region with
  | none => (0, m)
  | some r =>
    if data.length = 0 then (0, m)
    else if (m r).data.isSome ∧ updateCond < (m r).updateCond then (0, m)
    else (data.length, Function.update m r ⟨some data, data.length, updateCond, (m r).terminate⟩)

theorem memPut_cases (m : Memory) (region : Int) (data : List UInt8) (stamp : Nat) :
    ((memPut m region data stamp).1 = 0 ∧ (memPut m region data stamp).2 = m ∧
      ∀ r, regionOf region = some r → data ≠ [] →
        (m r).data.isSome ∧ stamp < (m r).updateCond) ∨
    ∃ r, regionOf region = some r ∧ data ≠ [] ∧
      ((m r).data.isSome → (m r).updateCond ≤ stamp) ∧
      (memPut m region data stamp).1 = data.length ∧
      (memPut m region data stamp).2 =
        Function.update m r ⟨some data, data.length, stamp, (m r).terminate⟩ := by
  cases hr : regionOf region with
  | none => exact .inl ⟨by simp [memPut, hr], by simp [memPut, hr], nofun⟩
  | some r =>
    by_cases empty : data = []
    · refine .inl ⟨by simp [memPut, hr, empty], by simp [memPut, hr, empty], fun _ _ some => ?_⟩
      exact absurd empty some
    · have length : data.length ≠ 0 := fun zero => empty (List.length_eq_zero_iff.mp zero)
      by_cases stale : (m r).data.isSome ∧ stamp < (m r).updateCond
      · refine .inl ⟨by simp [memPut, hr, empty, stale], by simp [memPut, hr, empty, stale], ?_⟩
        rintro q same _
        obtain rfl : r = q := Option.some.inj same
        exact stale
      · refine .inr ⟨r, rfl, empty, fun some => ?_, ?_, ?_⟩
        · exact Nat.le_of_not_lt fun newer => stale ⟨some, newer⟩
        · simp only [memPut, hr, if_neg length, if_neg stale]
        · simp only [memPut, hr, if_neg length, if_neg stale]

/-- `mem_finish`: every zone is told to terminate and its buffer is freed. -/
def memFinish (m : Memory) : Memory := fun r => { m r with data := none, terminate := true }

abbrev Store := Region → Option (List UInt8 × Nat)

def storePut (s : Store) (r : Region) (data : List UInt8) (stamp : Nat) : Nat × Store :=
  match s r with
  | some (_, stored) =>
    if stamp < stored then (0, s) else (data.length, Function.update s r (some (data, stamp)))
  | none => (data.length, Function.update s r (some (data, stamp)))

def storeGet (s : Store) (r : Region) (n : Nat) : List UInt8 :=
  match s r with
  | some (data, _) => data.take n
  | none => []

inductive Op
  | get (region : Int) (size : Nat)
  | put (region : Int) (data : List UInt8) (updateCond : Nat)
  deriving DecidableEq, Repr

/-- The value of a call: the bytes `mem_get` copied, or what `mem_put` returns. -/
inductive Res
  | bytes (data : List UInt8)
  | count (n : Nat)
  deriving DecidableEq, Repr

def storeApply (s : Store) : Op → Res × Store
  | .get region size =>
    match regionOf region with
    | none => (.bytes [], s)
    | some r => (.bytes (storeGet s r size), s)
  | .put region data stamp =>
    match regionOf region with
    | none => (.count 0, s)
    | some r => if data = [] then (.count 0, s)
      else (.count (storePut s r data stamp).1, (storePut s r data stamp).2)

def storeSpec : Spec Store Op Res := ⟨fun _ => none, storeApply⟩

def Holds (z : Zone) : Option (List UInt8 × Nat) → Prop
  | none => z.data = none ∧ z.size = 0
  | some (data, stamp) => z.data = some data ∧ z.size = data.length ∧ z.updateCond = stamp

def Refines (m : Memory) (s : Store) : Prop := ∀ r, Holds (m r) (s r)

theorem memInit_refines : Refines memInit storeSpec.init := fun _ => ⟨rfl, rfl⟩

theorem memGet_refines {m : Memory} {s : Store} (h : Refines m s) (region : Int) (size : Nat) :
    (memGet m region size).map Res.bytes = some (storeApply s (.get region size)).1 := by
  cases hr : regionOf region with
  | none => simp [memGet, storeApply, hr]
  | some r =>
    have zone := h r
    simp only [memGet, storeApply, hr, storeGet, minMacro_eq_min]
    cases hs : s r with
    | none =>
      rw [hs] at zone
      simp [zone.2]
    | some kept =>
      obtain ⟨data, stamp⟩ := kept
      rw [hs] at zone
      obtain ⟨pointer, length, _⟩ := zone
      rw [length, pointer]
      by_cases empty : min size data.length = 0
      · have : data.take size = [] := by
          rw [List.take_eq_nil_iff]
          rcases Nat.min_eq_zero_iff.mp empty with zero | zero
          · exact .inl zero
          · exact .inr (List.length_eq_zero_iff.mp zero)
        simp [empty, this]
      · simp [empty, memcpyFrom, List.take_eq_take_iff]

theorem memPut_refines {m : Memory} {s : Store} (h : Refines m s) (region : Int)
    (data : List UInt8) (stamp : Nat) :
    Res.count (memPut m region data stamp).1 = (storeApply s (.put region data stamp)).1 ∧
      Refines (memPut m region data stamp).2 (storeApply s (.put region data stamp)).2 := by
  cases hr : regionOf region with
  | none => simpa [memPut, storeApply, hr] using h
  | some r =>
    by_cases empty : data = []
    · simpa [memPut, storeApply, hr, empty] using h
    have zone := h r
    have stored : Refines
        (Function.update m r ⟨some data, data.length, stamp, (m r).terminate⟩)
        (Function.update s r (some (data, stamp))) := by
      intro q
      by_cases eq : q = r
      · subst eq
        simp [Holds]
      · simpa [Function.update_of_ne eq] using h q
    cases hs : s r with
    | none =>
      rw [hs] at zone
      simpa [memPut, storeApply, storePut, hr, empty, hs, zone.1] using stored
    | some kept =>
      obtain ⟨old, kept⟩ := kept
      rw [hs] at zone
      obtain ⟨pointer, _, cond⟩ := zone
      by_cases stale : stamp < kept
      · simpa [memPut, storeApply, storePut, hr, empty, hs, pointer, cond, stale] using h
      · simpa [memPut, storeApply, storePut, hr, empty, hs, pointer, cond, stale] using stored

end DistributedClipboard.Mem.Clmem
