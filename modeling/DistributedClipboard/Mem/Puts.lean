/- module: DistributedClipboard/Mem/Puts
   source: src/src/mem/clmem.c
   layer: theorem
   digest: What a sequence of puts leaves in the memory, and what of it a waiter notices. -/

import DistributedClipboard.Lib.Latest
import DistributedClipboard.Mem.Clmem
import Mathlib.Order.Nat

set_option autoImplicit false
set_option relaxedAutoImplicit false

namespace DistributedClipboard.Mem.Puts

open DistributedClipboard.Common
open DistributedClipboard.Lib.Latest
open DistributedClipboard.Mem.Clmem

/-- The arguments of a call of `mem_put`; `size` is the length of the data. -/
structure Put where
  region : Int
  data : List UInt8
  updateCond : UInt32
  deriving DecidableEq, Repr

namespace Put

def stamp (p : Put) : Nat := p.updateCond.toNat

/-- The call: the value returned and the memory after it. -/
def call (m : Memory) (p : Put) : Nat × Memory := memPut m p.region p.data p.stamp

/-- The arguments pass the assertions, and the region is `r`. -/
def Valid (p : Put) (r : Region) : Prop := p.region = (r.val : Int) ∧ p.data ≠ []

instance (p : Put) (r : Region) : Decidable (p.Valid r) := inferInstanceAs (Decidable (_ ∧ _))

end Put

/-- The memory after some puts. -/
def afterPuts (m : Memory) (ps : List Put) : Memory := ps.foldl (fun m p => (p.call m).2) m

/-- The puts that return their size and not 0. -/
def successful : Memory → List Put → List Put
  | _, [] => []
  | m, p :: ps =>
    if (p.call m).1 = 0 then successful (p.call m).2 ps else p :: successful (p.call m).2 ps

/-- The puts to a region whose arguments pass the assertions. -/
def putsAt (r : Region) (ps : List Put) : List Put := ps.filter fun p => p.Valid r

/-- The condition of the loop of `mem_wait`. -/
def waitGuard (m : Memory) (r : Region) (aux : Nat) : Bool :=
  aux = (m r).updateCond ∧ (m r).terminate = false

def zoneOf (kept : Option Put) : Zone :=
  ⟨kept.map Put.data, (kept.map fun p => p.data.length).getD 0, level Put.stamp kept, false⟩

section Calls

variable {m : Memory} {r : Region} {p : Put} {ps qs : List Put} {kept : Option Put}

theorem regionOf_eq_some {region : Int} : regionOf region = some r ↔ region = (r.val : Int) := by
  constructor
  · intro found
    unfold regionOf at found
    split at found
    · rename_i bound
      obtain rfl := Option.some.inj found
      exact (Int.toNat_of_nonneg bound.1).symm
    · cases found
  · rintro rfl
    exact regionOf_val r

theorem call_other (elsewhere : ¬ p.Valid r) : (p.call m).2 r = m r := by
  rcases memPut_cases m p.region p.data p.stamp with ⟨_, same, _⟩ | ⟨q, region, filled, _, _, placed⟩
  · rw [Put.call, same]
  · have other : r ≠ q := by
      rintro rfl
      exact elsewhere ⟨regionOf_eq_some.mp region, filled⟩
    rw [Put.call, placed, Function.update_of_ne other]

theorem call_refused (refused : (p.call m).1 = 0) : (p.call m).2 = m := by
  rcases memPut_cases m p.region p.data p.stamp with ⟨_, same, _⟩ | ⟨_, _, filled, _, length, _⟩
  · exact same
  · exact absurd (List.length_eq_zero_iff.mp (length.symm.trans refused)) filled

theorem call_valid (accepted : (p.call m).1 ≠ 0) : ∃ r, p.Valid r := by
  rcases memPut_cases m p.region p.data p.stamp with ⟨zero, _⟩ | ⟨r, region, filled, _⟩
  · exact absurd zero accepted
  · exact ⟨r, regionOf_eq_some.mp region, filled⟩

theorem call_zone (h : m r = zoneOf kept) (valid : p.Valid r) :
    (p.call m).2 r = zoneOf (offer Put.stamp kept p) ∧
      (p.call m).1 = if level Put.stamp kept ≤ p.stamp then p.data.length else 0 := by
  have region : regionOf p.region = some r := regionOf_eq_some.mpr valid.1
  rcases memPut_cases m p.region p.data p.stamp with
    ⟨zero, same, newer⟩ | ⟨q, found, _, olds, length, placed⟩
  · obtain ⟨held, later⟩ := newer r region valid.2
    rw [h] at later
    have stale : ¬ level Put.stamp kept ≤ p.stamp := Nat.not_le.mpr later
    rw [offer_refused stale, if_neg stale, Put.call, same]
    exact ⟨h, zero⟩
  · obtain rfl : r = q := Option.some.inj (region.symm.trans found)
    have newer : level Put.stamp kept ≤ p.stamp := by
      rw [h] at olds
      cases kept with
      | none => exact Nat.zero_le _
      | some k => exact olds rfl
    rw [offer_taken newer, if_pos newer, Put.call, placed, Function.update_self, h]
    exact ⟨rfl, length⟩

@[simp] theorem afterPuts_cons : afterPuts m (p :: ps) = afterPuts (p.call m).2 ps := rfl

theorem putsAt_cons : putsAt r (p :: ps) = if p.Valid r then p :: putsAt r ps else putsAt r ps := by
  by_cases valid : p.Valid r
  · rw [if_pos valid, putsAt, List.filter_cons_of_pos (by simpa using valid), putsAt]
  · rw [if_neg valid, putsAt, List.filter_cons_of_neg (by simpa using valid), putsAt]

theorem afterPuts_zone (h : m r = zoneOf kept) :
    afterPuts m ps r = zoneOf (offers Put.stamp kept (putsAt r ps)) := by
  induction ps generalizing m kept with
  | nil => exact h
  | cons p ps ih =>
    rw [afterPuts_cons, putsAt_cons]
    by_cases valid : p.Valid r
    · rw [if_pos valid, offers_cons]
      exact ih (call_zone h valid).1
    · rw [if_neg valid]
      exact ih (by rwa [call_other valid])

theorem putsAt_successful (h : m r = zoneOf kept) :
    putsAt r (successful m ps) = taken Put.stamp kept (putsAt r ps) := by
  induction ps generalizing m kept with
  | nil => rfl
  | cons p ps ih =>
    rw [successful, putsAt_cons]
    by_cases valid : p.Valid r
    · obtain ⟨next, value⟩ := call_zone h valid
      have filled : p.data.length ≠ 0 := fun zero => valid.2 (List.length_eq_zero_iff.mp zero)
      rw [if_pos valid, taken_cons, value]
      by_cases newer : level Put.stamp kept ≤ p.stamp
      · rw [if_pos newer, if_neg filled, if_pos newer, putsAt_cons, if_pos valid, ih next]
      · rw [if_neg newer, if_pos rfl, if_neg newer, ih next]
    · have next : (p.call m).2 r = zoneOf kept := by rwa [call_other valid]
      rw [if_neg valid]
      by_cases refused : (p.call m).1 = 0
      · rw [if_pos refused, ih next]
      · rw [if_neg refused, putsAt_cons, if_neg valid, ih next]

theorem successful_valid (mine : p ∈ successful m ps) : ∃ r, p.Valid r := by
  induction ps generalizing m with
  | nil => cases mine
  | cons q ps ih =>
    rw [successful] at mine
    by_cases refused : (q.call m).1 = 0
    · rw [if_pos refused] at mine
      exact ih mine
    · rw [if_neg refused] at mine
      rcases List.mem_cons.mp mine with rfl | later
      · exact call_valid refused
      · exact ih later

theorem mem_putsAt_successful :
    p ∈ putsAt r (successful m ps) ↔ p ∈ successful m ps ∧ p.region = (r.val : Int) := by
  rw [putsAt, List.mem_filter, decide_eq_true_iff]
  constructor
  · rintro ⟨mine, valid⟩
    exact ⟨mine, valid.1⟩
  · rintro ⟨mine, region⟩
    obtain ⟨q, valid⟩ := successful_valid mine
    exact ⟨mine, region, valid.2⟩

theorem memInit_zone (r : Region) : memInit r = zoneOf none := rfl

theorem reached_zone (ps : List Put) (r : Region) :
    afterPuts memInit ps r = zoneOf (offers Put.stamp none (putsAt r ps)) :=
  afterPuts_zone (memInit_zone r)

theorem level_le_iff (valid : p.Valid r) : level Put.stamp (offers Put.stamp none (putsAt r ps)) ≤
    p.stamp ↔ ∀ q ∈ successful memInit ps, q.region = p.region →
      q.updateCond ≤ p.updateCond := by
  rw [level_taken_le, ← putsAt_successful (memInit_zone r)]
  constructor
  · rintro ⟨_, older⟩ q mine region
    exact older q (mem_putsAt_successful.mpr ⟨mine, region.trans valid.1⟩)
  · intro older
    refine ⟨Nat.zero_le _, fun q mine => ?_⟩
    obtain ⟨mine, region⟩ := mem_putsAt_successful.mp mine
    exact older q mine (region.trans valid.1.symm)

end Calls

/-- Every call of `mem_put` succeeds when its arguments pass the assertions and nothing that has
succeeded in its region before is newer, and changes that region only. In the end a region holds
the last of the newest puts to it. -/
theorem put_closed_form (ps : List Put) :
    (∀ before p after, ps = before ++ p :: after →
      (p.call (afterPuts memInit before)).1 =
        (if (0 ≤ p.region ∧ p.region ≤ 9) ∧ 0 < p.data.length ∧
            ∀ q ∈ successful memInit before, q.region = p.region → q.updateCond ≤ p.updateCond
          then p.data.length else 0) ∧
      ((p.call (afterPuts memInit before)).1 = 0 →
        (p.call (afterPuts memInit before)).2 = afterPuts memInit before) ∧
      ∀ r : Region, p.region ≠ (r.val : Int) →
        (p.call (afterPuts memInit before)).2 r = afterPuts memInit before r) ∧
    ∀ r : Region, (putsAt r ps = [] ∧ afterPuts memInit ps r = memInit r) ∨
      ∃ p, IsLatest Put.stamp (putsAt r ps) p ∧ afterPuts memInit ps r =
        ⟨some p.data, p.data.length, p.updateCond.toNat, false⟩ := by
  constructor
  · rintro before p after -
    refine ⟨?_, call_refused, fun r elsewhere => call_other fun valid => elsewhere valid.1⟩
    by_cases exists_ : ∃ r, p.Valid r
    · obtain ⟨r, valid⟩ := exists_
      have bounds : 0 ≤ p.region ∧ p.region ≤ 9 := by
        have upper : r.val < 10 := r.isLt
        rw [valid.1]
        omega
      have filled : 0 < p.data.length := List.length_pos_iff.mpr valid.2
      rw [(call_zone (reached_zone before r) valid).2]
      simp only [level_le_iff valid, bounds, filled, true_and, and_self]
    · rw [if_neg]
      · by_contra accepted
        exact exists_ (call_valid accepted)
      · rintro ⟨⟨lower, upper⟩, filled, _⟩
        refine exists_ ⟨⟨p.region.toNat, ?_⟩, ?_, List.length_pos_iff.mp filled⟩
        · show p.region.toNat < 10
          omega
        · exact (Int.toNat_of_nonneg lower).symm
  · intro r
    rw [reached_zone ps r]
    have ends : (putsAt r ps = [] ∧ offers Put.stamp none (putsAt r ps) = none) ∨
        ∃ p, offers Put.stamp none (putsAt r ps) = some p ∧ IsLatest Put.stamp (putsAt r ps) p :=
      offers_none
    rcases ends with ⟨empty, kept⟩ | ⟨p, kept, latest⟩
    · rw [kept]
      exact .inl ⟨empty, rfl⟩
    · rw [kept]
      exact .inr ⟨p, latest, rfl⟩

/-- A waiter that has saved the timestamp of its region before some puts leaves its loop exactly
when one of them has succeeded, unless the newest of them have the timestamp saved. -/
theorem update_seen_iff (before ps : List Put) (r : Region) :
    (waitGuard (afterPuts (afterPuts memInit before) ps) r (afterPuts memInit before r).updateCond =
        false ↔
      ∃ p ∈ successful (afterPuts memInit before) ps, p.region = (r.val : Int)) ↔
    (∃ p ∈ putsAt r ps, (afterPuts memInit before r).updateCond < p.stamp) ∨
      ∀ p ∈ putsAt r ps, p.stamp ≠ (afterPuts memInit before r).updateCond := by
  have start := reached_zone before r
  generalize afterPuts memInit before = m at start
  generalize offers Put.stamp none (putsAt r before) = kept at start
  have aux : (m r).updateCond = level Put.stamp kept := by rw [start]; rfl
  have leaves : waitGuard (afterPuts m ps) r (level Put.stamp kept) = false ↔
      ∃ p ∈ putsAt r ps, level Put.stamp kept < p.stamp := by
    have stays : level Put.stamp (offers Put.stamp kept (putsAt r ps)) = level Put.stamp kept ↔
        ∀ p ∈ putsAt r ps, p.stamp ≤ level Put.stamp kept := level_offers_eq
    simp only [waitGuard, afterPuts_zone start, zoneOf, and_true, decide_eq_false_iff_not]
    rw [eq_comm, stays]
    push Not
    rfl
  have succeeds : (∃ p ∈ successful m ps, p.region = (r.val : Int)) ↔
      ∃ p ∈ putsAt r ps, level Put.stamp kept ≤ p.stamp := by
    rw [← exists_taken_iff, ← putsAt_successful start]
    exact exists_congr fun p => mem_putsAt_successful.symm
  rw [aux, leaves, succeeds]
  constructor
  · intro noticed
    by_contra missed
    push Not at missed
    obtain ⟨older, p, mine, same⟩ := missed
    obtain ⟨q, mine', newer⟩ := noticed.mpr ⟨p, mine, same.ge⟩
    exact absurd newer (Nat.not_lt.mpr (older q mine'))
  · rintro (⟨p, mine, newer⟩ | different)
    · exact ⟨fun _ => ⟨p, mine, newer.le⟩, fun _ => ⟨p, mine, newer⟩⟩
    · constructor
      · rintro ⟨p, mine, newer⟩
        exact ⟨p, mine, newer.le⟩
      · rintro ⟨p, mine, newer⟩
        exact ⟨p, mine, lt_of_le_of_ne newer (different p mine).symm⟩

/-- Two copies within one second: the second is stored and the waiter sleeps on. -/
theorem update_seen_same_second :
    ¬ (waitGuard (afterPuts (afterPuts memInit [⟨0, [97], 5⟩]) [⟨0, [98], 5⟩]) firstRegion
        (afterPuts memInit [⟨0, [97], 5⟩] firstRegion).updateCond = false ↔
      ∃ p ∈ successful (afterPuts memInit [⟨0, [97], 5⟩]) [⟨0, [98], 5⟩],
        p.region = (firstRegion.val : Int)) := by
  decide

end DistributedClipboard.Mem.Puts
