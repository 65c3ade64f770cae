/- module: DistributedClipboard/Mem/Representation
   source: src/src/mem/clmem.c, src/src/clipboard.c
   layer: theorem
   digest: The pointer and the size of a region, read together after any calls. -/

import DistributedClipboard.Mem.Puts

set_option autoImplicit false
set_option relaxedAutoImplicit false

namespace DistributedClipboard.Mem.Representation

open DistributedClipboard.Common
open DistributedClipboard.Mem.Clmem
open DistributedClipboard.Mem.Puts

/-- A call of the memory. `main` finishes the memory while the interfaces still serve requests, so
the calls come in any order. -/
inductive MemCall
  | get (region : Int) (size : Nat)
  | put (p : Put)
  | finish
  deriving DecidableEq, Repr

/-- The memory after a call. -/
def MemCall.after (m : Memory) : MemCall → Memory
  | .get _ _ => m
  | .put p => (p.call m).2
  | .finish => memFinish m

/-- The memory after some calls. -/
def afterCalls (m : Memory) (cs : List MemCall) : Memory := cs.foldl MemCall.after m

/-- What `mem_wait` does once its loop has ended: the bytes copied. -/
def memWaitReturn (m : Memory) (region : Int) (size : Nat) : Option (List UInt8) :=
  match regionOf region with
  | none => some []
  | some r =>
    if (m r).terminate then some []
    else
      let cpSize := minMacro size (m r).size
      if cpSize = 0 then some [] else memcpyFrom (m r).data cpSize

/-- A region holds nothing and its size is 0, or its size is that of what it points to. -/
structure Represents (m : Memory) : Prop where
  null_iff : ∀ r, (m r).data = none ↔ (m r).size = 0
  size : ∀ r d, (m r).data = some d → (m r).size = d.length

def sizeAt (m : Memory) (region : Int) : Nat :=
  match regionOf region with
  | none => 0
  | some r => (m r).size

def awakeAt (m : Memory) (region : Int) : Nat :=
  match regionOf region with
  | none => 0
  | some r => if (m r).terminate then 0 else (m r).size

/-- A valid put to the region is among the calls. -/
def Written (cs : List MemCall) (r : Region) : Prop := ∃ p, .put p ∈ cs ∧ p.Valid r

/-- A `mem_finish` comes after a valid put to the region, and no other valid put to it follows. -/
def Cleared (cs : List MemCall) (r : Region) : Prop :=
  ∃ before after, cs = before ++ .finish :: after ∧ Written before r ∧ ¬ Written after r

section History

variable {cs : List MemCall} {c : MemCall} {r : Region}

theorem written_append {ds : List MemCall} :
    Written (cs ++ ds) r ↔ Written cs r ∨ Written ds r := by
  simp only [Written, List.mem_append, or_and_right, exists_or]

theorem written_singleton : Written [c] r ↔ ∃ p, c = .put p ∧ p.Valid r := by
  simp only [Written, List.mem_singleton, eq_comm]

theorem not_written_nil : ¬ Written [] r := by
  rintro ⟨_, mine, _⟩
  cases mine

theorem Cleared.written (h : Cleared cs r) : Written cs r := by
  obtain ⟨before, after, rfl, written, _⟩ := h
  exact written_append.mpr (.inl written)

theorem cleared_concat : Cleared (cs ++ [c]) r ↔
    (c = .finish ∧ Written cs r) ∨ (Cleared cs r ∧ ¬ Written [c] r) := by
  constructor
  · rintro ⟨before, after, eq, written, dry⟩
    rcases List.eq_nil_or_concat' after with rfl | ⟨after, d, rfl⟩
    · obtain ⟨rfl, last⟩ := List.append_inj' eq rfl
      exact .inl ⟨List.head_eq_of_cons_eq last, written⟩
    · rw [← List.cons_append, ← List.append_assoc] at eq
      obtain ⟨rfl, last⟩ := List.append_inj' eq rfl
      obtain rfl : c = d := List.head_eq_of_cons_eq last
      rw [written_append, not_or] at dry
      exact .inr ⟨⟨before, after, rfl, written, dry.1⟩, dry.2⟩
  · rintro (⟨rfl, written⟩ | ⟨⟨before, after, rfl, written, dry⟩, dry'⟩)
    · exact ⟨cs, [], rfl, written, not_written_nil⟩
    · refine ⟨before, after ++ [c], by simp, written, ?_⟩
      rw [written_append, not_or]
      exact ⟨dry, dry'⟩

structure Tells (z : Zone) (cs : List MemCall) (r : Region) : Prop where
  size : z.size = 0 ↔ ¬ Written cs r
  null : z.data = none ↔ ¬ Written cs r ∨ Cleared cs r
  length : ∀ d, z.data = some d → z.size = d.length

theorem Tells.same {z : Zone} (h : Tells z cs r) (dry : ¬ Written [c] r) (goesOn : c ≠ .finish) :
    Tells z (cs ++ [c]) r := by
  have written : Written (cs ++ [c]) r ↔ Written cs r := by
    rw [written_append]
    exact or_iff_left dry
  have cleared : Cleared (cs ++ [c]) r ↔ Cleared cs r := by
    rw [cleared_concat]
    constructor
    · rintro (⟨finishes, _⟩ | ⟨old, _⟩)
      · exact absurd finishes goesOn
      · exact old
    · intro old
      exact .inr ⟨old, dry⟩
  refine ⟨?_, ?_, h.length⟩
  · rw [written]
    exact h.size
  · rw [written, cleared]
    exact h.null

theorem Tells.put {m : Memory} {p : Put} (h : Tells (m r) cs r) (valid : p.Valid r) :
    Tells ((p.call m).2 r) (cs ++ [.put p]) r := by
  have wet : Written [.put p] r := written_singleton.mpr ⟨p, rfl, valid⟩
  have written : Written (cs ++ [.put p]) r := written_append.mpr (.inr wet)
  have uncleared : ¬ Cleared (cs ++ [.put p]) r := by
    rw [cleared_concat]
    rintro (⟨finishes, _⟩ | ⟨_, dry⟩)
    · cases finishes
    · exact dry wet
  have filled {z : Zone} {d : List UInt8} (data : z.data = some d) (size : z.size = d.length)
      (positive : z.size ≠ 0) : Tells z (cs ++ [.put p]) r := by
    refine ⟨iff_of_false positive (not_not.mpr written), iff_of_false ?_ ?_, ?_⟩
    · rw [data]
      exact Option.some_ne_none d
    · rintro (dry | cleared)
      · exact dry written
      · exact uncleared cleared
    · rintro d' same
      obtain rfl : d = d' := Option.some.inj (data.symm.trans same)
      exact size
  have region : regionOf p.region = some r := regionOf_eq_some.mpr valid.1
  rcases memPut_cases m p.region p.data p.stamp with
    ⟨_, same, newer⟩ | ⟨q, found, _, _, _, placed⟩
  · -- refused: what it was compared with is still there
    obtain ⟨d, data⟩ := Option.isSome_iff_exists.mp (newer r region valid.2).1
    rw [Put.call, same]
    refine filled data (h.length d data) ?_
    intro zero
    have dry : ¬ Written cs r := h.size.mp zero
    rw [h.null.mpr (.inl dry)] at data
    cases data
  · obtain rfl : r = q := Option.some.inj (region.symm.trans found)
    rw [Put.call, placed, Function.update_self]
    exact filled rfl rfl fun zero => valid.2 (List.length_eq_zero_iff.mp zero)

theorem Tells.finish {m : Memory} (h : Tells (m r) cs r) :
    Tells (memFinish m r) (cs ++ [.finish]) r := by
  have dry : ¬ Written [.finish] r := by
    rw [written_singleton]
    rintro ⟨_, put, _⟩
    cases put
  have written : Written (cs ++ [.finish]) r ↔ Written cs r := by
    rw [written_append]
    exact or_iff_left dry
  refine ⟨?_, ?_, nofun⟩
  · rw [written]
    exact h.size
  · refine iff_of_true rfl ?_
    rw [written, cleared_concat]
    by_cases before : Written cs r
    · exact .inr (.inl ⟨rfl, before⟩)
    · exact .inl before

theorem afterCalls_tells (cs : List MemCall) (r : Region) :
    Tells (afterCalls memInit cs r) cs r := by
  induction cs using List.reverseRecOn with
  | nil => exact ⟨iff_of_true rfl not_written_nil, iff_of_true rfl (.inl not_written_nil), nofun⟩
  | append_singleton cs c ih =>
    have last : afterCalls memInit (cs ++ [c]) = c.after (afterCalls memInit cs) :=
      List.foldl_append
    rw [last]
    cases c with
    | get region size =>
      refine ih.same ?_ nofun
      rw [written_singleton]
      rintro ⟨_, put, _⟩
      cases put
    | put p =>
      by_cases valid : p.Valid r
      · exact ih.put valid
      · rw [MemCall.after, call_other valid]
        refine ih.same ?_ nofun
        rw [written_singleton]
        rintro ⟨q, same, valid'⟩
        obtain rfl := MemCall.put.inj same
        exact valid valid'
    | finish => exact ih.finish

section Reads

variable {m : Memory} {region : Int} {size : Nat}

theorem memcpyFrom_represented (represents : Represents m) {n : Nat} (some_ : n ≠ 0)
    (bound : n ≤ (m r).size) : memcpyFrom (m r).data n ≠ none := by
  cases data : (m r).data with
  | none =>
    have zero := (represents.null_iff r).mp data
    omega
  | some d =>
    have length := represents.size r d data
    rw [memcpyFrom, if_pos (by omega)]
    exact Option.some_ne_none _

theorem memGet_represented (represents : Represents m) : memGet m region size ≠ none := by
  unfold memGet
  split
  · exact Option.some_ne_none _
  · rename_i r _
    simp only [minMacro_eq_min]
    split
    · exact Option.some_ne_none _
    · rename_i some_
      exact memcpyFrom_represented represents some_ (Nat.min_le_right _ _)

theorem memWaitReturn_represented (represents : Represents m) :
    memWaitReturn m region size ≠ none := by
  have copied : memGet m region size ≠ none := memGet_represented represents
  unfold memWaitReturn
  unfold memGet at copied
  split
  · exact Option.some_ne_none _
  · rename_i found
    simp only [found] at copied
    split
    · exact Option.some_ne_none _
    · exact copied

theorem memcpyFrom_length {source : Option (List UInt8)} {n : Nat} {data : List UInt8}
    (copied : memcpyFrom source n = some data) : data.length = n := by
  unfold memcpyFrom at copied
  split at copied
  · cases copied
  · split at copied
    · rename_i enough
      cases copied
      exact List.length_take_of_le enough
    · cases copied

theorem memGet_length {data : List UInt8} (found : memGet m region size = some data) :
    data.length = min size (sizeAt m region) := by
  cases valid : regionOf region with
  | none =>
    simp only [memGet, valid] at found
    cases found
    simp [sizeAt, valid]
  | some r =>
    simp only [memGet, valid, minMacro_eq_min] at found
    simp only [sizeAt, valid]
    split at found
    · rename_i zero
      cases found
      exact zero.symm
    · exact memcpyFrom_length found

theorem memWaitReturn_length {data : List UInt8} (found : memWaitReturn m region size = some data) :
    data.length = min size (awakeAt m region) := by
  cases valid : regionOf region with
  | none =>
    simp only [memWaitReturn, valid] at found
    cases found
    simp [awakeAt, valid]
  | some r =>
    simp only [memWaitReturn, valid, minMacro_eq_min] at found
    simp only [awakeAt, valid]
    split at found
    · rename_i ended
      cases found
      rw [if_pos ended, Nat.min_zero, List.length_nil]
    · rename_i lives
      rw [if_neg lives]
      split at found
      · rename_i zero
        cases found
        exact zero.symm
      · exact memcpyFrom_length found

end Reads

end History

/-- In every state reached the pointers and the sizes go together, and no read copies from a null
or a shorter source, exactly when each region that a `mem_finish` has emptied has been put to
again. -/
theorem represents_iff_uncleared (cs : List MemCall) :
    (Represents (afterCalls memInit cs) ∧ ∀ region size,
      memGet (afterCalls memInit cs) region size ≠ none ∧
        memWaitReturn (afterCalls memInit cs) region size ≠ none) ↔ ∀ r, ¬ Cleared cs r := by
  have tells := afterCalls_tells cs
  constructor
  · rintro ⟨represents, _⟩ r cleared
    have empty := (tells r).null.mpr (.inr cleared)
    exact (tells r).size.mp ((represents.null_iff r).mp empty) cleared.written
  · intro uncleared
    have represents : Represents (afterCalls memInit cs) := by
      refine ⟨fun r => ?_, fun r => (tells r).length⟩
      rw [(tells r).null, (tells r).size, or_iff_left (uncleared r)]
    exact ⟨represents, fun _ _ => ⟨memGet_represented represents,
      memWaitReturn_represented represents⟩⟩

/-- A paste that comes between `mem_finish` and the end of its connection. -/
theorem represents_finished : ¬ (Represents (afterCalls memInit [.put ⟨0, [97], 1⟩, .finish]) ∧
    ∀ region size,
      memGet (afterCalls memInit [.put ⟨0, [97], 1⟩, .finish]) region size ≠ none ∧
        memWaitReturn (afterCalls memInit [.put ⟨0, [97], 1⟩, .finish]) region size ≠ none) := by
  rintro ⟨_, reads⟩
  exact (reads 0 1).1 (by decide)

end DistributedClipboard.Mem.Representation
