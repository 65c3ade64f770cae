/- module: DistributedClipboard/Utils/ShortReads
   source: src/src/utils/packet.c, src/Library/client_api.c
   layer: model
   digest: The loops of `recvData` over a stream that comes in pieces. -/

import DistributedClipboard.Utils.Packet
import Mathlib.Algebra.BigOperators.Group.List.Basic
import Mathlib.Algebra.Order.BigOperators.Group.List
import Mathlib.Algebra.Ring.Int.Defs
import Mathlib.Algebra.Ring.Nat

set_option autoImplicit false
set_option relaxedAutoImplicit false

namespace DistributedClipboard.Utils.ShortReads

open DistributedClipboard.Lib.Stream
open DistributedClipboard.Utils.Packet

/-- The bytes still to come from the socket, and the memory from `buf` on. -/
structure RecvState where
  stream : List UInt8
  mem : List UInt8
  deriving DecidableEq, Repr

/-- `recv(sock,buf,size,MSG_WAITALL)` that returns `ret`: every call writes from `buf` on. -/
def RecvState.recv (s : RecvState) (ret : Nat) : RecvState :=
  ⟨s.stream.drop ret, s.stream.take ret ++ s.mem.drop ret⟩

inductive Outcome
  | returned (value : Int) (s : RecvState)
  | waiting
  /-- The signed `recvBytes` has overflowed. -/
  | overflow
  deriving DecidableEq, Repr

def recvLoop (limit : Nat) (report : Nat → Int) (size : Nat) :
    Nat → RecvState → List Int → Outcome
  | recvBytes, s, [] => if recvBytes < size then .waiting else .returned (report recvBytes) s
  | recvBytes, s, ret :: rets =>
    if recvBytes < size then
      if ret < 1 then .returned ret s
      else if recvBytes + ret.toNat < limit then
        recvLoop limit report size (recvBytes + ret.toNat) (s.recv ret.toNat) rets
      else .overflow
    else .returned (report recvBytes) s

/-- `recvData` of the daemon counts in an `int`, and returns the count as a `long long`. -/
def recvData (size : Nat) (s : RecvState) (rets : List Int) : Outcome :=
  recvLoop (2 ^ 31) Nat.cast size 0 s rets

/-- `recvData` of the client counts in a `long`, and returns the count as an `int`. -/
def clientRecvData (size : Nat) (s : RecvState) (rets : List Int) : Outcome :=
  recvLoop (2 ^ 63) toInt size 0 s rets

/-- A positive value is the size asked for, and then the buffer has exactly the next bytes of the
stream, in order, and nothing else has been read or written. -/
def Exact (size : Nat) (s : RecvState) : Outcome → Prop
  | .returned value t => 0 < value →
      value = size ∧ t.mem = s.stream.take size ++ s.mem.drop size ∧ t.stream = s.stream.drop size
  | .waiting => True
  | .overflow => False

/-- What `recv` can answer when it is asked for `size` bytes. -/
def Answers (size : Nat) (rets : List Int) : Prop :=
  ∀ ret ∈ rets, ret = 0 ∨ ret = -1 ∨ 1 ≤ ret ∧ ret ≤ size

/-- The results so far that have delivered bytes. -/
def Delivered (got rets : List Int) : Prop := got <+: rets ∧ ∀ ret ∈ got, 1 ≤ ret

/-- The bytes delivered are all on the stream. -/
def Supplied (s : RecvState) (rets : List Int) : Prop := (rets.map Int.toNat).sum ≤ s.stream.length

section Loop

variable {limit size n total : Nat} {report : Nat → Int} {s t : RecvState} {ret v : Int}
  {rets got : List Int}

theorem recvLoop_full (full : size ≤ n) :
    recvLoop limit report size n s rets = .returned (report n) s := by
  cases rets with
  | nil => rw [recvLoop, if_neg (Nat.not_lt.mpr full)]
  | cons ret rets => rw [recvLoop, if_neg (Nat.not_lt.mpr full)]

theorem recvLoop_cons (room : n < size) : recvLoop limit report size n s (ret :: rets) =
    if ret < 1 then .returned ret s
    else if n + ret.toNat < limit then
      recvLoop limit report size (n + ret.toNat) (s.recv ret.toNat) rets
    else .overflow := by
  rw [recvLoop, if_pos room]

theorem Delivered.cons (some_ : 1 ≤ ret) (h : Delivered got rets) :
    Delivered (ret :: got) (ret :: rets) := by
  refine ⟨(List.prefix_cons_inj ret).mpr h.1, fun x mine => ?_⟩
  rcases List.mem_cons.mp mine with rfl | later
  · exact some_
  · exact h.2 x later

theorem delivered_nil : Delivered [] rets := ⟨List.nil_prefix, List.forall_mem_nil _⟩

inductive Reads (size : Nat) : Nat → RecvState → List Int → Nat → RecvState → Prop
  | full {n : Nat} {s : RecvState} {rets : List Int} (full : size ≤ n) : Reads size n s rets n s
  | more {n total : Nat} {s t : RecvState} {ret : Int} {rets : List Int} (room : n < size)
      (some_ : 1 ≤ ret) (rest : Reads size (n + ret.toNat) (s.recv ret.toNat) rets total t) :
      Reads size n s (ret :: rets) total t

theorem recvLoop_of_reads (report : Nat → Int) (fits : size ≤ limit) (low : n < limit)
    (reads : Reads size n s rets total t) : recvLoop limit report size n s rets =
      if total < limit then .returned (report total) t else .overflow := by
  induction reads with
  | full full => rw [recvLoop_full full, if_pos low]
  | @more n total s t ret rets room some_ rest ih =>
    rw [recvLoop_cons room, if_neg (by omega)]
    by_cases counted : n + ret.toNat < limit
    · rw [if_pos counted]
      exact ih counted
    · rw [if_neg counted]
      cases rest with
      | full => rw [if_neg counted]
      | more room' => omega

theorem recvLoop_of_short (limit : Nat) (report : Nat → Int) (fits : size ≤ limit)
    (short : ∀ total t, ¬ Reads size n s rets total t) :
    recvLoop limit report size n s rets = .waiting ∨
      ∃ ret t, recvLoop limit report size n s rets = .returned ret t ∧ ret < 1 := by
  have room : n < size := by
    by_contra full
    exact short n s (.full (Nat.not_lt.mp full))
  induction rets generalizing n s with
  | nil => exact .inl (by rw [recvLoop, if_pos room])
  | cons ret rets ih =>
    rw [recvLoop_cons room]
    by_cases none_ : ret < 1
    · rw [if_pos none_]
      exact .inr ⟨ret, s, rfl, none_⟩
    · have some_ : 1 ≤ ret := by omega
      have later : ∀ total t, ¬ Reads size (n + ret.toNat) (s.recv ret.toNat) rets total t :=
        fun total t rest => short total t (.more room some_ rest)
      have room' : n + ret.toNat < size := by
        by_contra full
        exact later _ _ (.full (Nat.not_lt.mp full))
      rw [if_neg none_, if_pos (by omega)]
      exact ih later room'

theorem Reads.of_any (reads : Reads size n s rets total t) (s' : RecvState) :
    ∃ t', Reads size n s' rets total t' := by
  induction reads generalizing s' with
  | full full => exact ⟨s', .full full⟩
  | @more _ _ _ _ ret _ room some_ _ ih =>
    obtain ⟨t', rest⟩ := ih (s'.recv ret.toNat)
    exact ⟨t', .more room some_ rest⟩

theorem Reads.delivered (reads : Reads size n s rets total t) :
    ∃ got, Delivered got rets ∧ (total : Int) = n + got.sum := by
  induction reads with
  | full => exact ⟨[], delivered_nil, by simp⟩
  | more _ some_ _ ih =>
    obtain ⟨got, delivered, sum⟩ := ih
    refine ⟨_, delivered.cons some_, ?_⟩
    rw [List.sum_cons]
    omega

theorem reads_of_delivered (delivered : Delivered got rets) (enough : (size : Int) ≤ n + got.sum)
    (s : RecvState) : ∃ total t, Reads size n s rets total t ∧ (total : Int) ≤ n + got.sum := by
  induction got generalizing n s rets with
  | nil =>
    rw [List.sum_nil] at enough
    exact ⟨n, s, .full (by omega), by simp⟩
  | cons ret got ih =>
    obtain ⟨rest, rfl⟩ := delivered.1
    have some_ : 1 ≤ ret := delivered.2 ret List.mem_cons_self
    have positive (x : Int) (mine : x ∈ got) : 1 ≤ x := delivered.2 x (List.mem_cons_of_mem _ mine)
    rw [List.sum_cons] at enough ⊢
    by_cases room : n < size
    · obtain ⟨total, t, reads, bound⟩ := ih (n := n + ret.toNat)
        ⟨List.prefix_append got rest, positive⟩ (by omega) (s.recv ret.toNat)
      exact ⟨total, t, .more room some_ reads, by omega⟩
    · have sum : 0 ≤ got.sum := List.sum_nonneg fun x mine => by have := positive x mine; omega
      exact ⟨n, s, .full (Nat.not_lt.mp room), by omega⟩

theorem Reads.reached (reads : Reads size n s rets total t) : size ≤ total ∧ n ≤ total := by
  induction reads with
  | full full => exact ⟨full, le_rfl⟩
  | more _ _ _ ih => exact ⟨ih.1, by omega⟩

theorem Reads.bound (reads : Reads size n s rets total t) (answers : Answers size rets)
    (low : n < 2 * size) : total < 2 * size := by
  induction reads with
  | full => exact low
  | @more _ _ _ _ ret _ room some_ _ ih =>
    have most : ret ≤ size := by
      rcases answers ret List.mem_cons_self with rfl | rfl | ⟨_, most⟩
      · omega
      · omega
      · exact most
    exact ih (fun x mine => answers x (List.mem_cons_of_mem _ mine)) (by omega)

theorem Supplied.recv (h : Supplied s (ret :: rets)) : Supplied (s.recv ret.toNat) rets := by
  rw [Supplied, List.map_cons, List.sum_cons] at h
  rw [Supplied, RecvState.recv, List.length_drop]
  omega

theorem RecvState.recv_beyond {ret i : Nat} (s : RecvState) (available : ret ≤ s.stream.length)
    (beyond : ret ≤ i) : (s.recv ret).mem[i]? = s.mem[i]? := by
  have here : (s.stream.take ret).length = ret := List.length_take_of_le available
  rw [recv, List.getElem?_append_right (by omega), here, List.getElem?_drop]
  congr 1
  omega

theorem Reads.last_kept (reads : Reads size n s rets total t) (begun : 1 ≤ n)
    (exactly : total ≤ size) (supplied : Supplied s rets) :
    t.mem[size - 1]? = s.mem[size - 1]? := by
  induction reads with
  | full => rfl
  | @more n total s t ret rets room some_ rest ih =>
    rw [ih (by omega) exactly supplied.recv]
    have below : n + ret.toNat ≤ total := rest.reached.2
    rw [Supplied, List.map_cons, List.sum_cons] at supplied
    exact s.recv_beyond (by omega) (by omega)

theorem Reads.whole {rest : List Int} (reads : Reads size 0 s ((size : Int) :: rest) total t)
    (positive : 0 < size) : total = size ∧ t = s.recv size := by
  have count : 0 + (size : Int).toNat = size := by omega
  cases reads with
  | full => omega
  | more _ _ rest =>
    rw [count] at rest
    cases rest with
    | full => exact ⟨rfl, rfl⟩
    | more room => omega

def zerosToOnes (size : Nat) (rets : List Int) : RecvState :=
  ⟨.replicate (size + (rets.map Int.toNat).sum) 0, .replicate size 1⟩

theorem zerosToOnes_supplied : Supplied (zerosToOnes size rets) rets := by
  rw [Supplied, zerosToOnes, List.length_replicate]
  exact Nat.le_add_left _ _

theorem Reads.misses (some_ : 1 ≤ ret) (short : ret < size)
    (rest : Reads size (0 + ret.toNat) ((zerosToOnes size (ret :: rets)).recv ret.toNat) rets size t) :
    t.mem ≠ (zerosToOnes size (ret :: rets)).stream.take size ++
      (zerosToOnes size (ret :: rets)).mem.drop size := by
  intro mem
  let s₀ := zerosToOnes size (ret :: rets)
  have supplied : Supplied s₀ (ret :: rets) := zerosToOnes_supplied
  have available : ret.toNat ≤ s₀.stream.length := by
    rw [Supplied, List.map_cons, List.sum_cons] at supplied
    omega
  have zero : s₀.stream[size - 1]? = some 0 := List.getElem?_replicate_of_lt (by omega)
  have one : s₀.mem[size - 1]? = some 1 := List.getElem?_replicate_of_lt (by omega)
  have nothing : s₀.mem.drop size = [] := List.drop_of_length_le (by simp [s₀, zerosToOnes])
  have kept := rest.last_kept (by omega) le_rfl supplied.recv
  rw [s₀.recv_beyond available (by omega), mem, nothing, List.append_nil,
    List.getElem?_take_of_lt (by omega), zero, one] at kept
  cases kept

theorem exact_iff_whole {seen : Nat → Prop} (positive : 0 < size) (fits : size < limit)
    (same : ∀ total, size ≤ total → total < 2 * size → (report total = size ↔ total = size))
    (sees : ∀ total, size ≤ total → total < 2 * size →
      (seen total ↔ limit ≤ total ∨ 0 < report total))
    (answers : Answers size rets) :
    (∀ s : RecvState, Supplied s rets → size ≤ s.mem.length →
      Exact size s (recvLoop limit report size 0 s rets)) ↔
    ∀ s total t, Reads size 0 s rets total t → seen total → rets.head? = some (size : Int) := by
  have reported : report size = size := (same size le_rfl (by omega)).mpr rfl
  constructor
  · intro exact_ s total t reads noticed
    cases reads with
    | full full => omega
    | @more _ _ _ _ ret rets _ some_ rest =>
      have most : ret ≤ size := by
        rcases answers ret List.mem_cons_self with rfl | rfl | ⟨_, most⟩
        · omega
        · omega
        · exact most
      rcases Int.lt_or_eq_of_le most with short | rfl
      · let s₀ := zerosToOnes size (ret :: rets)
        obtain ⟨t₀, rest₀⟩ := rest.of_any (s₀.recv ret.toNat)
        have reads₀ : Reads size 0 s₀ (ret :: rets) total t₀ := .more positive some_ rest₀
        have bound := reads₀.bound answers (by omega)
        have result := exact_ s₀ zerosToOnes_supplied (by simp [s₀, zerosToOnes])
        rw [recvLoop_of_reads report fits.le (by omega) reads₀] at result
        by_cases counted : total < limit
        · rw [if_pos counted] at result
          have valid : 0 < report total :=
            ((sees total reads₀.reached.1 bound).mp noticed).resolve_left (Nat.not_le.mpr counted)
          obtain ⟨value, mem, _⟩ := result valid
          obtain rfl : total = size := (same total reads₀.reached.1 bound).mp value
          exact absurd mem (rest₀.misses some_ short)
        · rw [if_neg counted] at result
          exact result.elim
      · rfl
  · intro whole s supplied room
    by_cases reaches : ∃ total t, Reads size 0 s rets total t
    · obtain ⟨total, t, reads⟩ := reaches
      have bound := reads.bound answers (by omega)
      rw [recvLoop_of_reads report fits.le (by omega) reads]
      by_cases noticed : seen total
      · obtain ⟨rest, rfl⟩ := List.head?_eq_some_iff.mp (whole s total t reads noticed)
        obtain ⟨rfl, rfl⟩ := reads.whole positive
        rw [if_pos fits]
        exact fun _ => ⟨reported, rfl, rfl⟩
      · rw [sees total reads.reached.1 bound, not_or] at noticed
        rw [if_pos (by omega)]
        exact fun valid => absurd valid noticed.2
    · push Not at reaches
      rcases recvLoop_of_short limit report fits.le reaches with ends | ⟨ret, t, ends, low⟩
      · rw [ends]
        trivial
      · rw [ends]
        exact fun valid => by omega

end Loop

theorem recvData_whole {size : Nat} (positive : 0 < size) (small : size < 2 ^ 31) {s : RecvState}
    {rets : List Int} (supplied : Supplied s ((size : Int) :: rets)) :
    recvData size s ((size : Int) :: rets) = .returned size (s.recv size) ∧
      Proc.Runs (Packet.recvData size) (s.stream.take size) [] ((size : Int), s.stream.take size) := by
  constructor
  · have reads : Reads size 0 s ((size : Int) :: rets) (0 + (size : Int).toNat)
        (s.recv (size : Int).toNat) := .more positive (by omega) (.full (by omega))
    have count : 0 + (size : Int).toNat = size := by omega
    rw [recvData, recvLoop_of_reads Nat.cast small.le (by omega) reads, count, if_pos small,
      Int.toNat_natCast]
  · refine recvData_runs ?_ small
    rw [Supplied, List.map_cons, List.sum_cons] at supplied
    exact List.length_take_of_le (by omega)

/-- `recvData` reads exactly the next bytes of every stream when its first `recv` returns all of
them, or when what the `recv`s deliver before they fail is less than the size. That of the client
does not return a positive value either for a count that is no `int`. -/
theorem recvData_exact_iff {size : Nat} (positive : 0 < size) (small : size < 2 ^ 31)
    {rets : List Int} (answers : Answers size rets) :
    ((∀ s : RecvState, Supplied s rets → size ≤ s.mem.length →
        Exact size s (recvData size s rets)) ↔
      ∀ got, Delivered got rets → (size : Int) ≤ got.sum → rets.head? = some (size : Int)) ∧
    ((∀ s : RecvState, Supplied s rets → size ≤ s.mem.length →
        Exact size s (clientRecvData size s rets)) ↔
      ∀ got, Delivered got rets → (size : Int) ≤ got.sum → got.sum < 2 ^ 31 →
        rets.head? = some (size : Int)) := by
  constructor
  · have daemon : (∀ s : RecvState, Supplied s rets → size ≤ s.mem.length →
        Exact size s (recvLoop (2 ^ 31) Nat.cast size 0 s rets)) ↔
        ∀ s total t, Reads size 0 s rets total t → True → rets.head? = some (size : Int) :=
      exact_iff_whole positive small (fun _ _ _ => Int.ofNat_inj)
        (fun _ _ _ => iff_of_true trivial (.inr (by omega))) answers
    simp only [recvData]
    rw [daemon]
    constructor
    · intro whole got delivered enough
      have enough' : (size : Int) ≤ (0 : Nat) + got.sum := by omega
      obtain ⟨total, t, reads, _⟩ := reads_of_delivered delivered enough' ⟨[], []⟩
      exact whole _ total t reads trivial
    · intro whole s total t reads _
      obtain ⟨got, delivered, sum⟩ := reads.delivered
      have reached := reads.reached.1
      exact whole got delivered (by omega)
  · have client : (∀ s : RecvState, Supplied s rets → size ≤ s.mem.length →
        Exact size s (recvLoop (2 ^ 63) toInt size 0 s rets)) ↔
        ∀ s total t, Reads size 0 s rets total t → total < 2 ^ 31 →
          rets.head? = some (size : Int) :=
      exact_iff_whole positive (by omega) (fun _ _ _ => by unfold toInt; split <;> omega)
        (fun _ _ _ => by unfold toInt; split <;> omega) answers
    simp only [clientRecvData]
    rw [client]
    constructor
    · intro whole got delivered enough fits
      have enough' : (size : Int) ≤ (0 : Nat) + got.sum := by omega
      obtain ⟨total, t, reads, most⟩ := reads_of_delivered delivered enough' ⟨[], []⟩
      exact whole _ total t reads (by omega)
    · intro whole s total t reads noticed
      obtain ⟨got, delivered, sum⟩ := reads.delivered
      have reached := reads.reached.1
      exact whole got delivered (by omega) (by omega)

theorem recvData_exact_iff_halves : 0 < 4 ∧ 4 < 2 ^ 31 ∧ Answers 4 [2, 2] ∧
    (¬ ∀ s : RecvState, Supplied s [2, 2] → 4 ≤ s.mem.length →
      Exact 4 s (recvData 4 s [2, 2])) := by
  have answers : Answers 4 [2, 2] := by
    intro ret mine
    simp only [List.mem_cons, List.not_mem_nil, or_false, or_self] at mine
    omega
  refine ⟨by decide, by decide, answers, fun exact_ => ?_⟩
  have whole := (recvData_exact_iff (by decide) (by decide) answers).1.mp exact_
  exact absurd (whole [2, 2] ⟨List.prefix_rfl, by decide⟩ (by decide)) (by decide)

/-- The second piece of a payload goes over the first. -/
theorem recvData_halves_overwritten :
    ¬ Exact 4 ⟨[97, 98, 99, 100], [0, 0, 0, 0]⟩
      (recvData 4 ⟨[97, 98, 99, 100], [0, 0, 0, 0]⟩ [2, 2]) := by
  intro exact_
  exact absurd (exact_ (by decide)).2.1 (by decide)

end DistributedClipboard.Utils.ShortReads
