/- module: DistributedClipboard/Interfaces/AppSession
   source: src/src/interfaces/appif.c, src/Library/client_api.c
   layer: theorem
   digest: An application and its slave exchange one response for each request, or fall out of step. -/

import DistributedClipboard.Interfaces.AppSlave
import DistributedClipboard.Library.ClientApi

set_option autoImplicit false
set_option relaxedAutoImplicit false

namespace DistributedClipboard.Interfaces.AppSession

open DistributedClipboard.Common
open DistributedClipboard.Interfaces.AppSlave
open DistributedClipboard.Lib.Stream
open DistributedClipboard.Lib.Transition
open DistributedClipboard.Library.ClientApi
open DistributedClipboard.Mem.Clmem
open DistributedClipboard.Utils.Packet
open Proc (Runs Asks)

/-- The lengths for which a frame of payload has a size that is an `int`. -/
def FitsFrame (n : Nat) : Prop := 1 ≤ n ∧ n ≤ 2 ^ 31 - 11

instance (n : Nat) : Decidable (FitsFrame n) := inferInstanceAs (Decidable (_ ∧ _))

/-- The calls of an application. -/
inductive Call
  | copy (region : Region) (data : List UInt8) (fits : FitsFrame data.length)
  | paste (region : Region) (count : Nat) (fits : FitsFrame count)

/-- The readings of a clock that never goes backwards. -/
structure Clock where
  now : Nat → UInt32
  forward : ∀ i j, i ≤ j → (now i).toNat ≤ (now j).toNat

structure Application where
  todo : List Call
  results : List Result

def Call.perform : Call → Proc UInt8 Result
  | .copy r data _ => clipboardCopy r.val data
  | .paste r count _ => clipboardPaste r.val count

def application (s : Application) : Proc UInt8 (Option Application) :=
  match s.todo with
  | [] => .done none
  | call :: calls => do
    let r ← call.perform
    return some ⟨calls, s.results ++ [r]⟩

def slaveInit : SlaveState := ⟨memInit, [], 0, 1⟩

abbrev Session := Conversation UInt8 Application SlaveState

def session (clock : Clock) (calls : List Call) : System Session Side :=
  conversation application (appifSlave clock.now) ⟨calls, []⟩ slaveInit

section Expected

def latestCopy (before : List Call) (r : Region) : Option (List UInt8) :=
  before.reverse.findSome? fun
    | .copy q data _ => if q = r then some data else none
    | .paste .. => none

/-- The bytes a paste is to get. -/
def pasted (before : List Call) (r : Region) (count : Nat) : List UInt8 :=
  ((latestCopy before r).getD []).take count

def Call.outcome (before : List Call) : Call → Result
  | .copy _ data _ => ⟨data.length, []⟩
  | .paste r count _ => ⟨(pasted before r count).length, pasted before r count⟩

def Call.frame : Call → List UInt8
  | .copy r data _ => copyFrame r data
  | .paste r count _ => (pasteFrame r count).bytes

def Call.answer (clock : Clock) (before : List Call) : Call → List UInt8
  | .copy r data _ =>
    PacketFetch.bytes ⟨PacketType.responseAck.code, .ofNat r.val, .ofNat data.length⟩
  | .paste r count _ =>
    PacketData.bytes ⟨PacketType.responsePaste.code, .ofNat r.val,
      .ofNat (pasted before r count).length, clock.now before.length⟩ ++ pasted before r count

def eachAfter {γ : Type} (f : List Call → Call → γ) : List Call → List Call → List γ
  | _, [] => []
  | before, call :: calls => f before call :: eachAfter f (before ++ [call]) calls

def outcomes (calls : List Call) : List Result := eachAfter Call.outcome [] calls

def answers (clock : Clock) (calls : List Call) : List (List UInt8) :=
  eachAfter (Call.answer clock) [] calls

variable {γ : Type} (f : List Call → Call → γ)

theorem eachAfter_append (before xs ys : List Call) :
    eachAfter f before (xs ++ ys) = eachAfter f before xs ++ eachAfter f (before ++ xs) ys := by
  induction xs generalizing before with
  | nil => simp [eachAfter]
  | cons x xs ih => simp [eachAfter, ih]

theorem eachAfter_snoc (calls : List Call) (call : Call) :
    eachAfter f [] (calls ++ [call]) = eachAfter f [] calls ++ [f calls call] := by
  rw [eachAfter_append]
  rfl

@[simp] theorem length_eachAfter (before calls : List Call) :
    (eachAfter f before calls).length = calls.length := by
  induction calls generalizing before with
  | nil => rfl
  | cons x xs ih => simp [eachAfter, ih]

theorem latestCopy_copy (before : List Call) (q : Region) (data : List UInt8)
    (fits : FitsFrame data.length) (r : Region) :
    latestCopy (before ++ [.copy q data fits]) r =
      if q = r then some data else latestCopy before r := by
  simp only [latestCopy, List.reverse_append, List.reverse_singleton, List.singleton_append,
    List.findSome?_cons]
  split <;> simp_all

theorem latestCopy_paste (before : List Call) (q : Region) (count : Nat) (fits : FitsFrame count)
    (r : Region) : latestCopy (before ++ [.paste q count fits]) r = latestCopy before r := by
  simp [latestCopy]

end Expected

/-- The session is in step: the slave never has written more than one frame for each request, each
the answer to its request, and the calls that have returned have the results they should; and in
every interleaving the session comes to its end, with every call answered and nothing left over. -/
structure InStep (clock : Clock) (calls : List Call) : Prop where
  orderly : ∀ s, (session clock calls).Reach System.anyStep s →
    s.responses <+: (answers clock calls).take s.requests.length ∧
      s.client.state.results <+: outcomes calls
  completes : ∃ z n, z.client.state.results = outcomes calls ∧ z.responses = answers clock calls ∧
    z.requests = calls.map Call.frame ∧ z.up = [] ∧ z.down = [] ∧
      ∀ as s, (session clock calls).run (session clock calls).init as = some s →
        as.length ≤ n ∧ (session clock calls).Path System.anyStep s z

/-- A payload shorter than the frame that acknowledges it. -/
def Call.Small : Call → Prop
  | .copy _ data _ => data.length ≤ 5
  | .paste .. => True

instance (call : Call) : Decidable call.Small := by
  cases call <;> unfold Call.Small <;> infer_instance

section Slave

variable {clock : Clock} {before : List Call} {t : SlaveState}

/-- The slave has served the calls. -/
structure Serves (clock : Clock) (before : List Call) (t : SlaveState) : Prop where
  alive : 1 ≤ t.err
  readings : t.readings = before.length
  stored : ∃ store : Store, Refines t.mem store ∧
    (∀ r, (store r).map Prod.fst = latestCopy before r) ∧
      ∀ r data stamp, store r = some (data, stamp) → stamp ≤ (clock.now before.length).toNat

theorem serves_init : Serves clock [] slaveInit where
  alive := Int.le_refl 1
  readings := rfl
  stored := ⟨fun _ => none, memInit_refines, fun _ => rfl, nofun⟩

theorem Serves.memGet_eq (serves : Serves clock before t) (r : Region) (count : Nat) :
    memGet t.mem r.val count = some (pasted before r count) := by
  obtain ⟨store, refines, latest, _⟩ := serves.stored
  have found : storeGet store r count = pasted before r count := by
    rw [pasted, ← latest r, storeGet]
    cases store r with
    | none => simp
    | some kept => rfl
  have got := memGet_refines refines r.val count
  rw [storeApply, regionOf_val] at got
  obtain ⟨data, same, bytes⟩ := Option.map_eq_some_iff.mp got
  rw [same, ← found]
  exact congrArg some (Res.bytes.inj bytes)

theorem Serves.paste (serves : Serves clock before t) (r : Region) (count : Nat)
    (fits : FitsFrame count) {u : SlaveState} (mem : u.mem = t.mem) (alive : 1 ≤ u.err)
    (readings : u.readings = t.readings + 1) :
    Serves clock (before ++ [.paste r count fits]) u := by
  obtain ⟨store, refines, latest, stamps⟩ := serves.stored
  have later : (before ++ [Call.paste r count fits]).length = before.length + 1 :=
    List.length_append
  refine ⟨alive, ?_, store, mem ▸ refines, fun q => ?_, fun q data stamp kept => ?_⟩
  · rw [readings, serves.readings, later]
  · rw [latestCopy_paste]
    exact latest q
  · rw [later]
    exact (stamps q data stamp kept).trans (clock.forward _ _ (Nat.le_succ _))

theorem Serves.memPut_eq (serves : Serves clock before t) (r : Region) {data : List UInt8}
    (fits : FitsFrame data.length) : ∃ mem,
      memPut t.mem r.val data (clock.now t.readings).toNat = (data.length, mem) ∧
      ∀ u : SlaveState, u.mem = mem → 1 ≤ u.err → u.readings = t.readings + 1 →
        Serves clock (before ++ [.copy r data fits]) u := by
  obtain ⟨store, refines, latest, stamps⟩ := serves.stored
  have filled : data ≠ [] := by
    rintro rfl
    have positive := fits.1
    rw [List.length_nil] at positive
    omega
  have placed : storePut store r data (clock.now before.length).toNat =
      (data.length, Function.update store r (some (data, (clock.now before.length).toNat))) := by
    cases kept : store r with
    | none => rw [storePut, kept]
    | some entry =>
      have current := stamps r entry.1 entry.2 kept
      rw [storePut, kept]
      exact if_neg (by omega)
  obtain ⟨count, after⟩ := memPut_refines refines r.val data (clock.now t.readings).toNat
  rw [serves.readings] at count after ⊢
  simp only [storeApply, regionOf_val, if_neg filled, placed] at count after
  refine ⟨_, Prod.ext (Res.count.inj count) rfl, fun u mem alive readings => ?_⟩
  have later : (before ++ [Call.copy r data fits]).length = before.length + 1 :=
    List.length_append
  have forward := clock.forward _ _ (Nat.le_succ before.length)
  have refines' : Refines u.mem
      (Function.update store r (some (data, (clock.now before.length).toNat))) := by
    rw [mem]
    exact after
  refine ⟨alive, by rw [readings, later], _, refines', fun q => ?_, fun q bytes stamp entry => ?_⟩
  · rw [latestCopy_copy]
    by_cases same : r = q
    · subst same
      simp
    · rw [Function.update_of_ne (Ne.symm same), if_neg same]
      exact latest q
  · rw [later]
    by_cases same : q = r
    · subst same
      rw [Function.update_self] at entry
      cases entry
      exact forward
    · rw [Function.update_of_ne same] at entry
      exact (stamps q bytes stamp entry).trans forward

theorem Serves.paste_turn (serves : Serves clock before t) (r : Region) (count : Nat)
    (fits : FitsFrame count) : ∃ u, Serves clock (before ++ [.paste r count fits]) u ∧
      Runs (appifSlave clock.now t) (Call.paste r count fits).frame
        [(Call.paste r count fits).answer clock before] (some u) := by
  have size : (UInt32.ofNat count).toNat = count := by
    rw [UInt32.toNat_ofNat']
    exact Nat.mod_eq_of_lt (by have := fits.2; omega)
  have region : (UInt8.ofNat r.val).toNat = r.val := by
    rw [UInt8.toNat_ofNat']
    exact Nat.mod_eq_of_lt (by have : r.val < 10 := r.isLt; omega)
  have found : memGet t.mem (pasteFrame r count).region.toNat (pasteFrame r count).dataSize.toNat =
      some (pasted before r count) := by
    rw [pasteFrame, region, size]
    exact serves.memGet_eq r count
  have short : (pasted before r count).length ≤ 2 ^ 31 - 11 :=
    (List.length_take_le _ _).trans fits.2
  have alive : (1 : Int) ≤ 5 := by decide
  refine ⟨{ t with err := 5, readings := t.readings + 1 },
    serves.paste r count fits rfl alive rfl, ?_⟩
  have handles := pasteRequest_runs clock.now (s := { t with err := 1 })
    (pasteFrame r count) rfl found
  refine appifSlave_runs serves.alive handles ?_
  rw [Call.answer, ← serves.readings]
  refine respond_runs_once ?_ ?_ ?_ ?_
  · simp [PacketData.bytes]
  · rw [List.length_append, PacketData.length_bytes]
  · show packetDataSize + (pasted before r count).length < 2 ^ 31
    rw [packetDataSize]
    omega
  · show (5 : Int) < (packetDataSize + (pasted before r count).length : Nat)
    rw [packetDataSize]
    omega

theorem Serves.copy_turn (serves : Serves clock before t) (r : Region) (data : List UInt8)
    (fits : FitsFrame data.length) :
    (data.length ≤ 5 → ∃ u, Serves clock (before ++ [.copy r data fits]) u ∧
      Runs (appifSlave clock.now t) (Call.copy r data fits).frame
        [(Call.copy r data fits).answer clock before] (some u)) ∧
    (5 < data.length → ∃ u, Runs (appifSlave clock.now t) (Call.copy r data fits).frame
      [(Call.copy r data fits).answer clock before, (Call.copy r data fits).answer clock before]
      (some u)) := by
  have upper := fits.2
  have lower := fits.1
  have size : (UInt32.ofNat data.length).toNat = data.length := by
    rw [UInt32.toNat_ofNat']
    exact Nat.mod_eq_of_lt (by omega)
  have region : (UInt8.ofNat r.val).toNat = r.val := by
    rw [UInt8.toNat_ofNat']
    exact Nat.mod_eq_of_lt (by have : r.val < 10 := r.isLt; omega)
  obtain ⟨mem, placed, after⟩ := serves.memPut_eq r fits
  have placed' : memPut t.mem (UInt8.ofNat r.val).toNat data (clock.now t.readings).toNat =
      (data.length, mem) := by
    rw [region]
    exact placed
  have positive : data.length ≠ 0 := by omega
  have ackSize : packetFetchSize < 2 ^ 31 := by decide
  have handles := copyRequest_runs clock.now (s := { t with err := 1 })
    ⟨PacketType.requestCopy.code, .ofNat r.val, .ofNat data.length, 0⟩ rfl size.symm (by omega)
    positive placed'
  let u : SlaveState := ⟨mem, t.queued ++ [(⟨PacketType.requestCopy.code, .ofNat r.val,
    .ofNat data.length, clock.now t.readings⟩, data)], t.readings + 1, data.length⟩
  constructor
  · intro small
    refine ⟨u, after u rfl ?_ rfl, appifSlave_runs serves.alive handles ?_⟩
    · show (1 : Int) ≤ data.length
      omega
    · refine respond_runs_once ?_ rfl ackSize ?_
      · simp [PacketFetch.bytes]
      · show (data.length : Int) < (packetFetchSize : Nat)
        rw [packetFetchSize]
        omega
  · intro big
    refine ⟨{ u with err := packetFetchSize }, appifSlave_runs serves.alive handles ?_⟩
    refine respond_runs_twice ?_ rfl ackSize ?_
    · simp [PacketFetch.bytes]
    · show ((packetFetchSize : Nat) : Int) ≤ data.length
      rw [packetFetchSize]
      omega

end Slave

section Lockstep

variable {clock : Clock} {calls before rest : List Call} {c : Application} {t : SlaveState}
  {reqs resps : List (List UInt8)} {call : Call}

structure Lockstep (clock : Clock) (calls before : List Call) (c : Application) (t : SlaveState)
    (reqs resps : List (List UInt8)) : Prop where
  made : calls = before ++ c.todo
  results : c.results = outcomes before
  requests : reqs = before.map Call.frame
  responses : resps = answers clock before
  serves : Serves clock before t

theorem lockstep_init (clock : Clock) (calls : List Call) :
    Lockstep clock calls [] ⟨calls, []⟩ slaveInit [] [] :=
  ⟨rfl, rfl, rfl, rfl, serves_init⟩

theorem application_asks (clock : Clock) (before : List Call) (results : List Result) :
    Asks (application ⟨call :: rest, results⟩) call.frame (call.answer clock before)
      (some ⟨rest, results ++ [call.outcome before]⟩) := by
  cases call with
  | copy r data fits =>
    have upper := fits.2
    have asks := clipboardCopy_asks (r := r) fits.2
      ⟨PacketType.responseAck.code, .ofNat r.val, .ofNat data.length⟩
    have size : toInt (UInt32.ofNat data.length).toNat = data.length := by
      rw [UInt32.toNat_ofNat', Nat.mod_eq_of_lt (by omega)]
      exact toInt_small (by omega)
    rw [size] at asks
    exact asks.bind_done rfl
  | paste r count fits =>
    have short : (pasted before r count).length ≤ count := List.length_take_le _ _
    have upper := fits.2
    exact (clipboardPaste_asks short (by omega)).bind_done rfl

theorem Lockstep.next (lock : Lockstep clock calls before c t reqs resps)
    (todo : c.todo = call :: rest) {u : SlaveState} (serves : Serves clock (before ++ [call]) u) :
    Lockstep clock calls (before ++ [call]) ⟨rest, c.results ++ [call.outcome before]⟩ u
      (reqs ++ [call.frame]) (resps ++ [call.answer clock before]) where
  made := by rw [lock.made, todo, List.append_assoc, List.singleton_append]
  results := by
    show c.results ++ _ = _
    rw [lock.results, outcomes, outcomes, eachAfter_snoc]
  requests := by rw [lock.requests, List.map_append, List.map_singleton]
  responses := by rw [lock.responses, answers, answers, eachAfter_snoc]
  serves := serves

theorem Lockstep.exchange (lock : Lockstep clock calls before c t reqs resps)
    (todo : c.todo = call :: rest) (small : call.Small) : ∃ u,
    Exchange application (appifSlave clock.now) c t call.frame (call.answer clock before)
      ⟨rest, c.results ++ [call.outcome before]⟩ u ∧
    Lockstep clock calls (before ++ [call]) ⟨rest, c.results ++ [call.outcome before]⟩ u
      (reqs ++ [call.frame]) (resps ++ [call.answer clock before]) := by
  have asks : Asks (application c) call.frame (call.answer clock before)
      (some ⟨rest, c.results ++ [call.outcome before]⟩) := by
    obtain ⟨calls', results⟩ := c
    obtain rfl : calls' = call :: rest := todo
    exact application_asks clock before results
  obtain ⟨u, serves, answers⟩ : ∃ u, Serves clock (before ++ [call]) u ∧
      Runs (appifSlave clock.now t) call.frame [call.answer clock before] (some u) := by
    cases call with
    | copy r data fits => exact (lock.serves.copy_turn r data fits).1 small
    | paste r count fits => exact lock.serves.paste_turn r count fits
  exact ⟨u, ⟨asks, answers⟩, lock.next todo serves⟩

theorem dialogue_of_small (small : ∀ call ∈ calls, call.Small) :
    Dialogue application (appifSlave clock.now)
      (fun c t reqs resps => ∃ before, Lockstep clock calls before c t reqs resps) where
  waits := by
    rintro c t reqs resps ⟨before, lock⟩
    exact appifSlave_blocked lock.serves.alive
  continues := by
    rintro c t reqs resps ⟨before, lock⟩
    cases todo : c.todo with
    | nil =>
      left
      rw [application, todo]
    | cons call rest =>
      right
      have known : call ∈ calls := by
        rw [lock.made, todo]
        exact List.mem_append_right _ List.mem_cons_self
      obtain ⟨u, exchange, lock'⟩ := lock.exchange todo (small call known)
      exact ⟨_, _, _, u, exchange, _, lock'⟩

theorem eachAfter_prefix {γ : Type} (f : List Call → Call → γ) (made : calls = before ++ rest) :
    eachAfter f [] before = (eachAfter f [] calls).take before.length := by
  rw [made, eachAfter_append, List.take_left' (length_eachAfter f [] before)]

/-- A session whose calls are all small from here on can be finished. By induction on the calls
that are left. -/
theorem Lockstep.finishes (lock : Lockstep clock calls before c t reqs resps)
    (small : ∀ call ∈ c.todo, call.Small) (c₀ : Application) (t₀ : SlaveState) : ∃ c₁ t₁ u,
    (session clock calls).Path System.anyStep (.between c₀ c t₀ t reqs resps)
      (.between c₁ ⟨[], outcomes calls⟩ t₁ u (calls.map Call.frame) (answers clock calls)) ∧
    Serves clock calls u := by
  induction todo : c.todo generalizing before c t reqs resps c₀ t₀ with
  | nil =>
    obtain ⟨todo', results⟩ := c
    obtain rfl : todo' = [] := todo
    obtain rfl : calls = before := by rw [lock.made, List.append_nil]
    obtain rfl : results = outcomes calls := lock.results
    rw [lock.requests, lock.responses]
    exact ⟨c₀, t₀, t, .refl _, lock.serves⟩
  | cons call rest ih =>
    rw [todo] at small
    obtain ⟨u, exchange, lock'⟩ := lock.exchange todo (small call List.mem_cons_self)
    obtain ⟨c₁, t₁, u', path, serves⟩ :=
      ih lock' (fun call mine => small call (List.mem_cons_of_mem _ mine)) c t rfl
    exact ⟨c₁, t₁, u', (path_of_exchange exchange).trans path, serves⟩

/-- A session with a call that is not small gets to more responses than requests. By induction on
the calls up to the first such. -/
theorem Lockstep.doubles (lock : Lockstep clock calls before c t reqs resps)
    (big : ∃ call ∈ c.todo, ¬ call.Small) (c₀ : Application) (t₀ : SlaveState) : ∃ s,
    (session clock calls).Path System.anyStep (.between c₀ c t₀ t reqs resps) s ∧
    s.requests.length < s.responses.length := by
  induction todo : c.todo generalizing before c t reqs resps c₀ t₀ with
  | nil =>
    obtain ⟨call, mine, _⟩ := big
    rw [todo] at mine
    cases mine
  | cons call rest ih =>
    by_cases small : call.Small
    · obtain ⟨u, exchange, lock'⟩ := lock.exchange todo small
      have later : ∃ call ∈ rest, ¬ call.Small := by
        obtain ⟨call', mine, big'⟩ := big
        rw [todo] at mine
        rcases List.mem_cons.mp mine with rfl | mine
        · exact absurd small big'
        · exact ⟨call', mine, big'⟩
      obtain ⟨s, path, more⟩ := ih lock' later c t rfl
      exact ⟨s, (path_of_exchange exchange).trans path, more⟩
    · cases call with
      | paste => exact absurd trivial small
      | copy r data fits =>
        obtain ⟨u, twice⟩ := (lock.serves.copy_turn r data fits).2 (Nat.lt_of_not_le small)
        obtain ⟨todo', results⟩ := c
        obtain rfl : todo' = .copy r data fits :: rest := todo
        obtain ⟨next, asks, _, _⟩ := application_asks clock before results
        refine ⟨_, path_of_request asks twice, ?_⟩
        show (reqs ++ [_]).length < (resps ++ [_, _]).length
        rw [lock.requests, lock.responses, answers, List.length_append, List.length_append,
          List.length_map, length_eachAfter, List.length_singleton, List.length_cons,
          List.length_singleton]
        omega

end Lockstep

section Session

/-- The session is in step exactly if no copy has more than 5 bytes: `sendData` of the 6 bytes of an
acknowledgement is evaluated again when the payload was not shorter. -/
theorem session_in_step_iff (clock : Clock) (calls : List Call) :
    InStep clock calls ↔ ∀ call ∈ calls, call.Small := by
  constructor
  · intro inStep call known
    by_contra big
    obtain ⟨s, path, more⟩ := (lockstep_init clock calls).doubles ⟨call, known, big⟩ _ slaveInit
    have fewer := (inStep.orderly s path).1.length_le.trans (List.length_take_le _ _)
    omega
  · intro small
    refine ⟨fun s reached => ?_, ?_⟩
    · obtain ⟨⟨_, _, _, before, past⟩, c, t, reqs, ⟨before', lock⟩, asked⟩ :=
        (dialogue_of_small small).orderly ⟨[], lockstep_init clock calls⟩ reached
      constructor
      · have count := asked.length_le
        rw [lock.requests, List.length_map] at count
        rw [lock.responses, answers, eachAfter_prefix _ lock.made]
        exact List.take_prefix_take_left count
      · rw [past.results, outcomes, eachAfter_prefix _ past.made]
        exact List.take_prefix _ _
    · obtain ⟨c₁, t₁, u, path, serves⟩ := (lockstep_init clock calls).finishes small _ slaveInit
      have ended : application ⟨[], outcomes calls⟩ = .done none := rfl
      obtain ⟨last, rest⟩ := path_to_rest ended (appifSlave_blocked serves.alive)
      obtain ⟨as, goes⟩ := System.run_of_path (path.trans last)
      refine ⟨⟨⟨⟨[], outcomes calls⟩, .done none⟩, ⟨u, appifSlave clock.now u⟩, [], [],
        calls.map Call.frame, answers clock calls⟩, as.length, rfl, rfl, rfl, rfl, rfl,
        fun bs s other => ?_⟩
      obtain ⟨cs, meets, length⟩ := conversation_commutes.run_meets rest bs goes other
      exact ⟨by omega, System.path_of_run cs (fun _ _ _ => trivial) meets⟩

/-- A clock that stands still. -/
def stillClock : Clock := ⟨fun _ => 7, fun _ _ _ => Nat.le_refl _⟩

/-- A copy of 6 bytes and a paste. -/
def copyAndPaste : List Call :=
  [.copy firstRegion [1, 2, 3, 4, 5, 6] (by decide), .paste firstRegion 6 (by decide)]

private def answeredTwice : List Side :=
  .replicate 2 .client ++ .replicate 6 .server ++ .replicate 3 .client ++ .replicate 4 .server ++
    .replicate 2 .client

/-- The second acknowledgement of the copy is taken for the response to the paste, which returns
nothing. -/
theorem copy_answered_twice : ¬ InStep stillClock copyAndPaste ∧
    ∃ s, (session stillClock copyAndPaste).Reach System.anyStep s ∧
      s.client.state.results = [⟨6, []⟩, ⟨0, []⟩] := by
  have reached : ∃ s, (session stillClock copyAndPaste).Reach System.anyStep s ∧
      s.client.state.results = [⟨6, []⟩, ⟨0, []⟩] :=
    System.reach_of_run (fun s : Session => s.client.state.results) _ answeredTwice
      (fun _ _ _ => trivial) (by decide +kernel)
  refine ⟨fun inStep => ?_, reached⟩
  obtain ⟨s, reach, results⟩ := reached
  have wrong := (inStep.orderly s reach).2
  rw [results] at wrong
  revert wrong
  decide

end Session

end DistributedClipboard.Interfaces.AppSession
