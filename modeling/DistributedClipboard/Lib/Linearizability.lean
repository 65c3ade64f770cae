/- module: DistributedClipboard/Lib/Linearizability
   layer: library
   digest: Histories with linearization points, and the total order of the calls they give. -/

import Mathlib.Data.List.Basic
import Mathlib.Data.List.Nodup
import Mathlib.Logic.Function.Basic

set_option autoImplicit false
set_option relaxedAutoImplicit false

namespace DistributedClipboard.Lib.Linearizability

universe u v w x

structure Spec (S : Type u) (Op : Type v) (Res : Type w) where
  init : S
  apply : S → Op → Res × S

/-- Calls carry their own numbers. `point` is where a call takes effect. -/
inductive Event (Op : Type v) (Res : Type w)
  | invoke (call : Nat) (op : Op)
  | point (call : Nat) (op : Op) (res : Res)
  | respond (call : Nat) (res : Res)
  deriving DecidableEq, Repr

structure Entry (Op : Type v) (Res : Type w) where
  call : Nat
  op : Op
  res : Res

variable {S : Type u} {Op : Type v} {Res : Type w}

def Legal (spec : Spec S Op Res) : S → List (Entry Op Res) → Prop
  | _, [] => True
  | s, e :: es => (spec.apply s e.op).1 = e.res ∧ Legal spec (spec.apply s e.op).2 es

def finalState (spec : Spec S Op Res) (s : S) (es : List (Entry Op Res)) : S :=
  es.foldl (fun s e => (spec.apply s e.op).2) s

def Event.entry? : Event Op Res → Option (Entry Op Res)
  | .point c o r => some ⟨c, o, r⟩
  | _ => none

def points (h : List (Event Op Res)) : List (Entry Op Res) := h.filterMap Event.entry?

/-- There is one total order of calls that the sequential object could have run: it has every call
that returned, with the result it returned, and never contradicts the order of the history. -/
def Linearizable (spec : Spec S Op Res) (h : List (Event Op Res)) : Prop :=
  ∃ order : List (Entry Op Res),
    (order.map Entry.call).Nodup ∧
    Legal spec spec.init order ∧
    (∀ c r, Event.respond c r ∈ h → ∃ o, (⟨c, o, r⟩ : Entry Op Res) ∈ order) ∧
    (∀ e ∈ order, Event.invoke e.call e.op ∈ h) ∧
    (∀ a ∈ order, ∀ b ∈ order, ∀ r,
      [Event.respond a.call r, Event.invoke b.call b.op].Sublist h → [a, b].Sublist order)

theorem legal_append (spec : Spec S Op Res) (s : S) (es : List (Entry Op Res)) (e : Entry Op Res) :
    Legal spec s (es ++ [e]) ↔
      Legal spec s es ∧ (spec.apply (finalState spec s es) e.op).1 = e.res := by
  induction es generalizing s with
  | nil => simp [Legal, finalState]
  | cons d es ih =>
    simp only [List.cons_append, Legal, ih, and_assoc]
    rfl

theorem finalState_append (spec : Spec S Op Res) (s : S) (es : List (Entry Op Res))
    (e : Entry Op Res) :
    finalState spec s (es ++ [e]) = (spec.apply (finalState spec s es) e.op).2 := by
  simp [finalState]

@[simp] theorem points_append_invoke (h : List (Event Op Res)) (c : Nat) (o : Op) :
    points (h ++ [.invoke c o]) = points h := by simp [points, Event.entry?]

@[simp] theorem points_append_respond (h : List (Event Op Res)) (c : Nat) (r : Res) :
    points (h ++ [.respond c r]) = points h := by simp [points, Event.entry?]

@[simp] theorem points_append_point (h : List (Event Op Res)) (c : Nat) (o : Op) (r : Res) :
    points (h ++ [.point c o r]) = points h ++ [⟨c, o, r⟩] := by simp [points, Event.entry?]

theorem mem_points {h : List (Event Op Res)} {e : Entry Op Res} :
    e ∈ points h ↔ Event.point e.call e.op e.res ∈ h := by
  simp only [points, List.mem_filterMap]
  constructor
  · rintro ⟨x, member, eq⟩
    cases x <;> simp only [Event.entry?, reduceCtorEq, Option.some.injEq] at eq
    subst eq
    exact member
  · intro member
    exact ⟨_, member, rfl⟩

theorem before_trans {α : Type x} {l : List α} (nodup : l.Nodup) {a b c : α}
    (hab : [a, b].Sublist l) (hbc : [b, c].Sublist l) : [a, c].Sublist l := by
  induction l with
  | nil => simp at hab
  | cons d l ih =>
    obtain ⟨fresh, nodup⟩ := List.nodup_cons.mp nodup
    rcases List.sublist_cons_iff.mp hab with hab | ⟨r, eq, hab⟩
    · rcases List.sublist_cons_iff.mp hbc with hbc | ⟨r, eq, _⟩
      · exact (ih nodup hab hbc).cons d
      · rw [← (List.cons.inj eq).1] at fresh
        exact absurd (hab.subset (by simp)) fresh
    · obtain ⟨rfl, rfl⟩ := List.cons.inj eq
      have member : b ∈ l := hab.subset (by simp)
      have last : c ∈ l := by
        rcases List.sublist_cons_iff.mp hbc with hbc | ⟨r, eq, _⟩
        · exact hbc.subset (by simp)
        · obtain ⟨rfl, rfl⟩ := List.cons.inj eq
          exact absurd member fresh
      exact (List.singleton_sublist.mpr last).cons_cons a

structure Witnessed (spec : Spec S Op Res) (h : List (Event Op Res)) : Prop where
  nodup : h.Nodup
  calls : ((points h).map Entry.call).Nodup
  legal : Legal spec spec.init (points h)
  invoked : ∀ c o r, Event.point c o r ∈ h →
    [Event.invoke c o, Event.point c o r].Sublist h
  decided : ∀ c r, Event.respond c r ∈ h → ∃ o, [Event.point c o r, Event.respond c r].Sublist h

private theorem entry_unique {es : List (Entry Op Res)} (nodup : (es.map Entry.call).Nodup)
    {a b : Entry Op Res} (ha : a ∈ es) (hb : b ∈ es) (same : a.call = b.call) : a = b :=
  List.inj_on_of_nodup_map nodup ha hb same

theorem Witnessed.linearizable {spec : Spec S Op Res} {h : List (Event Op Res)}
    (hw : Witnessed spec h) : Linearizable spec h := by
  refine ⟨points h, hw.calls, hw.legal, ?_, ?_, ?_⟩
  · intro c r member
    obtain ⟨o, pair⟩ := hw.decided c r member
    exact ⟨o, mem_points.mpr (pair.subset (by simp))⟩
  · intro e member
    exact (hw.invoked _ _ _ (mem_points.mp member)).subset (by simp)
  · intro a ha b hb r apart
    obtain ⟨o, before⟩ := hw.decided a.call r (apart.subset (by simp))
    have same : (⟨a.call, o, r⟩ : Entry Op Res) = a :=
      entry_unique hw.calls (mem_points.mpr (before.subset (by simp))) ha rfl
    have after := hw.invoked _ _ _ (mem_points.mp hb)
    have chain := before_trans hw.nodup (before_trans hw.nodup before apart) after
    have mapped := chain.filterMap Event.entry?
    simpa [Event.entry?, same, points] using mapped

section Recorder

inductive Phase (Op : Type v) (Res : Type w)
  | idle
  | called (call : Nat) (op : Op)
  | decided (call : Nat) (op : Op) (res : Res)

def Phase.call? : Phase Op Res → Option Nat
  | .idle => none
  | .called c _ | .decided c _ _ => some c

def Event.call : Event Op Res → Nat
  | .invoke c _ | .point c _ _ | .respond c _ => c

def Phase.Agrees (h : List (Event Op Res)) : Phase Op Res → Prop
  | .idle => True
  | .called c o => Event.invoke c o ∈ h ∧ ∀ o' r, Event.point c o' r ∉ h
  | .decided c o r => Event.point c o r ∈ h ∧ ∀ r', Event.respond c r' ∉ h

private theorem Phase.Agrees.append {h : List (Event Op Res)} {p : Phase Op Res} (agree : p.Agrees h)
    {e : Event Op Res} (other : p.call? ≠ some e.call) : p.Agrees (h ++ [e]) := by
  cases p with
  | idle => trivial
  | called c o =>
    refine ⟨List.mem_append_left _ agree.1, fun o' r member => ?_⟩
    rcases List.mem_append.mp member with member | member
    · exact agree.2 o' r member
    · obtain rfl := List.mem_singleton.mp member
      exact other rfl
  | decided c o r =>
    refine ⟨List.mem_append_left _ agree.1, fun r' member => ?_⟩
    rcases List.mem_append.mp member with member | member
    · exact agree.2 r' member
    · obtain rfl := List.mem_singleton.mp member
      exact other rfl

private theorem nodup_append {α : Type x} {l : List α} (h : l.Nodup) {a : α} (fresh : a ∉ l) :
    (l ++ [a]).Nodup := by
  refine List.nodup_append.mpr ⟨h, by simp, fun b hb c hc eq => ?_⟩
  obtain rfl := List.mem_singleton.mp hc
  exact fresh (eq ▸ hb)

private theorem pair_append {α : Type x} {l : List α} {a : α} (member : a ∈ l) (b : α) :
    [a, b].Sublist (l ++ [b]) :=
  (List.singleton_sublist.mpr member).append (List.Sublist.refl [b])

structure Recorder (T : Type x) (Op : Type v) (Res : Type w) where
  calls : Nat
  phase : T → Phase Op Res
  hist : List (Event Op Res)

variable {T : Type x} [DecidableEq T]

namespace Recorder

def empty : Recorder T Op Res := ⟨0, fun _ => .idle, []⟩

def invoke (k : Recorder T Op Res) (t : T) (o : Op) : Recorder T Op Res :=
  ⟨k.calls + 1, Function.update k.phase t (.called k.calls o), k.hist ++ [.invoke k.calls o]⟩

/-- The call of `t`, if one is being recorded, takes effect with this result. -/
def decide (k : Recorder T Op Res) (t : T) (r : Res) : Recorder T Op Res :=
  match k.phase t with
  | .called c o => ⟨k.calls, Function.update k.phase t (.decided c o r), k.hist ++ [.point c o r]⟩
  | _ => k

def respond (k : Recorder T Op Res) (t : T) (r : Res) : Recorder T Op Res :=
  match (k.phase t).call? with
  | some c => ⟨k.calls, Function.update k.phase t .idle, k.hist ++ [.respond c r]⟩
  | none => k

/-- The sequential object's state at the last point. -/
def state (spec : Spec S Op Res) (k : Recorder T Op Res) : S :=
  finalState spec spec.init (points k.hist)

structure Valid (spec : Spec S Op Res) (k : Recorder T Op Res) : Prop where
  witnessed : Witnessed spec k.hist
  fresh : ∀ e ∈ k.hist, e.call < k.calls
  agrees : ∀ t, (k.phase t).Agrees k.hist
  apart : ∀ t u c, (k.phase t).call? = some c → (k.phase u).call? = some c → t = u

variable {spec : Spec S Op Res} {k : Recorder T Op Res} {t : T}

omit [DecidableEq T] in
private theorem agrees_bound (h : k.Valid spec) {c : Nat} (mine : (k.phase t).call? = some c) :
    c < k.calls := by
  have agree := h.agrees t
  cases hp : k.phase t with
  | idle => simp [hp, Phase.call?] at mine
  | called c' o =>
    rw [hp] at agree mine
    obtain rfl : c' = c := by simpa [Phase.call?] using mine
    exact h.fresh _ agree.1
  | decided c' o r =>
    rw [hp] at agree mine
    obtain rfl : c' = c := by simpa [Phase.call?] using mine
    exact h.fresh _ agree.1

omit [DecidableEq T] in
theorem valid_empty : (empty : Recorder T Op Res).Valid spec where
  witnessed := ⟨List.nodup_nil, List.nodup_nil, trivial, by simp [empty], by simp [empty]⟩
  fresh := by simp [empty]
  agrees _ := trivial
  apart _ _ _ h := by simp [empty, Phase.call?] at h

private theorem others_apart {p : Phase Op Res} (h : k.Valid spec)
    (mine : ∀ c, p.call? = some c → (k.phase t).call? = some c ∨ c = k.calls) :
    ∀ u v c, ((Function.update k.phase t p) u).call? = some c →
      ((Function.update k.phase t p) v).call? = some c → u = v := by
  intro u v c hu hv
  by_cases eu : u = t <;> by_cases ev : v = t
  · exact eu.trans ev.symm
  · subst eu
    rw [Function.update_self] at hu
    rw [Function.update_of_ne ev] at hv
    rcases mine c hu with same | rfl
    · exact h.apart _ _ c same hv
    · exact absurd (agrees_bound h hv) (Nat.lt_irrefl _)
  · subst ev
    rw [Function.update_self] at hv
    rw [Function.update_of_ne eu] at hu
    rcases mine c hv with same | rfl
    · exact h.apart _ _ c hu same
    · exact absurd (agrees_bound h hu) (Nat.lt_irrefl _)
  · rw [Function.update_of_ne eu] at hu
    rw [Function.update_of_ne ev] at hv
    exact h.apart _ _ c hu hv

theorem Valid.invoke (h : k.Valid spec) (t : T) (o : Op) : (k.invoke t o).Valid spec where
  witnessed := by
    obtain ⟨nodup, calls, legal, invoked, decided⟩ := h.witnessed
    refine ⟨nodup_append nodup fun member => absurd (h.fresh _ member) (Nat.lt_irrefl _), ?_, ?_, ?_, ?_⟩
    · simpa [Recorder.invoke] using calls
    · simpa [Recorder.invoke] using legal
    · intro c o' r member
      simp only [Recorder.invoke, List.mem_append, List.mem_singleton, reduceCtorEq, or_false]
        at member
      exact (invoked c o' r member).trans (List.sublist_append_left _ _)
    · intro c r member
      simp only [Recorder.invoke, List.mem_append, List.mem_singleton, reduceCtorEq, or_false]
        at member
      obtain ⟨o', before⟩ := decided c r member
      exact ⟨o', before.trans (List.sublist_append_left _ _)⟩
  fresh e member := by
    rcases List.mem_append.mp member with member | member
    · exact Nat.lt_succ_of_lt (h.fresh e member)
    · obtain rfl := List.mem_singleton.mp member
      exact Nat.lt_succ_self _
  agrees u := by
    by_cases eq : u = t
    · subst eq
      simp only [Recorder.invoke, Function.update_self]
      refine ⟨by simp, fun o' r member => ?_⟩
      simp only [List.mem_append, List.mem_singleton, reduceCtorEq, or_false] at member
      exact absurd (h.fresh _ member) (Nat.lt_irrefl _)
    · simp only [Recorder.invoke, Function.update_of_ne eq]
      refine (h.agrees u).append fun mine => ?_
      exact absurd (agrees_bound h mine) (Nat.lt_irrefl _)
  apart := others_apart h fun c hc => by
    right
    simpa [Phase.call?, eq_comm] using hc

theorem Valid.decide (h : k.Valid spec) (t : T) {r : Res}
    (right : ∀ c o, k.phase t = .called c o → (spec.apply (k.state spec) o).1 = r) :
    (k.decide t r).Valid spec := by
  unfold Recorder.decide
  split
  · rename_i c o hp
    have agree := h.agrees t
    rw [hp] at agree
    obtain ⟨nodup, calls, legal, invoked, decided⟩ := h.witnessed
    refine ⟨⟨nodup_append nodup (agree.2 o r), ?_, ?_, ?_, ?_⟩, ?_, ?_, ?_⟩
    · rw [points_append_point, List.map_append]
      refine nodup_append calls fun member => ?_
      obtain ⟨e, he, same⟩ := List.mem_map.mp member
      obtain ⟨c', o', r'⟩ := e
      obtain rfl : c' = c := same
      exact agree.2 o' r' (mem_points.mp he)
    · rw [points_append_point, legal_append]
      exact ⟨legal, right c o hp⟩
    · intro c' o' r' member
      rcases List.mem_append.mp member with member | member
      · exact (invoked c' o' r' member).trans (List.sublist_append_left _ _)
      · cases List.mem_singleton.mp member
        exact pair_append agree.1 _
    · intro c' r' member
      simp only [List.mem_append, List.mem_singleton, reduceCtorEq, or_false] at member
      obtain ⟨o', before⟩ := decided c' r' member
      exact ⟨o', before.trans (List.sublist_append_left _ _)⟩
    · intro e member
      rcases List.mem_append.mp member with member | member
      · exact h.fresh e member
      · obtain rfl := List.mem_singleton.mp member
        exact agrees_bound h (by rw [hp]; rfl)
    · intro u
      by_cases eq : u = t
      · subst eq
        simp only [Function.update_self]
        refine ⟨by simp, fun r' member => ?_⟩
        simp only [List.mem_append, List.mem_singleton, reduceCtorEq, or_false] at member
        obtain ⟨o', before⟩ := decided c r' member
        exact agree.2 o' r' (before.subset (by simp))
      · simp only [Function.update_of_ne eq]
        refine (h.agrees u).append fun mine => eq ?_
        exact h.apart u t c mine (by rw [hp]; rfl)
    · exact others_apart h fun c' hc => .inl (by rw [hp]; exact hc)
  · exact h

theorem Valid.respond (h : k.Valid spec) {c : Nat} {o : Op} {r : Res}
    (hp : k.phase t = .decided c o r) : (k.respond t r).Valid spec := by
  have agree := h.agrees t
  rw [hp] at agree
  obtain ⟨nodup, calls, legal, invoked, decided⟩ := h.witnessed
  simp only [Recorder.respond, hp, Phase.call?]
  refine ⟨⟨nodup_append nodup (agree.2 r), ?_, ?_, ?_, ?_⟩, ?_, ?_, ?_⟩
  · simpa using calls
  · simpa using legal
  · intro c' o' r' member
    simp only [List.mem_append, List.mem_singleton, reduceCtorEq, or_false] at member
    exact (invoked c' o' r' member).trans (List.sublist_append_left _ _)
  · intro c' r' member
    rcases List.mem_append.mp member with member | member
    · obtain ⟨o', before⟩ := decided c' r' member
      exact ⟨o', before.trans (List.sublist_append_left _ _)⟩
    · cases List.mem_singleton.mp member
      exact ⟨o, pair_append agree.1 _⟩
  · intro e member
    rcases List.mem_append.mp member with member | member
    · exact h.fresh e member
    · obtain rfl := List.mem_singleton.mp member
      exact agrees_bound h (by rw [hp]; rfl)
  · intro u
    by_cases eq : u = t
    · subst eq
      simp only [Function.update_self]
      trivial
    · simp only [Function.update_of_ne eq]
      refine (h.agrees u).append fun mine => eq ?_
      exact h.apart u t c mine (by rw [hp]; rfl)
  · exact others_apart h fun c' hc => by simp [Phase.call?] at hc

omit [DecidableEq T] in
theorem Valid.linearizable (h : k.Valid spec) : Linearizable spec k.hist := h.witnessed.linearizable

@[simp] theorem state_invoke (k : Recorder T Op Res) (t : T) (o : Op) :
    (k.invoke t o).state spec = k.state spec := by simp [state, invoke]

@[simp] theorem state_respond (k : Recorder T Op Res) (t : T) (r : Res) :
    (k.respond t r).state spec = k.state spec := by
  unfold respond
  split <;> simp [state]

theorem state_decide {c : Nat} {o : Op} (hp : k.phase t = .called c o) (r : Res) :
    (k.decide t r).state spec = (spec.apply (k.state spec) o).2 := by
  simp [state, Recorder.decide, hp, finalState_append]

theorem phase_invoke (k : Recorder T Op Res) (t : T) (o : Op) :
    (k.invoke t o).phase = Function.update k.phase t (.called k.calls o) := rfl

theorem phase_decide {c : Nat} {o : Op} (hp : k.phase t = .called c o) (r : Res) :
    (k.decide t r).phase = Function.update k.phase t (.decided c o r) := by
  simp [Recorder.decide, hp]

theorem phase_respond {c : Nat} {o : Op} {r : Res} (hp : k.phase t = .decided c o r) :
    (k.respond t r).phase = Function.update k.phase t .idle := by
  simp [Recorder.respond, hp, Phase.call?]

end Recorder

end Recorder

end DistributedClipboard.Lib.Linearizability
