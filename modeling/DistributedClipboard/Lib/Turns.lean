/- module: DistributedClipboard/Lib/Turns
   layer: library
   digest: A loop that is to read one frame a turn. -/

import DistributedClipboard.Lib.Stream
import Mathlib.Data.List.Forall2

set_option autoImplicit false
set_option relaxedAutoImplicit false

namespace DistributedClipboard.Lib.Turns

open DistributedClipboard.Lib.Stream

variable {β σ φ : Type} (body : σ → Proc β (Option σ)) (bytes : φ → List β) (alive : σ → Prop)

def stream (fs : List φ) (more : List β) : List β := (fs.map bytes).flatten ++ more

/-- As long as the loop lives, its turns on the frames end, and what the postcondition says holds of
the state a turn begins in, its frame, what is behind the frame, the state the turn ends in, what it
leaves on the stream and what it writes. -/
def Serves (post : σ → φ → List β → σ → List β → List (List β) → Prop) (more : List β) :
    σ → List φ → Prop
  | _, [] => True
  | s, f :: fs => ∃ t rest outs,
      (body s).exec (bytes f ++ stream bytes fs more) = some (some t, rest, outs) ∧
        post s f (stream bytes fs more) t rest outs ∧ (alive t → Serves post more t fs)

/-- As long as the loop lives, each frame meets its condition in the state its turn begins in. -/
def Meets (condition : σ → φ → Prop) (more : List β) : σ → List φ → Prop
  | _, [] => True
  | s, f :: fs => condition s f ∧ ∀ t rest outs,
      (body s).exec (bytes f ++ stream bytes fs more) = some (some t, rest, outs) →
        alive t → Meets condition more t fs

section Outcome

variable {turn : Proc β (Option σ)} {ins left : List β} {outs : List (List β)} {t : σ}
  {P : σ → List β → List (List β) → Prop}

theorem ends_iff (run : turn.exec ins = some (some t, left, outs)) :
    (∃ t left outs, turn.exec ins = some (some t, left, outs) ∧ P t left outs) ↔
      P t left outs := by
  constructor
  · rintro ⟨t', left', outs', run', holds⟩
    cases run.symm.trans run'
    exact holds
  · intro holds
    exact ⟨t, left, outs, run, holds⟩

theorem not_ends (run : turn.exec ins = none) :
    ¬ ∃ t left outs, turn.exec ins = some (some t, left, outs) ∧ P t left outs := by
  rintro ⟨_, _, _, run', _⟩
  cases run.symm.trans run'

end Outcome

variable {body bytes alive} {post : σ → φ → List β → σ → List β → List (List β) → Prop}
  {condition : σ → φ → Prop} {s t : σ} {fs : List φ} {more rest : List β}

theorem serves_iff (each : ∀ s f rest, alive s → ((∃ t left outs,
      (body s).exec (bytes f ++ rest) = some (some t, left, outs) ∧ post s f rest t left outs) ↔
        condition s f)) (live : alive s) :
    Serves body bytes alive post more s fs ↔ Meets body bytes alive condition more s fs := by
  induction fs generalizing s with
  | nil => exact Iff.rfl
  | cons f fs ih =>
    constructor
    · rintro ⟨t, left, outs, turn, holds, later⟩
      refine ⟨(each s f _ live).mp ⟨t, left, outs, turn, holds⟩, ?_⟩
      intro t' left' outs' turn' live'
      cases turn.symm.trans turn'
      exact (ih live').mp (later live')
    · rintro ⟨meets, later⟩
      obtain ⟨t, left, outs, turn, holds⟩ := (each s f _ live).mpr meets
      exact ⟨t, left, outs, turn, holds, fun live' => (ih live').mpr (later t left outs turn live')⟩

theorem Serves.boundary (serves : Serves body bytes alive post more s fs)
    (whole : ∀ s f rest t left outs, post s f rest t left outs → alive t → left = rest)
    (ends : ∀ s, ¬ alive s → body s = .done none) {n : Nat} (count : n ≤ fs.length)
    (reached : turns body n s (stream bytes fs more) = some (t, rest)) (live : alive t) :
    rest = stream bytes (fs.drop n) more := by
  induction n generalizing s fs with
  | zero =>
    cases reached
    rfl
  | succ n ih =>
    cases fs with
    | nil => cases count
    | cons f fs =>
      obtain ⟨u, left, outs, turn, holds, later⟩ := serves
      have split : stream bytes (f :: fs) more = bytes f ++ stream bytes fs more := by
        rw [stream, stream, List.map_cons, List.flatten_cons, List.append_assoc]
      rw [turns, split, turn] at reached
      by_cases live' : alive u
      · rw [whole s f _ u left outs holds live'] at reached
        exact ih (later live') (Nat.le_of_succ_le_succ count) reached
      · cases n with
        | zero =>
          cases reached
          exact absurd live live'
        | succ n =>
          simp only [turns, ends u live', Proc.exec] at reached
          cases reached

section Inversion

variable {γ κ : Type} {contents : σ → γ} {look : σ → κ} {valid : κ → φ → Prop} {act : γ → φ → γ}
  {n : Nat} {ins : List β}

def seen (body : σ → Proc β (Option σ)) (look : σ → κ) : Nat → σ → List β → List κ
  | 0, _, _ => []
  | n + 1, s, ins =>
    look s :: match (body s).exec ins with
      | some (some t, rest, _) => seen body look n t rest
      | _ => []

theorem stream_cons (f : φ) : stream bytes (f :: fs) more = bytes f ++ stream bytes fs more := by
  rw [stream, stream, List.map_cons, List.flatten_cons, List.append_assoc]

theorem frames_of_turns (each : ∀ s t ins rest outs, (body s).exec ins = some (some t, rest, outs) →
      ∃ f, valid (look s) f ∧ ins = bytes f ++ rest ∧ contents t = act (contents s) f)
    (run : turns body n s ins = some (t, rest)) :
    ∃ fs, List.Forall₂ valid (seen body look n s ins) fs ∧ ins = stream bytes fs rest ∧
      contents t = fs.foldl act (contents s) := by
  induction n generalizing s ins with
  | zero =>
    cases run
    exact ⟨[], .nil, rfl, rfl⟩
  | succ n ih =>
    rw [turns] at run
    split at run
    case h_1 u left outs turn =>
      obtain ⟨f, good, rfl, acts⟩ := each s u ins left outs turn
      obtain ⟨fs, all, rfl, acts'⟩ := ih run
      refine ⟨f :: fs, ?_, (stream_cons f).symm, ?_⟩
      · rw [seen, turn]
        exact .cons good all
      · rw [List.foldl_cons, ← acts, acts']
    case h_2 => cases run

theorem stream_inj (apart : ∀ k f g x y, valid k f → valid k g → bytes f ++ x = bytes g ++ y → f = g)
    {ks : List κ} {gs : List φ} {more' : List β} (good : List.Forall₂ valid ks fs)
    (good' : List.Forall₂ valid ks gs) (same : stream bytes fs more = stream bytes gs more') :
    fs = gs := by
  induction good generalizing gs with
  | nil => exact (List.forall₂_nil_left_iff.mp good').symm
  | cons first _ ih =>
    obtain ⟨g, gs, first', later', rfl⟩ := List.forall₂_cons_left_iff.mp good'
    rw [stream_cons, stream_cons] at same
    obtain rfl := apart _ _ g _ _ first first' same
    rw [ih later' (List.append_cancel_left same)]

theorem length_seen (run : turns body n s ins = some (t, rest)) :
    (seen body look n s ins).length = n := by
  induction n generalizing s ins with
  | zero => rfl
  | succ n ih =>
    rw [turns] at run
    split at run
    case h_1 u left outs turn =>
      rw [seen, turn]
      exact congrArg (· + 1) (ih run)
    case h_2 => cases run

theorem forall₂_const_iff {good : φ → Prop} {ks : List κ} :
    List.Forall₂ (fun _ f => good f) ks fs ↔ fs.length = ks.length ∧ ∀ f ∈ fs, good f := by
  induction ks generalizing fs with
  | nil =>
    rw [List.forall₂_nil_left_iff, List.length_nil, List.length_eq_zero_iff]
    exact ⟨fun none_ => ⟨none_, by simp [none_]⟩, And.left⟩
  | cons k ks ih =>
    cases fs with
    | nil => simp
    | cons f fs =>
      rw [List.forall₂_cons, ih, List.forall_mem_cons, List.length_cons, List.length_cons,
        Nat.add_right_cancel_iff, and_left_comm]

end Inversion

end DistributedClipboard.Lib.Turns
