/- module: DistributedClipboard/Lib/Stream
   layer: library
   digest: Programs over byte streams, and two of them in a loop at the ends of one connection. -/

import DistributedClipboard.Lib.Transition

set_option autoImplicit false
set_option relaxedAutoImplicit false

namespace DistributedClipboard.Lib.Stream

open DistributedClipboard.Lib.Transition

inductive Proc (β α : Type)
  | done (a : α)
  /-- Writes all the bytes. -/
  | send (bytes : List β) (next : Proc β α)
  /-- Reads exactly `n` bytes. -/
  | recv (n : Nat) (next : List β → Proc β α)
  /-- Waits for an event from outside the connection. -/
  | await (next : List β → Proc β α)
  /-- Has gone wrong. -/
  | fault

namespace Proc

variable {β α γ : Type}

def bind : Proc β α → (α → Proc β γ) → Proc β γ
  | done a, f => f a
  | send bytes next, f => send bytes (next.bind f)
  | recv n next, f => recv n fun bs => (next bs).bind f
  | await next, f => await fun bs => (next bs).bind f
  | fault, _ => fault

instance : Monad (Proc β) where
  pure := done
  bind := bind

@[simp] theorem pure_eq (a : α) : (pure a : Proc β α) = done a := rfl

@[simp] theorem done_bind (a : α) (f : α → Proc β γ) : (done a : Proc β α) >>= f = f a := rfl

@[simp] theorem send_bind (bytes : List β) (next : Proc β α) (f : α → Proc β γ) :
    send bytes next >>= f = send bytes (next >>= f) := rfl

/-- With `ins` on its stream the program takes all of it, writes `outs` in so many pieces, and ends
with `a`. -/
inductive Runs : Proc β α → List β → List (List β) → α → Prop
  | done (a : α) : Runs (done a) [] [] a
  | send (bytes : List β) {next : Proc β α} {ins : List β} {outs : List (List β)} {a : α}
      (rest : Runs next ins outs a) : Runs (send bytes next) ins (bytes :: outs) a
  | recv {n : Nat} (bs : List β) (length : bs.length = n) {next : List β → Proc β α}
      {ins : List β} {outs : List (List β)} {a : α} (rest : Runs (next bs) ins outs a) :
      Runs (recv n next) (bs ++ ins) outs a

theorem Runs.bind {p : Proc β α} {f : α → Proc β γ} {ins ins' : List β}
    {outs outs' : List (List β)} {a : α} {c : γ} (first : Runs p ins outs a)
    (second : Runs (f a) ins' outs' c) : Runs (p >>= f) (ins ++ ins') (outs ++ outs') c := by
  induction first with
  | done a => exact second
  | send bytes _ ih => exact .send bytes (ih second)
  | recv bs length _ ih =>
    rw [List.append_assoc]
    exact .recv bs length (ih second)

theorem Runs.bind_silent {p : Proc β α} {f : α → Proc β γ} {ins ins' : List β}
    {outs : List (List β)} {a : α} {c : γ} (first : Runs p ins [] a)
    (second : Runs (f a) ins' outs c) : Runs (p >>= f) (ins ++ ins') outs c := first.bind second

theorem Runs.bind_done {p : Proc β α} {f : α → Proc β γ} {ins : List β} {outs : List (List β)}
    {a : α} {c : γ} (first : Runs p ins outs a) (ends : f a = .done c) :
    Runs (p >>= f) ins outs c := by
  have last : Runs (f a) [] [] c := by
    rw [ends]
    exact .done c
  have runs := first.bind last
  rwa [List.append_nil, List.append_nil] at runs

/-- The program on a stream that holds `ins` and then nothing: its value, what it leaves of the
stream and what it has written, unless it is left waiting. -/
def exec : Proc β α → List β → Option (α × List β × List (List β))
  | done a, ins => some (a, ins, [])
  | send bytes next, ins => (next.exec ins).map fun (a, rest, outs) => (a, rest, bytes :: outs)
  | recv n next, ins => if n ≤ ins.length then (next (ins.take n)).exec (ins.drop n) else none
  | await _, _ => none
  | fault, _ => none

theorem Runs.exec {p : Proc β α} {ins : List β} {outs : List (List β)} {a : α}
    (runs : Runs p ins outs a) (more : List β) : p.exec (ins ++ more) = some (a, more, outs) := by
  induction runs with
  | done a => rfl
  | send bytes _ ih =>
    rw [Proc.exec, ih]
    rfl
  | @recv n bs length _ ins _ _ _ ih =>
    subst length
    have enough : bs.length ≤ (bs ++ (ins ++ more)).length := by
      rw [List.length_append]
      omega
    rw [List.append_assoc, Proc.exec, if_pos enough, List.take_left, List.drop_left]
    exact ih

theorem exec_bind (p : Proc β α) (f : α → Proc β γ) (ins : List β) : (p >>= f).exec ins =
    (p.exec ins).bind fun x => ((f x.1).exec x.2.1).map fun y => (y.1, y.2.1, x.2.2 ++ y.2.2) := by
  induction p generalizing ins with
  | done a =>
    show (f a).exec ins = ((f a).exec ins).map fun y => (y.1, y.2.1, [] ++ y.2.2)
    exact Option.map_id'.symm
  | send bytes next ih =>
    rw [send_bind, exec, exec, ih]
    cases next.exec ins with
    | none => rfl
    | some x =>
      show Option.map _ (Option.map _ _) = Option.map _ _
      rw [Option.map_map]
      rfl
  | recv n next ih =>
    show Proc.exec (recv n fun bs => next bs >>= f) ins = _
    rw [exec, exec]
    by_cases enough : n ≤ ins.length
    · rw [if_pos enough, if_pos enough]
      exact ih _ _
    · rw [if_neg enough, if_neg enough]
      rfl
  | await next => rfl
  | fault => rfl

theorem exec_bind_eq_some {p : Proc β α} {f : α → Proc β γ} {ins rest : List β}
    {outs : List (List β)} {c : γ} (run : (p >>= f).exec ins = some (c, rest, outs)) :
    ∃ a left first second, p.exec ins = some (a, left, first) ∧
      (f a).exec left = some (c, rest, second) ∧ outs = first ++ second := by
  rw [exec_bind] at run
  obtain ⟨⟨a, left, first⟩, begins, run⟩ := Option.bind_eq_some_iff.mp run
  obtain ⟨⟨c', rest', second⟩, ends, same⟩ := Option.map_eq_some_iff.mp run
  cases same
  exact ⟨a, left, first, second, begins, ends, rfl⟩

/-- The program waits for bytes before it does anything else. -/
def Blocked (p : Proc β α) : Prop := ∃ n next, p = recv (n + 1) next

theorem Blocked.bind {p : Proc β α} (waits : p.Blocked) (f : α → Proc β γ) : (p >>= f).Blocked := by
  obtain ⟨n, next, rfl⟩ := waits
  exact ⟨n, _, rfl⟩

/-- The program sends the request, waits, reads the response and ends with `a`. -/
def Asks (p : Proc β α) (request response : List β) (a : α) : Prop :=
  ∃ next, p = send request next ∧ next.Blocked ∧ next.Runs response [] a

theorem Asks.bind_done {p : Proc β α} {f : α → Proc β γ} {request response : List β} {a : α} {c : γ}
    (asks : p.Asks request response a) (ends : f a = done c) :
    (p >>= f).Asks request response c := by
  obtain ⟨next, rfl, waits, reads⟩ := asks
  exact ⟨next >>= f, rfl, waits.bind f, reads.bind_done ends⟩

end Proc

/-- A program in a loop: the state in which the turn under way began, and what is left of it. The
turn ends with the state of the next one, or with `none`. -/
structure Party (β σ : Type) where
  state : σ
  rest : Proc β (Option σ)

variable {β σ τ : Type}

def Party.advance (body : σ → Proc β (Option σ)) (x : Party β σ) (inbox : List β) :
    Option (Party β σ × List β × List (List β)) :=
  match x.rest with
  | .done none => none
  | .done (some s) => some (⟨s, body s⟩, inbox, [])
  | .send bytes next => some ({ x with rest := next }, inbox, [bytes])
  | .recv n next =>
    if n ≤ inbox.length then some ({ x with rest := next (inbox.take n) }, inbox.drop n, [])
    else none
  | .await _ => none
  | .fault => none

theorem Party.advance_append {body : σ → Proc β (Option σ)} {x y : Party β σ}
    {inbox left : List β} {sent : List (List β)} (more : List β)
    (h : x.advance body inbox = some (y, left, sent)) :
    x.advance body (inbox ++ more) = some (y, left ++ more, sent) := by
  unfold Party.advance at h ⊢
  split at h
  · cases h
  · cases h
    rfl
  · cases h
    rfl
  · rename_i n next _
    split at h
    · rename_i enough
      cases h
      rw [if_pos (by rw [List.length_append]; omega), List.take_append_of_le_length enough,
        List.drop_append_of_le_length enough]
    · cases h
  · cases h
  · cases h

section Loop

variable {σ : Type} (body : σ → Proc β (Option σ))

/-- So many turns of a loop on a stream that holds `ins` and then nothing: the state after them and
what is left of the stream, unless the loop ends or is left waiting before. -/
def turns : Nat → σ → List β → Option (σ × List β)
  | 0, s, ins => some (s, ins)
  | n + 1, s, ins =>
    match (body s).exec ins with
    | some (some t, rest, _) => turns n t rest
    | _ => none

theorem turns_succ {body} {s t : σ} {ins : List β} {outs : List (List β)}
    (turn : (body s).Runs ins outs (some t)) (n : Nat) (more : List β) :
    turns body (n + 1) s (ins ++ more) = turns body n t more := by
  rw [turns, turn.exec]

end Loop

structure Conversation (β σ τ : Type) where
  client : Party β σ
  server : Party β τ
  up : List β
  down : List β
  requests : List (List β)
  responses : List (List β)

inductive Side
  | client
  | server
  deriving DecidableEq, Repr

section Conversation

variable (client : σ → Proc β (Option σ)) (server : τ → Proc β (Option τ))

def Conversation.step (s : Conversation β σ τ) : Side → Option (Conversation β σ τ)
  | .client => (s.client.advance client s.down).map fun (x, inbox, sent) =>
    { s with
      client := x, down := inbox, up := s.up ++ sent.flatten, requests := s.requests ++ sent }
  | .server => (s.server.advance server s.up).map fun (x, inbox, sent) =>
    { s with
      server := x, up := inbox, down := s.down ++ sent.flatten, responses := s.responses ++ sent }

/-- Both parties are about to begin their first turn. -/
def Conversation.start (c : σ) (t : τ) : Conversation β σ τ :=
  ⟨⟨c, .done (some c)⟩, ⟨t, .done (some t)⟩, [], [], [], []⟩

def conversation (c : σ) (t : τ) : System (Conversation β σ τ) Side where
  init := .start c t
  step := Conversation.step client server

variable {client server} {c : σ} {t : τ}

theorem conversation_commutes : (conversation client server c t).Commutes := by
  intro s a b x y different left right
  have crossing : ∀ x y, Conversation.step client server s .client = some x →
      Conversation.step client server s .server = some y →
      ∃ v, Conversation.step client server x .server = some v ∧
        Conversation.step client server y .client = some v := by
    intro x y mine yours
    obtain ⟨⟨p, inbox, sent⟩, goes, rfl⟩ := Option.map_eq_some_iff.mp mine
    obtain ⟨⟨q, outbox, answered⟩, goes', rfl⟩ := Option.map_eq_some_iff.mp yours
    simp only [Conversation.step]
    rw [Party.advance_append sent.flatten goes', Party.advance_append answered.flatten goes]
    exact ⟨_, rfl, rfl⟩
  cases a with
  | client =>
    cases b with
    | client => exact absurd rfl different
    | server => exact crossing x y left right
  | server =>
    cases b with
    | server => exact absurd rfl different
    | client =>
      obtain ⟨v, first, second⟩ := crossing y x right left
      exact ⟨v, second, first⟩

end Conversation

section Runs

open Proc (Runs)

variable {body : σ → Proc β (Option σ)} {x y : Party β σ} {ins left more : List β}
  {outs sent : List (List β)} {b : σ}

inductive Party.Acts (body : σ → Proc β (Option σ)) :
    Party β σ → List β → Party β σ → List β → List (List β) → Prop
  | refl (x : Party β σ) (inbox : List β) : Acts body x inbox x inbox []
  | head {x y z : Party β σ} {inbox left left' : List β} {sent sent' : List (List β)}
      (action : x.advance body inbox = some (y, left, sent))
      (rest : Acts body y left z left' sent') : Acts body x inbox z left' (sent ++ sent')

theorem Party.Acts.of_runs {c : σ} {p : Proc β (Option σ)} {a : Option σ} (more : List β)
    (runs : Runs p ins outs a) : Party.Acts body ⟨c, p⟩ (ins ++ more) ⟨c, .done a⟩ more outs := by
  induction runs with
  | done a => exact .refl _ _
  | @send bytes _ _ outs _ _ ih =>
    show Party.Acts body _ _ _ _ ([bytes] ++ outs)
    exact .head rfl ih
  | @recv n bs length _ _ outs _ _ ih =>
    show Party.Acts body _ _ _ _ ([] ++ outs)
    refine .head ?_ ih
    subst length
    rw [Party.advance, List.append_assoc]
    simp

theorem Party.Acts.of_turn {c₀ c : σ} {a : Option σ} (more : List β)
    (runs : Runs (body c) ins outs a) :
    Party.Acts body ⟨c₀, .done (some c)⟩ (ins ++ more) ⟨c, .done a⟩ more outs := by
  show Party.Acts body _ _ _ _ ([] ++ outs)
  exact .head rfl (.of_runs more runs)

theorem Party.advance_of_runs (runs : Runs x.rest ins outs (some b))
    (action : x.advance body (ins ++ more) = some (y, left, sent)) :
    (ins = [] ∧ outs = [] ∧ y = ⟨b, body b⟩ ∧ left = more ∧ sent = []) ∨
    ∃ ins' outs', left = ins' ++ more ∧ outs = sent ++ outs' ∧ y.state = x.state ∧
      Runs y.rest ins' outs' (some b) := by
  unfold Party.advance at action
  generalize x.rest = p at runs action
  cases runs with
  | done =>
    cases action
    exact .inl ⟨rfl, rfl, rfl, rfl, rfl⟩
  | send bytes rest =>
    cases action
    exact .inr ⟨_, _, rfl, rfl, rfl, rest⟩
  | recv bs length rest =>
    subst length
    simp only [List.append_assoc, List.length_append, Nat.le_add_right, if_true, List.take_left,
      List.drop_left, Option.some.injEq, Prod.mk.injEq] at action
    obtain ⟨rfl, rfl, rfl⟩ := action
    exact .inr ⟨_, _, rfl, rfl, rfl, rest⟩

theorem Party.advance_blocked (waits : x.rest.Blocked) : x.advance body [] = none := by
  obtain ⟨n, next, rest⟩ := waits
  rw [Party.advance, rest]
  simp

end Runs

section Paths

variable {client : σ → Proc β (Option σ)} {server : τ → Proc β (Option τ)} {c₁ : σ} {t₁ : τ}

theorem path_of_client {x : Party β σ} {down : List β} {sent : List (List β)}
    {s : Conversation β σ τ} (acts : s.client.Acts client s.down x down sent) :
    (conversation client server c₁ t₁).Path System.anyStep s { s with
      client := x, down := down, up := s.up ++ sent.flatten, requests := s.requests ++ sent } := by
  generalize from_ : s.client = x₀ at acts
  generalize box : s.down = inbox at acts
  induction acts generalizing s with
  | refl x inbox =>
    subst from_ box
    simp only [List.flatten_nil, List.append_nil]
    exact .refl s
  | @head x y z inbox left left' sent sent' action _ ih =>
    subst from_ box
    have edge : (conversation client server c₁ t₁).step s .client = some { s with
        client := y, down := left, up := s.up ++ sent.flatten, requests := s.requests ++ sent } := by
      show Option.map _ (s.client.advance client s.down) = _
      rw [action]
      rfl
    rw [List.flatten_append, ← List.append_assoc, ← List.append_assoc]
    exact .head trivial edge (ih rfl rfl)

theorem path_of_server {y : Party β τ} {up : List β} {sent : List (List β)}
    {s : Conversation β σ τ} (acts : s.server.Acts server s.up y up sent) :
    (conversation client server c₁ t₁).Path System.anyStep s { s with
      server := y, up := up, down := s.down ++ sent.flatten, responses := s.responses ++ sent } := by
  generalize from_ : s.server = y₀ at acts
  generalize box : s.up = inbox at acts
  induction acts generalizing s with
  | refl y inbox =>
    subst from_ box
    simp only [List.flatten_nil, List.append_nil]
    exact .refl s
  | @head x y z inbox left left' sent sent' action _ ih =>
    subst from_ box
    have edge : (conversation client server c₁ t₁).step s .server = some { s with
        server := y, up := left, down := s.down ++ sent.flatten
        responses := s.responses ++ sent } := by
      show Option.map _ (s.server.advance server s.up) = _
      rw [action]
      rfl
    rw [List.flatten_append, ← List.append_assoc, ← List.append_assoc]
    exact .head trivial edge (ih rfl rfl)

def Conversation.between (c₀ c : σ) (t₀ t : τ) (requests responses : List (List β)) :
    Conversation β σ τ :=
  ⟨⟨c₀, .done (some c)⟩, ⟨t₀, .done (some t)⟩, [], [], requests, responses⟩

variable {c₀ c c' : σ} {t₀ t t' : τ} {request response : List β} {next : Proc β (Option σ)}
  {requests responses outs : List (List β)}

theorem path_of_request (asks : client c = .send request next)
    (answers : (server t).Runs request outs (some t')) :
    (conversation client server c₁ t₁).Path System.anyStep
      (.between c₀ c t₀ t requests responses)
      ⟨⟨c, next⟩, ⟨t, .done (some t')⟩, [], outs.flatten, requests ++ [request],
        responses ++ outs⟩ := by
  have sends : (conversation client server c₁ t₁).Path System.anyStep
      (.between c₀ c t₀ t requests responses)
      ⟨⟨c, next⟩, ⟨t₀, .done (some t)⟩, request, [], requests ++ [request], responses⟩ := by
    refine .head (a := .client) trivial rfl (.single (a := .client) trivial ?_)
    simp [conversation, Conversation.step, Conversation.between, Party.advance, asks]
  refine sends.trans ?_
  have acts : Party.Acts server ⟨t₀, .done (some t)⟩ (request ++ []) ⟨t, .done (some t')⟩ [] outs :=
    .of_turn [] answers
  rw [List.append_nil] at acts
  exact path_of_server acts

/-- One request and its response: what the client does in its turn from `c` and the server in its
turn from `t`. -/
structure Exchange (client : σ → Proc β (Option σ)) (server : τ → Proc β (Option τ))
    (c : σ) (t : τ) (request response : List β) (c' : σ) (t' : τ) : Prop where
  asks : (client c).Asks request response (some c')
  answers : (server t).Runs request [response] (some t')

theorem path_of_exchange (exchange : Exchange client server c t request response c' t') :
    (conversation client server c₁ t₁).Path System.anyStep
      (.between c₀ c t₀ t requests responses)
      (.between c c' t t' (requests ++ [request]) (responses ++ [response])) := by
  obtain ⟨next, asks, _, reads⟩ := exchange.asks
  refine (path_of_request asks exchange.answers).trans ?_
  have acts : Party.Acts client ⟨c, next⟩ (response ++ []) ⟨c, .done (some c')⟩ [] [] :=
    .of_runs [] reads
  have path : (conversation client server c₁ t₁).Path System.anyStep _ _ := path_of_client (s := ⟨
    ⟨c, next⟩, ⟨t, .done (some t')⟩, [], _, requests ++ [request], responses ++ [response]⟩) acts
  simpa only [Conversation.between, List.flatten_nil, List.append_nil, List.flatten_cons] using path

theorem path_to_rest (ended : client c = .done none) (waits : (server t).Blocked) :
    (conversation client server c₁ t₁).Path System.anyStep
        (.between c₀ c t₀ t requests responses)
        ⟨⟨c, client c⟩, ⟨t, server t⟩, [], [], requests, responses⟩ ∧
      (conversation client server c₁ t₁).AtRest
        ⟨⟨c, client c⟩, ⟨t, server t⟩, [], [], requests, responses⟩ := by
  constructor
  · refine .head (a := .client) trivial rfl (.single (a := .server) trivial ?_)
    simp [conversation, Conversation.step, Conversation.between, Party.advance]
  · intro a
    cases a with
    | client => simp [conversation, Conversation.step, Party.advance, ended]
    | server =>
      show Option.map _ (Party.advance server ⟨t, server t⟩ []) = none
      rw [Party.advance_blocked waits]
      rfl

end Paths

section Dialogue

variable {client : σ → Proc β (Option σ)} {server : τ → Proc β (Option τ)}
  {R : σ → τ → List (List β) → List (List β) → Prop}

/-- The parties exchange one request and one response at a time. `R` relates the states in which
they begin their turns and what they have written by then. -/
structure Dialogue (client : σ → Proc β (Option σ)) (server : τ → Proc β (Option τ))
    (R : σ → τ → List (List β) → List (List β) → Prop) : Prop where
  waits : ∀ c t reqs resps, R c t reqs resps → (server t).Blocked
  continues : ∀ c t reqs resps, R c t reqs resps → client c = .done none ∨
    ∃ request response c' t', Exchange client server c t request response c' t' ∧
      R c' t' (reqs ++ [request]) (resps ++ [response])

def Past (R : σ → τ → List (List β) → List (List β) → Prop) (c : σ) : Prop :=
  ∃ t reqs resps, R c t reqs resps

/-- The server has no more to write before it is at `t`. -/
def Settles (server : τ → Proc β (Option τ)) (y : Party β τ) (up : List β) (t : τ) : Prop :=
  y.rest.Runs up [] (some t) ∨ up = [] ∧ y.rest = server t

inductive Phase (client : σ → Proc β (Option σ)) (server : τ → Proc β (Option τ))
    (R : σ → τ → List (List β) → List (List β) → Prop) : Conversation β σ τ → Prop
  | ready {c : σ} {t : τ} {x : Party β σ} {y : Party β τ} {up : List β}
      {reqs resps : List (List β)} (related : R c t reqs resps) (past : Past R x.state)
      (begins : x.rest = .done (some c) ∨ x = ⟨c, client c⟩) (settles : Settles server y up t) :
      Phase client server R ⟨x, y, up, [], reqs, resps⟩
  | asked {c c' : σ} {t t' : τ} {y : Party β τ} {up request response : List β}
      {next : Proc β (Option σ)} {reqs resps : List (List β)} (related : R c t reqs resps)
      (later : R c' t' (reqs ++ [request]) (resps ++ [response]))
      (waits : next.Blocked) (reads : next.Runs response [] (some c'))
      (turn : (server t).Runs request [response] (some t'))
      (answers : (∃ before, up = before ++ request ∧ y.rest.Runs before [] (some t)) ∨
        y.rest.Runs up [response] (some t')) :
      Phase client server R ⟨⟨c, next⟩, y, up, [], reqs ++ [request], resps⟩
  | answered {c' : σ} {t' : τ} {x : Party β σ} {y : Party β τ} {up down : List β}
      {reqs resps : List (List β)} (past : Past R x.state) (later : R c' t' reqs resps)
      (reads : x.rest.Runs down [] (some c')) (settles : Settles server y up t') :
      Phase client server R ⟨x, y, up, down, reqs, resps⟩

theorem Phase.client_step (dialogue : Dialogue client server R) {s s' : Conversation β σ τ}
    (phase : Phase client server R s) (edge : s.step client server .client = some s') :
    Phase client server R s' := by
  obtain ⟨⟨x', left, sent⟩, action, rfl⟩ := Option.map_eq_some_iff.mp edge
  cases phase with
  | @ready c t x y up reqs resps related past begins settles =>
    rcases begins with head | rfl
    · -- the next turn begins
      rw [Party.advance, head] at action
      cases action
      simp only [List.flatten_nil, List.append_nil]
      exact .ready related ⟨_, _, _, related⟩ (.inr rfl) settles
    · rcases dialogue.continues c t reqs resps related with ended | goesOn
      · rw [Party.advance, ended] at action
        cases action
      · obtain ⟨request, response, c', t', ⟨⟨next, asks, waits, reads⟩, turn⟩, later⟩ := goesOn
        rw [Party.advance, asks] at action
        cases action
        simp only [List.flatten_singleton]
        refine .asked related later waits reads turn ?_
        rcases settles with runs | ⟨rfl, rest⟩
        · exact .inl ⟨up, rfl, runs⟩
        · rw [rest]
          exact .inr turn
  | asked _ _ waits =>
    rw [Party.advance_blocked waits] at action
    cases action
  | @answered c' t' x y up down reqs resps past later reads settles =>
    rw [← List.append_nil down] at action
    rcases Party.advance_of_runs reads action with
      ⟨_, _, rfl, rfl, rfl⟩ | ⟨ins', outs', rfl, none_, same, reads'⟩
    · simp only [List.flatten_nil, List.append_nil]
      exact .ready later ⟨_, _, _, later⟩ (.inr rfl) settles
    · obtain ⟨rfl, rfl⟩ := List.append_eq_nil_iff.mp none_.symm
      simp only [List.flatten_nil, List.append_nil]
      exact .answered (same ▸ past) later reads' settles

theorem Settles.step {y y' : Party β τ} {up left : List β} {sent : List (List β)} {t : τ}
    (settles : Settles server y up t) (waits : (server t).Blocked)
    (action : y.advance server up = some (y', left, sent)) :
    sent = [] ∧ Settles server y' left t := by
  rcases settles with runs | ⟨rfl, rest⟩
  · rw [← List.append_nil up] at action
    rcases Party.advance_of_runs runs action with
      ⟨_, _, rfl, rfl, rfl⟩ | ⟨ins', outs', rfl, none_, _, runs'⟩
    · exact ⟨rfl, .inr ⟨rfl, rfl⟩⟩
    · obtain ⟨rfl, rfl⟩ := List.append_eq_nil_iff.mp none_.symm
      rw [List.append_nil]
      exact ⟨rfl, .inl runs'⟩
  · rw [Party.advance_blocked (rest ▸ waits)] at action
    cases action

theorem Phase.server_step (dialogue : Dialogue client server R) {s s' : Conversation β σ τ}
    (phase : Phase client server R s) (edge : s.step client server .server = some s') :
    Phase client server R s' := by
  obtain ⟨⟨y', left, sent⟩, action, rfl⟩ := Option.map_eq_some_iff.mp edge
  cases phase with
  | ready related past begins settles =>
    obtain ⟨rfl, settles'⟩ := settles.step (dialogue.waits _ _ _ _ related) action
    simp only [List.flatten_nil, List.append_nil]
    exact .ready related past begins settles'
  | @asked c c' t t' y up request response next reqs resps related later waits reads turn answers =>
    rcases answers with ⟨before, rfl, runs⟩ | runs
    · rcases Party.advance_of_runs runs action with
        ⟨_, _, rfl, rfl, rfl⟩ | ⟨ins', outs', rfl, none_, _, runs'⟩
      · simp only [List.flatten_nil, List.append_nil]
        exact .asked related later waits reads turn (.inr turn)
      · obtain ⟨rfl, rfl⟩ := List.append_eq_nil_iff.mp none_.symm
        simp only [List.flatten_nil, List.append_nil]
        exact .asked related later waits reads turn (.inl ⟨ins', rfl, runs'⟩)
    · rw [← List.append_nil up] at action
      rcases Party.advance_of_runs runs action with
        ⟨_, none_, _⟩ | ⟨ins', outs', rfl, one, _, runs'⟩
      · cases none_
      · rcases List.append_eq_singleton_iff.mp one.symm with ⟨rfl, rfl⟩ | ⟨rfl, rfl⟩
        · simp only [List.flatten_nil, List.append_nil]
          exact .asked related later waits reads turn (.inr runs')
        · simp only [List.flatten_singleton, List.append_nil, List.nil_append]
          exact .answered ⟨_, _, _, related⟩ later reads (.inl runs')
  | answered past later reads settles =>
    obtain ⟨rfl, settles'⟩ := settles.step (dialogue.waits _ _ _ _ later) action
    simp only [List.flatten_nil, List.append_nil]
    exact .answered past later reads settles'

theorem Dialogue.orderly (dialogue : Dialogue client server R) {c₁ : σ} {t₁ : τ}
    (start : R c₁ t₁ [] []) {s : Conversation β σ τ}
    (h : (conversation client server c₁ t₁).Reach System.anyStep s) :
    Past R s.client.state ∧ ∃ c t reqs, R c t reqs s.responses ∧ reqs <+: s.requests := by
  have phase : Phase client server R s := by
    refine h.invariant (I := Phase client server R) ?_ ?_
    · exact .ready start ⟨_, _, _, start⟩ (.inl rfl) (.inl (.done _))
    · intro s a s' phase _ edge
      cases a with
      | client => exact phase.client_step dialogue edge
      | server => exact phase.server_step dialogue edge
  cases phase with
  | ready related past => exact ⟨past, _, _, _, related, List.prefix_refl _⟩
  | asked related => exact ⟨⟨_, _, _, related⟩, _, _, _, related, List.prefix_append _ _⟩
  | answered past later => exact ⟨past, _, _, _, later, List.prefix_refl _⟩

end Dialogue

end DistributedClipboard.Lib.Stream
