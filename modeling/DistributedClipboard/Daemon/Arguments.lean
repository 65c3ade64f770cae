/- module: DistributedClipboard/Daemon/Arguments
   source: src/src/clipboard.c
   layer: model
   digest: What `main` finds in its arguments, and which clipboard it becomes by them. -/

import DistributedClipboard.Daemon.MainSteps
import Mathlib.Data.List.TakeWhile

set_option autoImplicit false
set_option relaxedAutoImplicit false

namespace DistributedClipboard.Daemon.Arguments

open DistributedClipboard.Daemon.Main
open DistributedClipboard.Daemon.MainSteps
open DistributedClipboard.Lib.Transition

universe u

abbrev Arg := List Char

section Library

def isspace (c : Char) : Bool := c.toNat = 32 || (9 ≤ c.toNat && c.toNat ≤ 13)

def digits (s : Arg) : Nat := Nat.ofDigitChars 10 (s.takeWhile Char.isDigit) 0

/-- `strtol(s,NULL,10)`: after white space and a sign, and no further than a `long` goes. -/
def strtol (s : Arg) : Int :=
  match s.dropWhile isspace with
  | '-' :: s => max (-(digits s : Int)) (-2 ^ 63)
  | '+' :: s => min (digits s : Int) (2 ^ 63 - 1)
  | s => min (digits s : Int) (2 ^ 63 - 1)

def atoi (s : Arg) : Int := (strtol s).bmod (2 ^ 32)

/-- `htons`, read as the number that the bytes say. -/
def htons (port : Int) : Nat := (port % 2 ^ 16).toNat

end Library

def usageHead : Arg := "Usage: ".toList

def usageTail : Arg := " -p <port> [-c <peer ip> <peer port>]".toList

def usage (prog : Arg) : Arg := usageHead ++ prog ++ usageTail

/-- The line and its end stay in `char usage[200]`. -/
def UsageFits (prog : Arg) : Prop := (usage prog).length + 1 ≤ 200

theorem length_usageHead : usageHead.length = 7 := by decide +kernel

theorem length_usageTail : usageTail.length = 37 := by decide +kernel

theorem usageFits_iff (prog : Arg) : UsageFits prog ↔ prog.length ≤ 155 := by
  rw [UsageFits, usage, List.length_append, List.length_append, length_usageHead,
    length_usageTail]
  omega

/-- `strncmp(argv[i],"-p",2) == 0` -/
def isPortOption : Arg → Bool
  | '-' :: 'p' :: _ => true
  | _ => false

/-- `strncmp(argv[i],"-c",2) == 0` -/
def isParentOption : Arg → Bool
  | '-' :: 'c' :: _ => true
  | _ => false

/-- `for(i = 0; i < argc - 1;i++)`: the last port is taken. `port` is what is in `myport` so far; it
is not initialized. -/
def myport (port : Int) : List Arg → Int
  | a :: b :: rest => myport (if isPortOption a then atoi b else port) (b :: rest)
  | _ => port

/-- `for(i = 0; i < argc - 2;i++)` up to its `break`: `argv[i+1]` and `argv[i+2]`. -/
def findParent : List Arg → Option (Arg × Arg)
  | a :: b :: c :: rest => if isParentOption a then some (b, c) else findParent (b :: c :: rest)
  | _ => none

variable {Addr : Type u} (gethostbyname : Arg → Option Addr)

def mode (argv : List Arg) : Mode :=
  match findParent argv with
  | none => .single
  | some (host, port) =>
    if argv.length < 5 then .noIp
    else if gethostbyname host |>.isNone then .invalidIp
    else if argv.length < 6 then .noPort
    else if atoi port = 0 then .invPort
    else .connected

theorem mode_single_iff (argv : List Arg) : mode gethostbyname argv = .single ↔ findParent argv = none := by
  rw [mode]
  cases findParent argv with
  | none => simp
  | some parent =>
    simp only [reduceCtorEq, iff_false]
    repeat' split
    all_goals simp

/-- `peer_addr` -/
def peerAddr (argv : List Arg) : Option (Addr × Nat) :=
  (findParent argv).bind fun parent =>
    (gethostbyname parent.1).map fun addr => (addr, htons (atoi parent.2))

/-- The error code of the arguments, when `main` comes to read all of them. -/
def argumentError (port : Int) (argv : List Arg) : Option Int :=
  if myport port argv ≤ 0 then some ERR_NO_PORT else (mode gethostbyname argv).error

section Usage

def portOption (port : Nat) : List Arg := [['-', 'p'], Nat.toDigits 10 port]

def peerOption (peer : Arg × Nat) : List Arg := [['-', 'c'], peer.1, Nat.toDigits 10 peer.2]

/-- The arguments that `usage` asks for, with the parent after the port or before it. -/
def arguments (prog : Arg) (port : Nat) (peer : Option (Arg × Nat)) (parentFirst : Bool) :
    List Arg :=
  let parent := (peer.map peerOption).getD []
  prog :: if parentFirst then parent ++ portOption port else portOption port ++ parent

theorem digits_toDigits (n : Nat) : digits (Nat.toDigits 10 n) = n := by
  have all : (Nat.toDigits 10 n).takeWhile Char.isDigit = Nat.toDigits 10 n := by
    rw [List.takeWhile_eq_self_iff]
    intro c mine
    exact Nat.isDigit_of_mem_toDigits (by decide) (by decide) mine
  rw [digits, all]
  exact Nat.ofDigitChars_ten_toDigits

theorem toDigits_cons (n : Nat) : ∃ c cs, Nat.toDigits 10 n = c :: cs ∧ c.isDigit = true := by
  obtain ⟨c, cs, written⟩ := List.exists_cons_of_ne_nil (Nat.toDigits_ne_nil (n := n) (b := 10))
  refine ⟨c, cs, written, ?_⟩
  apply Nat.isDigit_of_mem_toDigits (by decide : 0 < 10) (by decide : 10 ≤ 10) (n := n)
  rw [written]
  exact List.mem_cons_self

theorem not_digit {c d : Char} (digit : c.isDigit = true) (other : d.isDigit = false) : c ≠ d := by
  rintro rfl
  rw [digit] at other
  cases other

theorem strtol_toDigits (n : Nat) : strtol (Nat.toDigits 10 n) = min (n : Int) (2 ^ 63 - 1) := by
  have value : digits (Nat.toDigits 10 n) = n := digits_toDigits n
  obtain ⟨c, cs, written, digit⟩ := toDigits_cons n
  rw [written] at value ⊢
  have visible : isspace c = false := by
    simp only [Char.isDigit, Bool.and_eq_true, decide_eq_true_eq] at digit
    have low : 48 ≤ c.toNat := digit.1
    simp only [isspace, Bool.or_eq_false_iff, Bool.and_eq_false_iff, decide_eq_false_iff_not]
    omega
  rw [strtol, List.dropWhile_cons_of_neg (by simp [visible])]
  split
  case h_1 same => exact absurd (List.cons.inj same).1 (not_digit digit rfl)
  case h_2 same => exact absurd (List.cons.inj same).1 (not_digit digit rfl)
  case h_3 => rw [value]

theorem atoi_toDigits {n : Nat} (fits : n < 2 ^ 31) : atoi (Nat.toDigits 10 n) = n := by
  have small : min (n : Int) (2 ^ 63 - 1) = n := by omega
  rw [atoi, strtol_toDigits, small]
  exact Int.bmod_eq_of_le (by omega) (by omega)

theorem not_option_toDigits (n : Nat) :
    isPortOption (Nat.toDigits 10 n) = false ∧ isParentOption (Nat.toDigits 10 n) = false := by
  obtain ⟨c, cs, written, digit⟩ := toDigits_cons n
  rw [written]
  have sign : c ≠ '-' := not_digit digit rfl
  constructor
  · rw [isPortOption]
    intro cs' same
    exact absurd (List.cons.inj same).1 sign
  · rw [isParentOption]
    intro cs' same
    exact absurd (List.cons.inj same).1 sign

variable {prog : Arg} {port fill : Nat} {peer : Option (Arg × Nat)} {parentFirst : Bool}

theorem myport_arguments {fill : Int} (fits : port < 2 ^ 31)
    (host : ∀ p, peer = some p → isPortOption p.1 = false) :
    myport fill (arguments prog port peer parentFirst) = port := by
  have value : atoi (Nat.toDigits 10 port) = port := atoi_toDigits fits
  have number : ∀ n, isPortOption (Nat.toDigits 10 n) = false := fun n => (not_option_toDigits n).1
  have option_ : isPortOption ['-', 'p'] = true := rfl
  have other : isPortOption ['-', 'c'] = false := rfl
  cases peer with
  | none => cases parentFirst <;> simp [arguments, portOption, myport, value, option_]
  | some p =>
    have name := host p rfl
    cases parentFirst <;>
      simp [arguments, portOption, peerOption, myport, value, number, option_, other, name]

theorem findParent_arguments (name : isParentOption prog = false) :
    findParent (arguments prog port peer parentFirst) =
      peer.map fun p => (p.1, Nat.toDigits 10 p.2) := by
  have number : ∀ n, isParentOption (Nat.toDigits 10 n) = false :=
    fun n => (not_option_toDigits n).2
  have option_ : isParentOption ['-', 'c'] = true := rfl
  have other : isParentOption ['-', 'p'] = false := rfl
  cases peer with
  | none => cases parentFirst <;> simp [arguments, portOption, findParent, name]
  | some p =>
    cases parentFirst <;>
      simp [arguments, portOption, peerOption, findParent, number, option_, other, name]

theorem htons_of_lt {n : Nat} (fits : n < 2 ^ 16) : htons n = n := by
  rw [htons]
  omega

/-- A parent of whom the host is known and the port is a number from 1 on. -/
def Reachable (p : Arg × Nat) : Prop := (gethostbyname p.1).isSome ∧ 0 < p.2 ∧ p.2 < 2 ^ 16

variable {gethostbyname}

theorem mode_arguments (name : isParentOption prog = false)
    (connects : ∀ p, peer = some p → Reachable gethostbyname p) :
    mode gethostbyname (arguments prog port peer parentFirst) =
      if peer.isSome then .connected else .single := by
  rw [mode, findParent_arguments name]
  cases peer with
  | none => rfl
  | some p =>
    obtain ⟨known, positive, fits⟩ := connects p rfl
    have value : atoi (Nat.toDigits 10 p.2) = p.2 := atoi_toDigits (by omega)
    have found : (gethostbyname p.1).isNone = false := by
      rw [Option.isNone_eq_false_iff]
      exact known
    have length : (arguments prog port (some p) parentFirst).length = 6 := by
      cases parentFirst <;> rfl
    have nonzero : p.2 ≠ 0 := by omega
    simp [length, found, value, nonzero]

/-- What `usage` asks for is what `main` reads, whichever of the options comes first. -/
theorem usage_is_read {fill : Int} (short : prog.length ≤ 155) (name : isParentOption prog = false)
    (listens : 0 < port ∧ port < 2 ^ 16)
    (connects : ∀ p, peer = some p → isPortOption p.1 = false ∧ Reachable gethostbyname p) :
    UsageFits prog ∧
      argumentError gethostbyname fill (arguments prog port peer parentFirst) = none ∧
      htons (myport fill (arguments prog port peer parentFirst)) = port ∧
      peerAddr gethostbyname (arguments prog port peer parentFirst) =
        peer.bind fun p => (gethostbyname p.1).map fun addr => (addr, p.2) := by
  obtain ⟨positive, fits⟩ := listens
  have own : myport fill (arguments prog port peer parentFirst) = port :=
    myport_arguments (by omega) fun p mine => (connects p mine).1
  have found : mode gethostbyname (arguments prog port peer parentFirst) = _ :=
    mode_arguments name fun p mine => (connects p mine).2
  refine ⟨(usageFits_iff prog).mpr short, ?_, ?_, ?_⟩
  · have listening : ¬ (port : Int) ≤ 0 := by omega
    rw [argumentError, own, if_neg listening, found]
    cases peer <;> rfl
  · rw [own, htons_of_lt fits]
  · rw [peerAddr, findParent_arguments name]
    cases peer with
    | none => rfl
    | some p =>
      obtain ⟨_, _, _, small⟩ := connects p rfl
      have value : htons (atoi (Nat.toDigits 10 p.2)) = p.2 := by
        rw [atoi_toDigits (by omega), htons_of_lt small]
      show (gethostbyname p.1).map _ = _
      rw [value]
      rfl

/-- One host is known. -/
def hosts (host : Arg) : Option Nat := if host = ['h'] then some 17 else none

def clipboard : Arg := ['c', 'l', 'i', 'p', 'b', 'o', 'a', 'r', 'd']

def childArguments : List Arg := arguments clipboard 8000 (some (['h'], 9000)) false

theorem usage_is_read_child : UsageFits clipboard ∧
    argumentError hosts 0 childArguments = none ∧ htons (myport 0 childArguments) = 8000 ∧
      peerAddr hosts childArguments = some (17, 9000) := by
  apply usage_is_read
  · decide
  · rfl
  · decide
  · intro p mine
    obtain rfl := Option.some.inj mine
    exact ⟨rfl, rfl, by decide, by decide⟩

theorem incomplete_parent {host : Arg} (name : isParentOption prog = false)
    (known : (gethostbyname host).isSome) :
    mode gethostbyname (prog :: portOption port ++ [['-', 'c'], host]) = .single ∧
      mode gethostbyname (prog :: ['-', 'c'] :: host :: portOption port) = .noPort := by
  have number : isParentOption (Nat.toDigits 10 port) = false := (not_option_toDigits port).2
  have option_ : isParentOption ['-', 'c'] = true := rfl
  have other : isParentOption ['-', 'p'] = false := rfl
  have found : (gethostbyname host).isNone = false := by
    rw [Option.isNone_eq_false_iff]
    exact known
  constructor
  · simp [mode, portOption, findParent, name, number, other]
  · simp [mode, portOption, findParent, name, option_, found]

end Usage

section Runs

variable {verbose : Bool} {s s' : State} (fill : Int) (argv : List Arg)

/-- The process reads these arguments. -/
def reads (s : State) : Label → Prop
  | .call r =>
    (s.pc = .arguments → r = if myport fill argv ≤ 0 then .error ERR_NO_PORT else .ok) ∧
      (s.pc = .mode → r = .mode (mode gethostbyname argv))
  | _ => True

def Known (s : State) : Pc → Prop
  | .arguments => s.sock = 0
  | .clipsSocket | .appsSocket _ | .bindClips | .bindApps | .mode =>
    s.sock = 0 ∧ 0 < myport fill argv
  | .parentSocket => 0 < myport fill argv ∧ mode gethostbyname argv = .connected
  | .connect => 0 < myport fill argv ∧ mode gethostbyname argv = .connected ∧ s.sock ≠ 0
  | .leave code => 1 ≤ code → code ≤ 4 → argumentError gethostbyname fill argv = some code
  | _ => 0 < myport fill argv ∧ (mode gethostbyname argv = .single ∧ s.sock = 0 ∨
      mode gethostbyname argv = .connected ∧ s.sock ≠ 0)

instance (s : State) : (a : Label) → Decidable (reads gethostbyname fill argv s a)
  | .call _ => inferInstanceAs (Decidable (_ ∧ _))
  | .execute _ | .table _ _ | .jam _ | .other _ => inferInstanceAs (Decidable True)

variable {gethostbyname fill argv}

theorem known_leave {code : Int} (other : ¬ (1 ≤ code ∧ code ≤ 4)) :
    Known gethostbyname fill argv s (.leave code) :=
  fun low high => absurd ⟨low, high⟩ other

theorem known_of_call {r : Result} (known : Known gethostbyname fill argv s s.pc)
    (guard : reads gethostbyname fill argv s (.call r)) (edge : call verbose s r = some s') :
    Known gethostbyname fill argv s' s'.pc := by
  obtain ⟨port, parent⟩ := guard
  cases pc : s.pc with rw [pc] at known
  | arguments =>
    have result := port pc
    split at result
    · rename_i bad
      subst result
      simp only [call, pc, Option.some.injEq] at edge
      subst edge
      intro _ _
      rw [argumentError, if_pos bad]
    · rename_i good
      subst result
      simp only [call, pc, Option.some.injEq] at edge
      subst edge
      exact ⟨known, by omega⟩
  | mode =>
    obtain rfl := parent pc
    obtain ⟨none_, positive⟩ := known
    have listening : ¬ myport fill argv ≤ 0 := by omega
    simp only [call, pc] at edge
    split at edge
    · rename_i err failed
      cases edge
      intro _ _
      rw [argumentError, if_neg listening]
      exact failed
    · rename_i fine
      cases edge
      cases found : mode gethostbyname argv <;> simp only [found, Mode.error, reduceCtorEq] at fine
      · exact ⟨positive, .inl ⟨found, none_⟩⟩
      · exact ⟨positive, found⟩
  | clipsSocket | appsSocket | bindClips | bindApps =>
    rcases r with _ | err | ⟨_ | fd⟩ | m | err <;> simp only [call, pc, reduceCtorEq] at edge
    all_goals (repeat' split at edge) <;> cases edge
    all_goals first
      | exact known
      | exact known_leave (by decide)
  | parentSocket =>
    rcases r with _ | err | ⟨_ | fd⟩ | m | err <;> simp only [call, pc, reduceCtorEq] at edge
    · cases edge
      exact known_leave (by decide)
    · split at edge <;> cases edge
      rename_i free
      exact ⟨known.1, known.2, by simpa using free.1.ne'⟩
  | connect =>
    rcases r with _ | err | ⟨_ | fd⟩ | m | err <;> simp only [call, pc, reduceCtorEq] at edge
    · cases edge
      exact ⟨known.1, .inr known.2⟩
    · cases edge
      exact known_leave (by decide)
  | timeInit | clipifInit | hello | appifInit | printLock | serve | appifFinalize
  | clipifFinalize =>
    rcases r with _ | err | ⟨_ | fd⟩ | m | err <;> simp only [call, pc, reduceCtorEq] at edge
    all_goals (repeat' split at edge) <;> cases edge
    all_goals first
      | exact known
      | exact known_leave (by omega)
  | leave code => simp [call, pc] at edge

theorem known_of_step {label : Label} (known : Known gethostbyname fill argv s s.pc)
    (guard : reads gethostbyname fill argv s label) (edge : step verbose s label = some s') :
    Known gethostbyname fill argv s' s'.pc := by
  cases label with
  | call r =>
    simp only [step, Option.ite_none_right_eq_some] at edge
    exact known_of_call known guard edge.2
  | execute | table | jam | other =>
    cases change_of_step edge <;> exact known

theorem known_of_reach
    (reach : (daemon verbose).Reach (reads gethostbyname fill argv) s) :
    Known gethostbyname fill argv s s.pc :=
  reach.invariant (I := fun s => Known gethostbyname fill argv s s.pc) rfl
    fun _ _ _ known guard edge => known_of_step known guard edge

/-- A short name stays in `usage`; and then, whatever else fails and whatever the threads do, a daemon
serves only when its arguments are right, as the root exactly when they name no parent, and it returns
an error about its arguments only when that error is in them. -/
theorem role_of_arguments (short : (argv.headD []).length ≤ 155)
    (reach : (daemon verbose).Reach (reads gethostbyname fill argv) s) :
    UsageFits (argv.headD []) ∧
    (s.pc = .serve → argumentError gethostbyname fill argv = none ∧
      (s.sock = 0 ↔ findParent argv = none)) ∧
    ∀ code, s.returned = some code → 1 ≤ code → code ≤ 4 →
      argumentError gethostbyname fill argv = some code := by
  have known := known_of_reach reach
  refine ⟨(usageFits_iff _).mpr short, ?_, ?_⟩
  · intro pc
    rw [pc] at known
    obtain ⟨positive, role⟩ := known
    have listening : ¬ myport fill argv ≤ 0 := by omega
    rw [argumentError, if_neg listening, ← mode_single_iff gethostbyname]
    rcases role with ⟨found, none_⟩ | ⟨found, some_⟩
    · simp [found, none_, Mode.error]
    · simp [found, some_, Mode.error]
  · intro code returned low high
    rw [State.returned] at returned
    split at returned <;> cases returned
    rename_i pc
    rw [pc] at known
    exact known low high

end Runs

section Child

def childRun : List Label :=
  [.call .ok, .call (.socket (some 3)), .call (.socket (some 4)), .call .ok, .call .ok,
    .call (.mode .connected), .call (.socket (some 5)), .call .ok, .call .ok, .call .ok,
    .call (.received 8), .call .ok, .call .ok]

theorem role_of_arguments_child : ∃ s : State,
    s.pc = .serve ∧ s.sock = 5 ∧ findParent childArguments ≠ none := by
  have reached : ∃ s : State, (daemon false).Reach (reads hosts 0 childArguments) s ∧
      (s.pc, s.sock) = (.serve, 5) :=
    System.reach_of_guardedRun _ _ childRun (by decide +kernel)
  obtain ⟨s, reach, seen⟩ := reached
  obtain ⟨pc, sock⟩ := Prod.mk.inj seen
  have role := ((role_of_arguments (by decide) reach).2.1 pc).2
  refine ⟨s, pc, sock, fun root => ?_⟩
  have none_ := role.mpr root
  rw [sock] at none_
  cases none_

end Child

end DistributedClipboard.Daemon.Arguments
