/- module: DistributedClipboard/Utils/Time
   source: src/src/utils/time.c
   layer: model
   digest: The network clock, kept as its distance to the machine's clock, and what it shows. -/

set_option autoImplicit false
set_option relaxedAutoImplicit false

namespace DistributedClipboard.Utils.Time

/-- `time_started`, the machine's clock, and `now` and `real_now` of a `time_m_sync` that has not
written yet. -/
structure Clock where
  time : Nat
  timeStarted : UInt32
  syncing : Option (UInt32 × UInt32)
  deriving DecidableEq, Repr

/-- `time_init` -/
def timeInit (time : Nat) : Clock := ⟨time, 0, none⟩

/-- `time_m_local` -/
def timeMLocal (c : Clock) : UInt32 := .ofNat c.time

/-- `time_m_now` -/
def timeMNow (c : Clock) : UInt32 := timeMLocal c - c.timeStarted

/-- `time_m_sync` up to `rw_lock_wlock`. -/
def timeMSync (c : Clock) (now : UInt32) : Clock := { c with syncing := some (now, timeMLocal c) }

/-- `time_started = real_now - now` -/
def timeStarts (c : Clock) : Clock :=
  match c.syncing with
  | none => c
  | some (now, realNow) => { c with timeStarted := realNow - now, syncing := none }

def Clock.pass (c : Clock) (seconds : Nat) : Clock := { c with time := c.time + seconds }

/-- What a clock that is set at times shows, and what it will show when the setting under way is
done. -/
structure Shown where
  now : UInt32
  next : Option UInt32
  deriving DecidableEq, Repr

namespace Shown

def pass (v : Shown) (seconds : Nat) : Shown :=
  ⟨v.now + .ofNat seconds, v.next.map (· + .ofNat seconds)⟩

def set (v : Shown) (now : UInt32) : Shown := { v with next := some now }

def settle (v : Shown) : Shown := ⟨v.next.getD v.now, none⟩

end Shown

def Clock.shown (c : Clock) : Shown :=
  ⟨timeMNow c, c.syncing.map fun s => timeMLocal c - (s.2 - s.1)⟩

section Refinement

variable (c : Clock)

theorem shown_init (time : Nat) : (timeInit time).shown = ⟨.ofNat time, none⟩ := by
  have same : UInt32.ofNat time - 0 = UInt32.ofNat time := UInt32.sub_zero _
  rw [Clock.shown, timeMNow, timeInit, timeMLocal, same]
  rfl

theorem timeMLocal_pass (seconds : Nat) (start : UInt32) :
    timeMLocal (c.pass seconds) - start = timeMLocal c - start + .ofNat seconds := by
  rw [timeMLocal, timeMLocal, Clock.pass, UInt32.ofNat_add]
  grind

theorem shown_pass (seconds : Nat) : (c.pass seconds).shown = c.shown.pass seconds := by
  rw [Clock.shown, Shown.pass, timeMNow, timeMLocal_pass]
  simp only [timeMLocal_pass, Clock.shown, timeMNow, Option.map_map]
  rfl

theorem shown_timeMSync (now : UInt32) : (timeMSync c now).shown = c.shown.set now := by
  have exact_ : timeMLocal c - (timeMLocal c - now) = now := by grind
  have shows : (timeMSync c now).shown =
      ⟨timeMNow c, some (timeMLocal c - (timeMLocal c - now))⟩ := rfl
  rw [shows, exact_]
  rfl

theorem shown_timeStarts : (timeStarts c).shown = c.shown.settle := by
  obtain ⟨time, timeStarted, syncing⟩ := c
  cases syncing with
  | none => rfl
  | some s => rfl

end Refinement

end DistributedClipboard.Utils.Time
