import Moxide.Lib.SortedMap

/-! The timer wheel (`time/timer.rs`). The map is keyed by `deadline << 20` plus the low 20 bits of the id. A callback is a
    number, and its calls are returned; callbacks do not use the wheel, whose lock is held. -/

namespace Moxide.Timer
open Lib

abbrev Callback := Nat

/-- `handle` is the id that the caller of `add_oneshot` or `add_periodic` was given. No function reads it. -/
structure TimerEntry where
  deadlineNs : UInt64
  periodNs : UInt64
  callback : Callback
  id : UInt64
  handle : UInt64
  deriving DecidableEq, Repr

abbrev Entries := List (Nat × TimerEntry)

/-- `NEXT_TIMER_ID` and the entries of the wheel, if there is one. -/
structure State where
  nextTimerId : UInt64
  wheel : Option Entries
  deriving DecidableEq, Repr

def key (deadlineNs id : UInt64) : Nat := ((deadlineNs <<< 20) + (id &&& 0xFFFFF)).toNat

structure Rearm where
  deadlineNs : UInt64
  periodNs : UInt64
  callback : Callback
  handle : UInt64
  deriving DecidableEq, Repr

namespace State

def init : State := ⟨1, some []⟩

/-- `Wheel::insert`. Without `handle` the timer is new, and the id it gets is the one its caller is given. -/
def insert (s : State) (entries : Entries) (deadlineNs periodNs : UInt64) (cb : Callback) (handle : Option UInt64) :
    State × UInt64 :=
  let id := s.nextTimerId
  let e : TimerEntry := ⟨deadlineNs, periodNs, cb, id, handle.getD id⟩
  (⟨id + 1, some (SortedMap.insert (key deadlineNs id) e entries)⟩, id)

def addOneshot (s : State) (deadlineNs : UInt64) (cb : Callback) : State × UInt64 :=
  match s.wheel with
  | none => (s, 0)
  | some w => s.insert w deadlineNs 0 cb none

def addPeriodic (s : State) (firstNs periodNs : UInt64) (cb : Callback) : State × UInt64 :=
  match s.wheel with
  | none => (s, 0)
  | some w => s.insert w firstNs periodNs cb none

def cancelTimer (s : State) (id : UInt64) : State :=
  { s with wheel := s.wheel.map fun w => w.filter (·.2.id ≠ id) }

/-- The loop over the keys that are due: what is left of the wheel, the calls, and the timers to be armed again. -/
def fire (now : UInt64) : List Nat → Entries → Entries × List (Callback × UInt64) × List Rearm
  | [], w => (w, [], [])
  | k :: ks, w =>
    match SortedMap.get w k with
    | none => fire now ks w
    | some e =>
      let r := fire now ks (SortedMap.remove w k)
      (r.1, (e.callback, e.id) :: r.2.1,
        if e.periodNs ≠ 0 then ⟨now + e.periodNs, e.periodNs, e.callback, e.handle⟩ :: r.2.2 else r.2.2)

def rearm (s : State) (r : Rearm) : State :=
  match s.wheel with
  | none => s
  | some w => (s.insert w r.deadlineNs r.periodNs r.callback (some r.handle)).1

/-- `Wheel::expire` up to the timers to be armed again. -/
def due (w : Entries) (now : UInt64) : Entries × List (Callback × UInt64) × List Rearm :=
  let deadlineMax := ((now <<< 20) ||| 0xFFFFF).toNat
  fire now ((w.filter (·.1 ≤ deadlineMax)).map (·.1)) w

/-- `expire_timers` at the time `now`, and its calls. -/
def expireTimers (s : State) (now : UInt64) : State × List (Callback × UInt64) :=
  match s.wheel with
  | none => (s, [])
  | some w =>
    let r := due w now
    (r.2.2.foldl rearm { s with wheel := some r.1 }, r.2.1)

end State

end Moxide.Timer
