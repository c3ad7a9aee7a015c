import Mathlib

/-! The ring of input events of `input/mod.rs`. Each atomic access and each copy of a slot is one step of the producer or
    of the consumer. -/

namespace Moxide.Evdev

structure InputEvent where
  tvSec : Int64
  tvUsec : Int64
  type : UInt16
  code : UInt16
  value : Int32
deriving DecidableEq

def RING_CAP : UInt32 := 256
def RING_MASK : UInt32 := RING_CAP - 1

structure EvdevRingBuf where
  buf : Nat → InputEvent
  head : UInt32
  tail : UInt32
  dropped : UInt32

/-- Where the producer is in `push`. -/
inductive Push where
  | idle
  | loadTail (ev : InputEvent) (head : UInt32)
  | advanceTail (ev : InputEvent) (head : UInt32)
  | countDropped (ev : InputEvent) (head : UInt32)
  | store (ev : InputEvent) (head : UInt32)
  | advanceHead (ev : InputEvent)
deriving DecidableEq

/-- Where the consumer is in `pop`. -/
inductive Pop where
  | idle
  | loadHead (tail : UInt32)
  | read (tail : UInt32)
  | advanceTail (ev : InputEvent)
deriving DecidableEq

/-- No step reads `pushed`, `popped` and `drained`: the events of the pushes and pops that have returned, and the sum of what
    `drain_dropped` returned. -/
structure State where
  ring : EvdevRingBuf
  push : Push
  pop : Pop
  pushed : List InputEvent
  popped : List InputEvent
  drained : Nat

inductive Event where
  | push (ev : InputEvent)
  | pushStep
  | pop
  | popStep
  | drainDropped

namespace State

def new : State := ⟨⟨fun _ => ⟨0, 0, 0, 0, 0⟩, 0, 0, 0⟩, .idle, .idle, [], [], 0⟩

def pushStep (s : State) : Option State :=
  match s.push with
  | .idle => none
  | .loadTail ev head =>
    some { s with push := if head - s.ring.tail ≥ RING_CAP then .advanceTail ev head else .store ev head }
  | .advanceTail ev head => some { s with ring.tail := s.ring.tail + 1, push := .countDropped ev head }
  | .countDropped ev head => some { s with ring.dropped := s.ring.dropped + 1, push := .store ev head }
  | .store ev head =>
    some { s with ring.buf := Function.update s.ring.buf (head &&& RING_MASK).toNat ev, push := .advanceHead ev }
  | .advanceHead ev => some { s with ring.head := s.ring.head + 1, push := .idle, pushed := s.pushed ++ [ev] }

def popStep (s : State) : Option State :=
  match s.pop with
  | .idle => none
  | .loadHead tail => some { s with pop := if tail = s.ring.head then .idle else .read tail }
  | .read tail => some { s with pop := .advanceTail (s.ring.buf (tail &&& RING_MASK).toNat) }
  | .advanceTail ev => some { s with ring.tail := s.ring.tail + 1, pop := .idle, popped := s.popped ++ [ev] }

def step (s : State) : Event → Option State
  | .push ev => if s.push = .idle then some { s with push := .loadTail ev s.ring.head } else none
  | .pushStep => s.pushStep
  | .pop => if s.pop = .idle then some { s with pop := .loadHead s.ring.tail } else none
  | .popStep => s.popStep
  | .drainDropped =>
    if s.pop = .idle then some { s with ring.dropped := 0, drained := s.drained + s.ring.dropped.toNat } else none

end State

end Moxide.Evdev
