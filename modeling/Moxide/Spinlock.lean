import Mathlib

/-! The ticket lock of `sync/spinlock.rs`. Each atomic operation is one step of the processor that makes it. The two loops in
    which `lock` waits are one, as they differ in how they pause. -/

namespace Moxide.Spinlock

structure SpinLock where
  nextTicket : UInt32
  nowServing : UInt32
deriving DecidableEq

/-- Where a processor is in its current call. -/
inductive Pc where
  | idle
  /-- In `lock`, with a ticket. -/
  | spin (ticket : UInt32)
  /-- In `try_lock`, before the load of `next_ticket`. -/
  | loadNext (serving : UInt32)
  /-- In `try_lock`, before the `compare_exchange`. -/
  | exchange (next : UInt32)
deriving DecidableEq

/-- `guards` lists the owners of the guards that exist. No step reads `taken`, `granted` and `dropped`: the tickets taken and
    the guards granted so far with the processor and ticket of each, and the number of guards dropped. -/
structure State where
  lock : SpinLock
  pc : Nat → Pc
  guards : List Nat
  taken : List (Nat × UInt32)
  granted : List (Nat × UInt32)
  dropped : Nat

inductive Event where
  | lock (cpu : Nat)
  | tryLock (cpu : Nat)
  /-- The next operation of a call that has begun. -/
  | advance (cpu : Nat)
  | drop (cpu : Nat)

namespace State

def new : State := ⟨⟨0, 0⟩, fun _ => .idle, [], [], [], 0⟩

def goto (s : State) (cpu : Nat) (pc : Pc) : State := { s with pc := Function.update s.pc cpu pc }

def take (s : State) (cpu : Nat) : State :=
  { s with
    lock := { s.lock with nextTicket := s.lock.nextTicket + 1 }
    taken := s.taken ++ [(cpu, s.lock.nextTicket)] }

def grant (s : State) (cpu : Nat) (ticket : UInt32) : State :=
  { s.goto cpu .idle with
    guards := cpu :: s.guards
    granted := s.granted ++ [(cpu, ticket)] }

def advance (s : State) (cpu : Nat) : Option State :=
  match s.pc cpu with
  | .idle => none
  | .spin ticket => some (if s.lock.nowServing = ticket then s.grant cpu ticket else s)
  | .loadNext serving =>
    some (s.goto cpu (if serving = s.lock.nextTicket then .exchange s.lock.nextTicket else .idle))
  | .exchange next => some (if s.lock.nextTicket = next then (s.take cpu).grant cpu next else s.goto cpu .idle)

def step (s : State) : Event → Option State
  | .lock cpu => if s.pc cpu = .idle then some ((s.take cpu).goto cpu (.spin s.lock.nextTicket)) else none
  | .tryLock cpu => if s.pc cpu = .idle then some (s.goto cpu (.loadNext s.lock.nowServing)) else none
  | .advance cpu => s.advance cpu
  | .drop cpu =>
    if s.pc cpu = .idle ∧ cpu ∈ s.guards then
      some { s with
        lock := { s.lock with nowServing := s.lock.nowServing + 1 }
        guards := s.guards.erase cpu
        dropped := s.dropped + 1 }
    else none

def trying (s : State) : Event → Bool
  | .tryLock _ => true
  | .advance cpu =>
    match s.pc cpu with
    | .loadNext _ | .exchange _ => true
    | _ => false
  | .lock _ | .drop _ => false

end State

end Moxide.Spinlock
