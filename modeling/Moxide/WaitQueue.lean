import Mathlib

/-! The wait queue of `sync/wait_queue.rs`, with `block_current` and `wake_pid` of the scheduler. A step is one atomic
    access, or taking a lock with the section under it where nothing else is read. -/

namespace Moxide.Sync
open Function (update)

abbrev ReadyMask := UInt32

def WAKE_TIMEOUT : ReadyMask := 0x40000000
def WAKE_CANCEL : ReadyMask := 0x80000000

inductive WakeReason where
  | ready
  | timeout
  | cancelled
  deriving DecidableEq, Repr

inductive CancelReason where
  | none
  | signal
  | timeout
  | closed
  | exit
  | explicit
  deriving DecidableEq, Repr

structure Waiter where
  taskId : Nat
  interest : ReadyMask
  deriving DecidableEq, Repr

structure Forwarder where
  target : Nat
  interest : ReadyMask
  deriving DecidableEq, Repr

/-- Who holds a lock: a task in `wait`, or a `wake` call. -/
inductive Holder where
  | task (pid : Nat)
  | wake (id : Nat)
  deriving DecidableEq, Repr

structure WaitQueue where
  ready : ReadyMask
  waiters : List Waiter
  forwarders : List Forwarder
  waitersLock : Option Holder
  forwardersLock : Option Holder

def WaitQueue.new : WaitQueue := ⟨0, [], [], none, none⟩

/-! ### Calls in progress -/

structure WaitCall where
  queue : Nat
  interest : ReadyMask
  cancel : Option Nat
  deadline : Option UInt64
  deriving DecidableEq, Repr

def WaitCall.fullInterest (c : WaitCall) : ReadyMask := c.interest ||| WAKE_TIMEOUT ||| WAKE_CANCEL

inductive WaitPoint where
  | load
  | cancelCheck
  | lock
  | recheck
  | push
  | cancelRecheck
  | withdraw
  | block
  | blocked
  | remove
  | finish
  deriving DecidableEq, Repr

/-- A task: whether its state is `Blocked`, its `wait` call and what its last one returned. -/
structure Proc where
  blocked : Bool
  wait : Option (WaitCall × WaitPoint)
  result : Option WakeReason

/-- What a `wake` call does next; the loops carry the entries that are left. -/
inductive WakePoint where
  | orReady
  | lock
  | scan (rest : List Waiter)
  | lockForwarders
  | forward (rest : List Forwarder)
  | lockTarget (target : Nat) (rest : List Forwarder)
  | scanTarget (target : Nat) (ws : List Waiter) (rest : List Forwarder)
  deriving DecidableEq, Repr

structure WakeCall where
  queue : Nat
  bits : ReadyMask
  point : WakePoint
  deriving DecidableEq, Repr

structure Sys where
  queues : Nat → WaitQueue
  procs : Nat → Proc
  wakes : Nat → Option WakeCall
  tokens : Nat → CancelReason

namespace Sys

def setQueue (s : Sys) (q : Nat) (x : WaitQueue) : Sys := { s with queues := update s.queues q x }

def setProc (s : Sys) (t : Nat) (x : Proc) : Sys := { s with procs := update s.procs t x }

def setWake (s : Sys) (w : Nat) (x : Option WakeCall) : Sys := { s with wakes := update s.wakes w x }

/-- `is_cancelled` of the token of a call, if it has one. -/
def isCancelled (s : Sys) (c : WaitCall) : Bool :=
  match c.cancel with
  | some token => s.tokens token != .none
  | none => false

def goto (s : Sys) (t : Nat) (c : WaitCall) (p : WaitPoint) : Sys :=
  s.setProc t { s.procs t with wait := some (c, p) }

def leave (s : Sys) (t : Nat) (r : WakeReason) : Sys :=
  s.setProc t { s.procs t with wait := none, result := some r }

def lockWaiters (s : Sys) (q : Nat) (h : Option Holder) : Sys :=
  s.setQueue q { s.queues q with waitersLock := h }

def lockForwarders (s : Sys) (q : Nat) (h : Option Holder) : Sys :=
  s.setQueue q { s.queues q with forwardersLock := h }

def fetchOr (s : Sys) (q : Nat) (bits : ReadyMask) : Sys :=
  s.setQueue q { s.queues q with ready := (s.queues q).ready ||| bits }

def retain (s : Sys) (q t : Nat) : Sys :=
  s.setQueue q { s.queues q with waiters := (s.queues q).waiters.filter (·.taskId != t) }

/-- Acts on a `Blocked` task only. -/
def wakePid (s : Sys) (t : Nat) : Sys :=
  if (s.procs t).blocked then s.setProc t { s.procs t with blocked := false } else s

/-- One step of the `wait` call of task `t`; `none` when it cannot go on. `now` is the clock, read at the end. -/
def waitStep (s : Sys) (t : Nat) (now : UInt64) : Option Sys :=
  match (s.procs t).wait with
  | none => none
  | some (c, .load) =>
    if (s.queues c.queue).ready &&& c.interest ≠ 0 then some (s.leave t .ready) else some (s.goto t c .cancelCheck)
  | some (c, .cancelCheck) =>
    if s.isCancelled c then some (s.leave t .cancelled) else some (s.goto t c .lock)
  | some (c, .lock) =>
    if (s.queues c.queue).waitersLock = none then
      some ((s.lockWaiters c.queue (some (.task t))).goto t c .recheck)
    else none
  | some (c, .recheck) =>
    if (s.queues c.queue).ready &&& c.interest ≠ 0 then some ((s.leave t .ready).lockWaiters c.queue none)
    else some (s.goto t c .push)
  | some (c, .push) =>
    let pushed := s.setQueue c.queue
      { s.queues c.queue with waiters := (s.queues c.queue).waiters ++ [⟨t, c.fullInterest⟩] }
    some ((pushed.goto t c .cancelRecheck).lockWaiters c.queue none)
  | some (c, .cancelRecheck) =>
    if s.isCancelled c then some (s.goto t c .withdraw) else some (s.goto t c .block)
  | some (c, .withdraw) =>
    if (s.queues c.queue).waitersLock = none then some ((s.leave t .cancelled).retain c.queue t) else none
  | some (c, .block) => some (s.setProc t { s.procs t with blocked := true, wait := some (c, .blocked) })
  | some (c, .blocked) => if (s.procs t).blocked then none else some (s.goto t c .remove)
  | some (c, .remove) =>
    if (s.queues c.queue).waitersLock = none then some ((s.goto t c .finish).retain c.queue t) else none
  | some (c, .finish) =>
    if s.isCancelled c then some (s.leave t .cancelled)
    else match c.deadline with
      | some dl => if dl ≤ now then some (s.leave t .timeout) else some (s.leave t .ready)
      | none => some (s.leave t .ready)

/-- `wake_pid` for one entry of a scan, if it matches. -/
def wakeMatching (s : Sys) (x : Waiter) (bits : ReadyMask) : Sys :=
  if x.interest &&& bits ≠ 0 then s.wakePid x.taskId else s

def wakeStep (s : Sys) (w : Nat) : Option Sys :=
  match s.wakes w with
  | none => none
  | some ⟨q, bits, .orReady⟩ => some ((s.setWake w (some ⟨q, bits, .lock⟩)).fetchOr q bits)
  | some ⟨q, bits, .lock⟩ =>
    if (s.queues q).waitersLock = none then
      some ((s.lockWaiters q (some (.wake w))).setWake w (some ⟨q, bits, .scan (s.queues q).waiters⟩))
    else none
  | some ⟨q, bits, .scan (x :: rest)⟩ => some ((s.wakeMatching x bits).setWake w (some ⟨q, bits, .scan rest⟩))
  | some ⟨q, bits, .scan []⟩ => some ((s.setWake w (some ⟨q, bits, .lockForwarders⟩)).lockWaiters q none)
  | some ⟨q, bits, .lockForwarders⟩ =>
    if (s.queues q).forwardersLock = none then
      some ((s.lockForwarders q (some (.wake w))).setWake w (some ⟨q, bits, .forward (s.queues q).forwarders⟩))
    else none
  | some ⟨q, bits, .forward (f :: rest)⟩ =>
    if f.interest &&& bits ≠ 0 then
      some ((s.setWake w (some ⟨q, bits, .lockTarget f.target rest⟩)).fetchOr f.target bits)
    else some (s.setWake w (some ⟨q, bits, .forward rest⟩))
  | some ⟨q, _, .forward []⟩ => some ((s.setWake w none).lockForwarders q none)
  | some ⟨q, bits, .lockTarget target rest⟩ =>
    if (s.queues target).waitersLock = none then
      some ((s.lockWaiters target (some (.wake w))).setWake w
        (some ⟨q, bits, .scanTarget target (s.queues target).waiters rest⟩))
    else none
  | some ⟨q, bits, .scanTarget target (x :: ws) rest⟩ =>
    some ((s.wakeMatching x bits).setWake w (some ⟨q, bits, .scanTarget target ws rest⟩))
  | some ⟨q, bits, .scanTarget target [] rest⟩ =>
    some ((s.setWake w (some ⟨q, bits, .forward rest⟩)).lockWaiters target none)

end Sys

/-- What may happen next: a call starts, a call takes its next step, a token or the forwarders of a queue change,
    or another part of the kernel calls `wake_pid`. -/
inductive Event where
  | wait (t : Nat) (call : WaitCall)
  | task (t : Nat) (now : UInt64)
  | wake (w q : Nat) (bits : ReadyMask)
  | waker (w : Nat)
  | cancel (token : Nat) (reason : CancelReason) (w q : Nat)
  | reset (token : Nat)
  | registerForwarder (q target : Nat) (interest : ReadyMask)
  | removeForwarder (q target : Nat)
  | wakePid (t : Nat)

def Sys.step (s : Sys) : Event → Option Sys
  | .wait t call =>
    if (s.procs t).wait = none ∧ (s.procs t).blocked = false then some (s.goto t call .load) else none
  | .task t now => s.waitStep t now
  | .wake w q bits => if s.wakes w = none then some (s.setWake w (some ⟨q, bits, .orReady⟩)) else none
  | .waker w => s.wakeStep w
  | .cancel token reason w q =>
    if s.wakes w = none then
      some ({ s with tokens := update s.tokens token reason }.setWake w (some ⟨q, WAKE_CANCEL, .orReady⟩))
    else none
  | .reset token => some { s with tokens := update s.tokens token .none }
  | .registerForwarder q target interest =>
    if (s.queues q).forwardersLock = none then
      if (s.queues q).forwarders.any (·.target == target) then some s
      else some (s.setQueue q
        { s.queues q with forwarders := (s.queues q).forwarders ++ [⟨target, interest⟩] })
    else none
  | .removeForwarder q target =>
    if (s.queues q).forwardersLock = none then
      some (s.setQueue q { s.queues q with forwarders := (s.queues q).forwarders.filter (·.target != target) })
    else none
  | .wakePid t => some (s.wakePid t)

def Sys.init : Sys := ⟨fun _ => .new, fun _ => ⟨false, none, none⟩, fun _ => none, fun _ => .none⟩

end Moxide.Sync
