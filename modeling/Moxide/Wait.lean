import Moxide.Lib.Keyed
import Moxide.Scheduler

/-! `sys_wait4` and the exit of children (`proc/wait.rs`). The scan of the process table, the change to blocked, and the
    steps of `wake_pid` are atomic steps. Of signals only the question whether one is pending is kept. -/

namespace Moxide.Wait
open Scheduler (ProcState)

def WNOHANG : UInt32 := 1
def WUNTRACED : UInt32 := 2
def WCONTINUED : UInt32 := 8
def WNOWAIT : UInt32 := 0x01000000
def WSTATUS_CONTINUED : Int32 := 0xFFFF
def ECHILD : Int := -10
def EINTR : Int := -4

def encodeExit (code : Int32) : Int32 := (code &&& 0xFF) <<< 8
def encodeStop (stopsig : UInt32) : Int32 := ((stopsig &&& 0xFF) <<< 8).toInt32 ||| 0x7F

structure Proc where
  pid : Nat
  ppid : Nat
  pgid : Nat
  state : ProcState
  exitCode : Int32
  utimeNs : UInt64
  stimeNs : UInt64
  deriving DecidableEq, Repr

def matchesPid (pid pgid : Nat) (waitPid : Int) : Bool :=
  if waitPid = -1 ∨ waitPid = 0 then true
  else if 0 < waitPid then pid = waitPid.toNat
  else pgid = (-waitPid).toNat

/-! ### The table -/

abbrev Table := List Proc

namespace Table

def find (t : Table) (pid : Nat) : Option Proc := Lib.Keyed.find Proc.pid t pid

/-- `with_proc_mut`. -/
def modify (t : Table) (pid : Nat) (f : Proc → Proc) : Table := Lib.Keyed.modify Proc.pid pid f t

def setState (t : Table) (pid : Nat) (state : ProcState) : Table := t.modify pid fun p => { p with state := state }

def swapRemove (t : Table) (pid : Nat) : Table := Lib.Keyed.swapRemove Proc.pid t pid

def stateOf (t : Table) (pid : Nat) : Option ProcState := (t.find pid).map (·.state)

end Table

/-- `WaitHit::Harvested`. `zombie` records that the child was a zombie; no function reads it. -/
structure Harvest where
  childPid : Nat
  wstatus : Int32
  utimeNs : UInt64
  stimeNs : UInt64
  zombie : Bool
  deriving DecidableEq, Repr

inductive WaitHit where
  | harvested (h : Harvest)
  | hasLiving
  | noChild
  deriving DecidableEq, Repr

/-- The loop over the table, with `any_child`. -/
def scan (caller : Nat) (pid : Int) (options : UInt32) : Bool → Table → WaitHit
  | anyChild, [] => if anyChild then .hasLiving else .noChild
  | anyChild, p :: rest =>
    if p.ppid ≠ caller then scan caller pid options anyChild rest
    else if !matchesPid p.pid p.pgid pid then scan caller pid options anyChild rest
    else match p.state with
      | .zombie => .harvested ⟨p.pid, p.exitCode, p.utimeNs, p.stimeNs, true⟩
      | .stopped =>
        if options &&& WUNTRACED ≠ 0 then .harvested ⟨p.pid, p.exitCode, p.utimeNs, p.stimeNs, false⟩
        else scan caller pid options true rest
      | .continued =>
        if options &&& WCONTINUED ≠ 0 then .harvested ⟨p.pid, WSTATUS_CONTINUED, p.utimeNs, p.stimeNs, false⟩
        else scan caller pid options true rest
      | .ready | .running | .blocked | .stopReported => scan caller pid options true rest

def Proc.report (p : Proc) : Proc :=
  match p.state with
  | .stopped => { p with state := .stopReported }
  | .continued => { p with state := .ready, exitCode := 0 }
  | .zombie | .ready | .running | .blocked | .stopReported => p

/-! ### Calls -/

/-- Where a `wait4` stands: before the scan, at one of the steps that take a child, before `block_current` sets the caller
    blocked, asleep, or at its end. -/
inductive WaitPoint where
  | scan
  | report (h : Harvest)
  | check (h : Harvest)
  | remove (h : Harvest)
  | block
  | asleep
  | done (ret : Int)
  deriving DecidableEq, Repr

structure Call where
  pid : Int
  options : UInt32
  point : WaitPoint
  deriving DecidableEq, Repr

/-- Where a `notify_exit` stands: before it reads the parent's pid, before the first look of `wake_pid` at the parent's
    state, before its section under the lock, or at its end. -/
inductive NotifyPoint where
  | readParent
  | check (ppid : Nat)
  | lock (ppid : Nat)
  | done
  deriving DecidableEq, Repr

/-- The table, the `wait4` of each process and the `notify_exit` of each process that has exited. `reports` lists the
    zombies that calls without `WNOWAIT` have returned; no function reads it. -/
structure State where
  table : Table
  nextPid : Nat
  calls : Nat → Option Call
  notifies : Nat → Option NotifyPoint
  reports : List Nat

namespace State

def setCall (s : State) (caller : Nat) (c : Call) : State := { s with calls := Function.update s.calls caller (some c) }

def setNotify (s : State) (pid : Nat) (p : NotifyPoint) : State :=
  { s with notifies := Function.update s.notifies pid (some p) }

def finish (s : State) (caller : Nat) (c : Call) (h : Harvest) : State :=
  let s := s.setCall caller { c with point := .done h.childPid }
  if c.options &&& WNOWAIT = 0 ∧ h.zombie = true then { s with reports := s.reports ++ [h.childPid] } else s

/-- The next step of the `wait4` of `caller`, which has to run for it; `pending` is `has_pending_signal`. -/
def waitStep (s : State) (caller : Nat) (pending : Bool) : Option State :=
  match s.calls caller, s.table.stateOf caller with
  | some c, some .running =>
    match c.point with
    | .scan =>
      match Wait.scan caller c.pid c.options false s.table with
      | .harvested h =>
        if c.options &&& WNOWAIT = 0 then some (s.setCall caller { c with point := .report h })
        else some (s.finish caller c h)
      | .hasLiving =>
        some (s.setCall caller { c with point := if c.options &&& WNOHANG ≠ 0 then .done 0 else .block })
      | .noChild => some (s.setCall caller { c with point := .done ECHILD })
    | .report h =>
      some ({ s with table := s.table.modify h.childPid Proc.report }.setCall caller { c with point := .check h })
    | .check h =>
      if s.table.stateOf h.childPid = some .zombie then some (s.setCall caller { c with point := .remove h })
      else some (s.finish caller c h)
    | .remove h => some ({ s with table := s.table.swapRemove h.childPid }.finish caller c h)
    | .block => some ({ s with table := s.table.setState caller .blocked }.setCall caller { c with point := .asleep })
    | .asleep => some (s.setCall caller { c with point := if pending then .done EINTR else .scan })
    | .done _ => none
  | _, _ => none

/-- A `wake_pid` from its look under the lock on. -/
def wake (s : State) (pid : Nat) : State :=
  if s.table.stateOf pid = some .blocked then { s with table := s.table.setState pid .ready } else s

def notifyStep (s : State) (pid : Nat) : Option State :=
  match s.notifies pid with
  | some .readParent =>
    let ppid := ((s.table.find pid).map (·.ppid)).getD 0
    some (s.setNotify pid (if ppid = 0 then .done else .check ppid))
  | some (.check ppid) =>
    some (s.setNotify pid (if s.table.stateOf ppid = some .blocked then .lock ppid else .done))
  | some (.lock ppid) => some ((s.wake ppid).setNotify pid .done)
  | _ => none

/-- `zombify`, after which the `notify_exit` begins. -/
def exit (s : State) (pid : Nat) (code : Int32) : State :=
  { s with table := s.table.modify pid fun p => { p with exitCode := encodeExit code, state := .zombie } }.setNotify pid
    .readParent

end State

/-- A fork, the start of a ready process on a CPU, an exit, a stop, a continuation, a call of `wait4` or a further step of
    it, a further step of a `notify_exit`, and a `wake_pid` by someone else. -/
inductive Event where
  | fork (ppid pgid : Nat)
  | run (pid : Nat)
  | exit (pid : Nat) (code : Int32)
  | stop (pid : Nat) (stopsig : UInt32)
  | cont (pid : Nat)
  | wait4 (caller : Nat) (pid : Int) (options : UInt32)
  | waitStep (caller : Nat) (pending : Bool)
  | notifyStep (pid : Nat)
  | wake (pid : Nat)
  deriving DecidableEq

def Table.alive (t : Table) (pid : Nat) : Bool := (t.stateOf pid).isSome && t.stateOf pid ≠ some .zombie

def Call.finished (c : Call) : Bool :=
  match c.point with
  | .done _ => true
  | _ => false

def State.step (s : State) : Event → Option State
  | .fork ppid pgid =>
    some { s with table := s.table ++ [⟨s.nextPid, ppid, pgid, .ready, 0, 0, 0⟩], nextPid := s.nextPid + 1 }
  | .run pid =>
    if s.table.stateOf pid = some .ready then some { s with table := s.table.setState pid .running } else none
  | .exit pid code => if s.table.alive pid then some (s.exit pid code) else none
  | .stop pid stopsig =>
    if s.table.alive pid then
      some { s with table := s.table.modify pid fun p => { p with exitCode := encodeStop stopsig, state := .stopped } }
    else none
  | .cont pid =>
    if s.table.alive pid then
      some { s with table := s.table.modify pid fun p => { p with exitCode := WSTATUS_CONTINUED, state := .continued } }
    else none
  | .wait4 caller pid options =>
    if s.table.stateOf caller = some .running ∧ (s.calls caller).all Call.finished then
      some (s.setCall caller ⟨pid, options, .scan⟩)
    else none
  | .waitStep caller pending => s.waitStep caller pending
  | .notifyStep pid => s.notifyStep pid
  | .wake pid => some (s.wake pid)

def State.new : State where
  table := [⟨1, 0, 1, .ready, 0, 0, 0⟩]
  nextPid := 2
  calls := fun _ => none
  notifies := fun _ => none
  reports := []

end Moxide.Wait
