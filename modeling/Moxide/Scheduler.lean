import Moxide.RunQueue

/-! `block_current`, `wake_pid` and `schedule` of `proc/scheduler.rs` on several CPUs. A step is a section under a lock, or
    one access to a CPU's queue. Clocks are parameters. -/

namespace Moxide.Scheduler

/-- `State` of `proc/process.rs`. -/
inductive ProcState where
  | ready | running | blocked | zombie | stopped | stopReported | continued
  deriving DecidableEq, Repr

/-- Where a `block_current` stands that has set its process blocked. -/
inductive BlockPoint where
  | remove | clear | schedule
  deriving DecidableEq, Repr

/-- Where a `wake_pid` stands: before the first look at the state, before the section under the lock, before `on_rq` is
    read, before the task is put on a queue, or at its end. -/
inductive WakePoint where
  | check | lock | readOnRq | enqueue | done
  deriving DecidableEq, Repr

structure Wake where
  pid : Pid
  point : WakePoint
  deriving DecidableEq

/-- A CPU with its `block_current` in progress, if any. -/
structure Cpu where
  rq : RunQueue
  current : Option Pid
  block : Option (Pid × BlockPoint)

/-- The CPUs are those below `ncpus`. A process has a task or not (`inner.task` is null). -/
structure State where
  ncpus : Nat
  cpus : Nat → Cpu
  tasks : Tasks
  procs : Pid → ProcState
  hasTask : Pid → Bool
  wakes : List Wake

def SchedEntity.cpuAllowed (t : SchedEntity) (cpu : Nat) : Bool :=
  cpu < 64 && (t.cpumask >>> cpu.toUInt64) &&& 1 = 1

/-- What `schedule` adds to the vruntime of the task that has run. -/
def SchedEntity.charge (t : SchedEntity) (elapsed : UInt64) : SchedEntity :=
  match t.policy with
  | .normal | .batch =>
    if 0 < t.weight then
      let delta := elapsed * NICE0_WEIGHT / t.weight
      { t with vruntime := if t.vruntime + delta < t.vruntime then 0xFFFFFFFFFFFFFFFF else t.vruntime + delta }
    else t
  | .fifo | .rr | .idle | .deadline => t

namespace State

def setCpu (s : State) (c : Nat) (cpu : Cpu) : State := { s with cpus := Function.update s.cpus c cpu }

def setProc (s : State) (pid : Pid) (p : ProcState) : State := { s with procs := Function.update s.procs pid p }

def setWake (s : State) (k : Nat) (w : Wake) : State := { s with wakes := s.wakes.set k w }

/-! ### Steps -/

/-- The loop of `enqueue_task` over the CPUs from `cpu` on: the allowed one of least load. -/
def bestCpu (s : State) (t : SchedEntity) : Nat → Nat → Option (Nat × UInt64) → Option (Nat × UInt64)
  | 0, _, best => best
  | n + 1, cpu, best =>
    let load := (s.cpus cpu).rq.loadWeight
    let better := match best with
      | none => load < 0xFFFFFFFFFFFFFFFF
      | some (_, bestLoad) => load < bestLoad
    s.bestCpu t n (cpu + 1) (if t.cpuAllowed cpu && better then some (cpu, load) else best)

def enqueueOn (s : State) (c : Nat) (pid : Pid) : State :=
  let (rq, tasks) := (s.cpus c).rq.enqueue s.tasks pid
  { s.setCpu c { s.cpus c with rq := rq } with tasks := tasks }

def enqueueTask (s : State) (pid : Pid) : State :=
  let best := ((s.bestCpu (s.tasks pid) s.ncpus 0 none).map (·.1)).getD 0
  { s with tasks := Function.update s.tasks pid { s.tasks pid with lastCpu := best.toUInt32 } }.enqueueOn best pid

/-- The part of `schedule` that puts the previous task back. -/
def putPrev (s : State) (c : Nat) (elapsed : UInt64) : State :=
  match (s.cpus c).current with
  | none => s
  | some pid =>
    let s := { s with tasks := Function.update s.tasks pid ((s.tasks pid).charge elapsed) }
    if s.procs pid = .running ∨ s.procs pid = .ready then (s.setProc pid .ready).enqueueOn c pid else s

/-- The part of `schedule` that takes the next task, where a heap gives up its `i`th entry. -/
def pickNext (s : State) (c : Nat) (i : Nat) : Option State :=
  ((s.cpus c).rq.dequeueNext s.tasks i).map fun (next, rq, tasks) =>
    let s := { s.setCpu c { s.cpus c with rq := rq, current := next } with tasks := tasks }
    match next with
    | none => s
    | some pid => s.setProc pid .running

def schedule (s : State) (c : Nat) (elapsed : UInt64) (i : Nat) : Option State := (s.putPrev c elapsed).pickNext c i

/-- `block_current` up to the end of its section under the lock. -/
def block (s : State) (c : Nat) : Option State :=
  match (s.cpus c).current, (s.cpus c).block with
  | some pid, none =>
    some ((s.setCpu c { s.cpus c with block := some (pid, .remove) }).setProc pid .blocked)
  | _, _ => none

def blockStep (s : State) (c : Nat) (elapsed : UInt64) (i : Nat) : Option State :=
  match (s.cpus c).block with
  | none => none
  | some (pid, .remove) =>
    let (_, rq, tasks) := (s.cpus c).rq.removePid s.tasks pid
    some { s.setCpu c { s.cpus c with rq := rq, block := some (pid, .clear) } with tasks := tasks }
  | some (pid, .clear) => some (s.setCpu c { s.cpus c with current := none, block := some (pid, .schedule) })
  | some (_, .schedule) =>
    (s.schedule c elapsed i).map fun t => t.setCpu c { t.cpus c with block := none }

def wakeStep (s : State) (k : Nat) : Option State :=
  match s.wakes[k]? with
  | none => none
  | some w =>
    match w.point with
    | .check => some (s.setWake k { w with point := if s.procs w.pid = .blocked then .lock else .done })
    | .lock =>
      if s.procs w.pid = .blocked then
        some ((s.setProc w.pid .ready).setWake k { w with point := if s.hasTask w.pid then .readOnRq else .done })
      else some (s.setWake k { w with point := .done })
    | .readOnRq => some (s.setWake k { w with point := if (s.tasks w.pid).onRq then .done else .enqueue })
    | .enqueue => some ((s.enqueueTask w.pid).setWake k { w with point := .done })
    | .done => none

end State

/-- A call of `block_current` on a CPU or a further step of it, a call of `wake_pid` or a further step of it, or a call of
    `schedule` on a CPU that is not in `block_current`. -/
inductive Event where
  | block (c : Nat)
  | blockStep (c : Nat) (elapsed : UInt64) (i : Nat)
  | wake (pid : Pid)
  | wakeStep (k : Nat)
  | schedule (c : Nat) (elapsed : UInt64) (i : Nat)
  deriving DecidableEq

def State.step (s : State) : Event → Option State
  | .block c => if c < s.ncpus then s.block c else none
  | .blockStep c elapsed i => if c < s.ncpus then s.blockStep c elapsed i else none
  | .wake pid => some { s with wakes := s.wakes ++ [⟨pid, .check⟩] }
  | .wakeStep k => s.wakeStep k
  | .schedule c elapsed i => if c < s.ncpus ∧ (s.cpus c).block = none then s.schedule c elapsed i else none

end Moxide.Scheduler
