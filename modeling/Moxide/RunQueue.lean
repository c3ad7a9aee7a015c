import Mathlib

/-! The run queue of a CPU (`RunQueue` of `proc/scheduler.rs`). A pid stands for the pointers to its task as well. Which
    one of several greatest entries `pop` takes is left open. -/

namespace Moxide.Scheduler
open Function (update)

abbrev Pid := { p : UInt32 // p ≠ 0 }

instance lawfulBEq_pid : LawfulBEq Pid := inferInstance

inductive SchedPolicy where
  | normal | fifo | rr | batch | idle | deadline
  deriving DecidableEq, Repr

def NICE0_WEIGHT : UInt64 := 1024

/-- `n` times `w * num / den`. -/
def scaleWeight (num den : UInt64) : Nat → UInt64 → UInt64
  | 0, w => w
  | n + 1, w => scaleWeight num den n (w * num / den)

def niceToWeight (nice : Int8) : UInt64 :=
  let n := max (-20) (min 19 nice.toInt)
  if n = 0 then NICE0_WEIGHT
  else if 0 < n then max (scaleWeight 4 5 n.toNat NICE0_WEIGHT) 1
  else scaleWeight 5 4 (-n).toNat NICE0_WEIGHT

/-- The weight is set together with the nice value, and from it, wherever it is set. -/
structure SchedEntity where
  vruntime : UInt64
  weight : UInt64
  nice : Int8
  rtPriority : UInt8
  dlAbsDeadline : UInt64
  policy : SchedPolicy
  cpumask : UInt64
  lastCpu : UInt32
  onRq : Bool
  weight_eq : weight = niceToWeight nice

def SchedEntity.new (nice : Int8) : SchedEntity where
  vruntime := 0
  weight := niceToWeight nice
  nice := nice
  rtPriority := 0
  dlAbsDeadline := 0
  policy := .normal
  cpumask := 0xFFFFFFFFFFFFFFFF
  lastCpu := 0
  onRq := false
  weight_eq := rfl

abbrev Tasks := Pid → SchedEntity

/-! ### Entries -/

structure CfsEntry where
  vruntime : UInt64
  pid : Pid
  deriving DecidableEq

structure RtEntry where
  rtPriority : UInt8
  enqueueSeq : UInt64
  pid : Pid
  deriving DecidableEq

structure DlEntry where
  absDeadline : UInt64
  pid : Pid
  deriving DecidableEq

/-- `cmp` compares the vruntimes the other way round. -/
def CfsEntry.le (a b : CfsEntry) : Bool := b.vruntime ≤ a.vruntime

/-- By priority, then by the reverse of the sequence numbers. -/
def RtEntry.le (a b : RtEntry) : Bool :=
  a.rtPriority < b.rtPriority || a.rtPriority = b.rtPriority && b.enqueueSeq ≤ a.enqueueSeq

def DlEntry.le (a b : DlEntry) : Bool := b.absDeadline ≤ a.absDeadline

/-- `BinaryHeap::pop`, where it takes the `i`th entry; `none` if that is not a greatest one. -/
def pop {α : Type} (le : α → α → Bool) (heap : List α) (i : Nat) : Option (α × List α) :=
  match heap[i]? with
  | none => none
  | some e => if heap.all (le · e) then some (e, heap.eraseIdx i) else none

/-! ### The run queue -/

structure RunQueue where
  cfsHeap : List CfsEntry
  minVruntime : UInt64
  rtHeap : List RtEntry
  rtSeq : UInt64
  dlHeap : List DlEntry
  batchHeap : List CfsEntry
  idleQueue : List Pid
  nrRunning : UInt32
  loadWeight : UInt64

def saturatingSub32 (a b : UInt32) : UInt32 := if a < b then 0 else a - b
def saturatingSub64 (a b : UInt64) : UInt64 := if a < b then 0 else a - b

namespace RunQueue

def new : RunQueue where
  cfsHeap := []
  minVruntime := 0
  rtHeap := []
  rtSeq := 0
  dlHeap := []
  batchHeap := []
  idleQueue := []
  nrRunning := 0
  loadWeight := 0

/-- The raise of a task's vruntime to the minimum of the queue. -/
def clampVruntime (rq : RunQueue) (t : SchedEntity) : SchedEntity :=
  if t.vruntime < rq.minVruntime then { t with vruntime := rq.minVruntime } else t

def enqueue (rq : RunQueue) (tasks : Tasks) (pid : Pid) : RunQueue × Tasks :=
  let t := { tasks pid with onRq := true }
  let rq := { rq with nrRunning := rq.nrRunning + 1, loadWeight := rq.loadWeight + t.weight }
  match t.policy with
  | .deadline => ({ rq with dlHeap := rq.dlHeap ++ [⟨t.dlAbsDeadline, pid⟩] }, update tasks pid t)
  | .fifo | .rr =>
    ({ rq with rtSeq := rq.rtSeq + 1, rtHeap := rq.rtHeap ++ [⟨t.rtPriority, rq.rtSeq, pid⟩] },
      update tasks pid t)
  | .normal =>
    let t := rq.clampVruntime t
    ({ rq with cfsHeap := rq.cfsHeap ++ [⟨t.vruntime, pid⟩] }, update tasks pid t)
  | .batch =>
    let t := rq.clampVruntime t
    ({ rq with batchHeap := rq.batchHeap ++ [⟨t.vruntime, pid⟩] }, update tasks pid t)
  | .idle => ({ rq with idleQueue := rq.idleQueue ++ [pid] }, update tasks pid t)

/-- What is done with a task that leaves the queue in any of the ways below. -/
def release (rq : RunQueue) (tasks : Tasks) (pid : Pid) : RunQueue × Tasks :=
  ({ rq with
      nrRunning := saturatingSub32 rq.nrRunning 1
      loadWeight := saturatingSub64 rq.loadWeight (tasks pid).weight },
    update tasks pid { tasks pid with onRq := false })

def dequeueCfs (rq : RunQueue) (tasks : Tasks) (i : Nat) : Option (Pid × RunQueue × Tasks) :=
  (pop CfsEntry.le rq.cfsHeap i).map fun (e, heap) =>
    let (rq, tasks) := { rq with cfsHeap := heap }.release tasks e.pid
    let vruntime := (tasks e.pid).vruntime
    (e.pid, if rq.minVruntime < vruntime then { rq with minVruntime := vruntime } else rq, tasks)

def dequeueRt (rq : RunQueue) (tasks : Tasks) (i : Nat) : Option (Pid × RunQueue × Tasks) :=
  (pop RtEntry.le rq.rtHeap i).map fun (e, heap) => (e.pid, { rq with rtHeap := heap }.release tasks e.pid)

def dequeueDl (rq : RunQueue) (tasks : Tasks) (i : Nat) : Option (Pid × RunQueue × Tasks) :=
  (pop DlEntry.le rq.dlHeap i).map fun (e, heap) => (e.pid, { rq with dlHeap := heap }.release tasks e.pid)

def dequeueBatch (rq : RunQueue) (tasks : Tasks) (i : Nat) : Option (Pid × RunQueue × Tasks) :=
  (pop CfsEntry.le rq.batchHeap i).map fun (e, heap) => (e.pid, { rq with batchHeap := heap }.release tasks e.pid)

def dequeueIdle (rq : RunQueue) (tasks : Tasks) : Option (Pid × RunQueue × Tasks) :=
  match rq.idleQueue with
  | [] => none
  | pid :: rest => some (pid, { rq with idleQueue := rest }.release tasks pid)

/-- `dequeue_next`, where a heap gives up its `i`th entry: the task, if any, and the queue; `none` if the heap cannot. -/
def dequeueNext (rq : RunQueue) (tasks : Tasks) (i : Nat) : Option (Option Pid × RunQueue × Tasks) :=
  let found := Option.map fun (x : Pid × RunQueue × Tasks) => (some x.1, x.2)
  if rq.dlHeap ≠ [] then found (rq.dequeueDl tasks i)
  else if rq.rtHeap ≠ [] then found (rq.dequeueRt tasks i)
  else if rq.cfsHeap ≠ [] then found (rq.dequeueCfs tasks i)
  else if rq.batchHeap ≠ [] then found (rq.dequeueBatch tasks i)
  else if rq.idleQueue ≠ [] then found (rq.dequeueIdle tasks)
  else some (none, rq, tasks)

/-- The loop over the entries of a heap that is rebuilt without those of `pid`: the entries pushed, and whether one of
    `pid` was found. -/
def sweep {α : Type} (pidOf : α → Pid) (pid : Pid) (rq : RunQueue) (tasks : Tasks) :
    List α → List α × Bool × RunQueue × Tasks
  | [] => ([], false, rq, tasks)
  | e :: old =>
    if pidOf e = pid then
      let (rq, tasks) := rq.release tasks (pidOf e)
      let (heap, _, rest) := sweep pidOf pid rq tasks old
      (heap, true, rest)
    else
      let (heap, found, rest) := sweep pidOf pid rq tasks old
      (e :: heap, found, rest)

def removePid (rq : RunQueue) (tasks : Tasks) (pid : Pid) : Bool × RunQueue × Tasks :=
  let (rtHeap, found, rq, tasks) := sweep RtEntry.pid pid rq tasks rq.rtHeap
  let rq := { rq with rtHeap := rtHeap }
  if found then (true, rq, tasks)
  else
    let (cfsHeap, found, rq, tasks) := sweep CfsEntry.pid pid rq tasks rq.cfsHeap
    let rq := { rq with cfsHeap := cfsHeap }
    if found then (true, rq, tasks)
    else
      let (dlHeap, found, rq, tasks) := sweep DlEntry.pid pid rq tasks rq.dlHeap
      let rq := { rq with dlHeap := dlHeap }
      if found then (true, rq, tasks)
      else
        let (batchHeap, found, rq, tasks) := sweep CfsEntry.pid pid rq tasks rq.batchHeap
        let rq := { rq with batchHeap := batchHeap }
        if found then (true, rq, tasks)
        else if pid ∈ rq.idleQueue then
          (true, { rq with idleQueue := rq.idleQueue.erase pid }.release tasks pid)
        else (false, rq, tasks)

end RunQueue

/-! ### Runs of one queue -/

/-- A queue and the tasks. `jobs` lists the queued tasks in the order of their arrival, and `enqueues` counts the calls of
    `enqueue`; no function reads them. -/
structure QueueRun where
  rq : RunQueue
  tasks : Tasks
  jobs : List Pid
  enqueues : Nat

inductive QueueEvent where
  | enqueue (pid : Pid)
  | dequeueNext (i : Nat)
  | removePid (pid : Pid)
  | setSched (pid : Pid) (t : SchedEntity)

namespace QueueRun

def new (tasks : Tasks) : QueueRun := ⟨.new, fun pid => { tasks pid with onRq := false }, [], 0⟩

def enqueue (s : QueueRun) (pid : Pid) : QueueRun :=
  let (rq, tasks) := s.rq.enqueue s.tasks pid
  ⟨rq, tasks, s.jobs ++ [pid], s.enqueues + 1⟩

def dequeueNext (s : QueueRun) (i : Nat) : Option (Option Pid × QueueRun) :=
  (s.rq.dequeueNext s.tasks i).map fun (next, rq, tasks) =>
    (next, ⟨rq, tasks, s.jobs.filter (some · ≠ next), s.enqueues⟩)

def removePid (s : QueueRun) (pid : Pid) : Bool × QueueRun :=
  let (found, rq, tasks) := s.rq.removePid s.tasks pid
  (found, ⟨rq, tasks, s.jobs.filter (· ≠ pid), s.enqueues⟩)

def step (s : QueueRun) : QueueEvent → Option QueueRun
  | .enqueue pid => some (s.enqueue pid)
  | .dequeueNext i => (s.dequeueNext i).map (·.2)
  | .removePid pid => some (s.removePid pid).2
  | .setSched pid t => some { s with tasks := update s.tasks pid { t with onRq := (s.tasks pid).onRq } }

end QueueRun

end Moxide.Scheduler
