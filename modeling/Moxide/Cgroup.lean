import Moxide.Lib.SortedMap

/-! Control groups (`proc/cgroup.rs`): a tree of groups with their processes, limits and usage. Ids are `u32`, wrapping
    counters are written with `% 2^w`. Of a process only the `cgroup_id` in its `Pcb` is kept. -/

namespace Moxide.Cgroup
open Lib

abbrev CgroupId := Nat
abbrev Pid := Nat

def ROOT_CGROUP : CgroupId := 1
def U64_MAX : Nat := 2 ^ 64 - 1

/-- The weights and the processor time, which no function here reads, are left out. -/
structure CgroupNode where
  parent : CgroupId
  name : String
  children : List CgroupId := []
  pids : List Pid := []
  memoryMax : Nat := U64_MAX
  pidsMax : Nat := U64_MAX
  nrPids : Nat := 0
  memBytes : Nat := 0
  markedForRemoval : Bool := false
  deriving DecidableEq

def CgroupNode.leave (n : CgroupNode) (pid : Pid) : CgroupNode :=
  { n with pids := n.pids.filter (· ≠ pid), nrPids := n.nrPids - 1 }

def CgroupNode.enter (n : CgroupNode) (pid : Pid) : CgroupNode :=
  { n with pids := n.pids ++ [pid], nrPids := (n.nrPids + 1) % 2 ^ 32 }

/-- `killed` records the processes that `charge_mem` sends SIGKILL to; no function reads it. -/
structure State where
  nextCgid : CgroupId
  nodes : List (CgroupId × CgroupNode)
  procs : List (Pid × CgroupId)
  killed : List Pid
  deriving DecidableEq

namespace State

/-- `CgroupTable::new`, with these processes, all of the root group. -/
def new (pids : List Pid) : State :=
  ⟨2, [(ROOT_CGROUP, { parent := 0, name := "/" })], pids.map fun p => (p, ROOT_CGROUP), []⟩

def node (s : State) (id : CgroupId) : Option CgroupNode := SortedMap.get s.nodes id

def update (s : State) (id : CgroupId) (f : CgroupNode → CgroupNode) : State :=
  { s with nodes := SortedMap.modify id f s.nodes }

/-- The `cgroup_id` of a process, as each function reads it. -/
def cgroupOf (s : State) (pid : Pid) : CgroupId := (SortedMap.get s.procs pid).getD ROOT_CGROUP

def createCgroup (s : State) (parent : CgroupId) (name : String) : State × Except Int CgroupId :=
  match s.node parent with
  | none => (s, .error (-2))
  | some p =>
    if p.children.any fun c => (s.node c).any (·.name == name) then (s, .error (-17))
    else
      let id := s.nextCgid
      let s := { s with nextCgid := (id + 1) % 2 ^ 32,
                        nodes := SortedMap.insert id { parent := parent, name := name } s.nodes }
      (s.update parent fun n => { n with children := n.children ++ [id] }, .ok id)

def free (s : State) (id parent : CgroupId) : State :=
  { s with nodes := SortedMap.remove s.nodes id }.update parent fun n => { n with children := n.children.filter (· ≠ id) }

def removeCgroup (s : State) (id : CgroupId) : State × Int :=
  if id = ROOT_CGROUP then (s, -1)
  else match s.node id with
    | none => (s, -2)
    | some n =>
      if n.children ≠ [] then (s, -39)
      else
        let s := s.update id fun n => { n with markedForRemoval := true }
        if n.pids = [] then (s.free id n.parent, 0) else (s, 0)

def findPidCgroup (s : State) (pid : Pid) : Option CgroupId := (s.nodes.find? fun q => pid ∈ q.2.pids).map (·.1)

/-- The second part of `move_pid`: the process is in no group, or in one that is not looked at again. -/
def moveInto (s : State) (pid : Pid) (target : CgroupId) : State × Int :=
  match s.node target with
  | none => (s, -2)
  | some t => if t.pidsMax ≤ t.nrPids then (s, -11) else (s.update target (CgroupNode.enter · pid), 0)

def movePid (s : State) (pid : Pid) (target : CgroupId) : State × Int :=
  match s.node target with
  | none => (s, -2)
  | some _ =>
    match s.findPidCgroup pid with
    | none => s.moveInto pid target
    | some old => if old = target then (s, 0) else (s.update old (CgroupNode.leave · pid)).moveInto pid target

/-- `write_knob` of `pids.max` with a value that parses. -/
def writePidsMax (s : State) (id : CgroupId) (v : Nat) : State × Int :=
  match s.node id with
  | none => (s, -2)
  | some _ => (s.update id fun n => { n with pidsMax := v }, 0)

def writeMemoryMax (s : State) (id : CgroupId) (v : Nat) : State × Int :=
  match s.node id with
  | none => (s, -2)
  | some _ => (s.update id fun n => { n with memoryMax := v }, 0)

def cgroupFork (s : State) (parent child : Pid) : State :=
  let cgid := s.cgroupOf parent
  let s := { s with procs := SortedMap.modify child (fun _ => cgid) s.procs }
  match s.node cgid with
  | none => s
  | some n => if n.nrPids < n.pidsMax then s.update cgid (CgroupNode.enter · child) else s

def cgroupExit (s : State) (pid : Pid) : State :=
  let cgid := s.cgroupOf pid
  if cgid = ROOT_CGROUP then s
  else match s.node cgid with
    | none => s
    | some n =>
      let n := CgroupNode.leave n pid
      let s := s.update cgid (CgroupNode.leave · pid)
      if n.markedForRemoval && n.pids.isEmpty && n.children.isEmpty then s.free cgid n.parent else s

def addDelta (m : Nat) (delta : Int) : Nat :=
  if 0 ≤ delta then min (m + delta.natAbs) U64_MAX else m - delta.natAbs

/-- The loop of `charge_mem`, for at most so many rounds. -/
def chargeLoop (delta : Int) : Nat → State → CgroupId → Option State
  | 0, _, _ => none
  | fuel + 1, s, cur =>
    match s.node cur with
    | none => some s
    | some n =>
      let s := s.update cur fun n => { n with memBytes := addDelta n.memBytes delta }
      if n.memoryMax < addDelta n.memBytes delta then some { s with killed := s.killed ++ n.pids }
      else if n.parent = 0 then some s
      else chargeLoop delta fuel s n.parent

/-- No path to the root is longer than the number of groups. -/
def chargeMem (s : State) (pid : Pid) (delta : Int) : Option State :=
  chargeLoop delta (s.nodes.length + 1) s (s.cgroupOf pid)

end State

end Moxide.Cgroup
