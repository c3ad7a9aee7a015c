import Moxide.Lib.SortedMap

/-! PID namespaces (`proc/pid_ns.rs`): a tree of namespaces, each with its own numbers for the processes it can see.
    Namespace ids and global pids are unbounded numbers. -/

namespace Moxide.PidNs
open Lib

abbrev NsId := Nat
abbrev Pid := Nat

def INIT_NS : NsId := 0xF000000000000000

structure PidNsEntry where
  parent : NsId
  initPid : Option Pid
  counter : UInt32
  map : List (Pid × UInt32)
  rmap : UInt32 → Option Pid

namespace PidNsEntry

def new (parent : NsId) : PidNsEntry := ⟨parent, none, 1, [], fun _ => none⟩

def alloc (e : PidNsEntry) (g : Pid) : PidNsEntry :=
  { e with
    initPid := e.initPid.or (some g)
    counter := e.counter + 1
    map := SortedMap.insert g e.counter e.map
    rmap := Function.update e.rmap e.counter (some g) }

def localOf (e : PidNsEntry) (g : Pid) : Option UInt32 := SortedMap.get e.map g

def globalOf (e : PidNsEntry) (l : UInt32) : Option Pid := e.rmap l

def remove (e : PidNsEntry) (g : Pid) : PidNsEntry :=
  match SortedMap.get e.map g with
  | none => e
  | some l => { e with map := SortedMap.remove e.map g, rmap := Function.update e.rmap l none }

def isInit (e : PidNsEntry) (g : Pid) : Bool := e.initPid == some g

end PidNsEntry

abbrev Table := NsId → Option PidNsEntry

def eachLevel (f : PidNsEntry → PidNsEntry) : List NsId → Table → Table
  | [], tbl => tbl
  | level :: rest, tbl =>
    if level = INIT_NS then tbl
    else eachLevel f rest (Function.update tbl level ((tbl level).map f))

/-- `killed` records the processes that `kill_namespace` sends SIGKILL to; no function reads it. -/
structure State where
  nextNsId : NsId
  table : Table
  killed : List Pid

namespace State

def initPidNs : State := ⟨1, fun ns => if ns = INIT_NS then some (.new INIT_NS) else none, []⟩

def createPidNs (s : State) (parent : NsId) : State × NsId :=
  ({ s with nextNsId := s.nextNsId + 1, table := Function.update s.table s.nextNsId (some (.new parent)) }, s.nextNsId)

/-- The loop of `ancestor_chain`, for so many rounds. -/
def chain (s : State) : Nat → NsId → List NsId
  | 0, _ => []
  | n + 1, cur =>
    cur :: if cur = INIT_NS then [] else
      match s.table cur with
      | some e => s.chain n e.parent
      | none => []

def ancestorChain (s : State) (ns : NsId) : List NsId := s.chain 32 ns

def registerPid (s : State) (ns : NsId) (g : Pid) : State × UInt32 :=
  if ns = INIT_NS then (s, UInt32.ofNat g)
  else
    ({ s with table := eachLevel (·.alloc g) (s.ancestorChain ns) s.table },
      ((s.table ns).map (·.counter)).getD (UInt32.ofNat g))

def localPid (s : State) (ns : NsId) (g : Pid) : Nat :=
  if ns = INIT_NS then g else (((s.table ns).bind (·.localOf g)).map (·.toNat)).getD g

def globalPid (s : State) (ns : NsId) (l : Nat) : Pid :=
  if ns = INIT_NS then l else ((s.table ns).bind (·.globalOf (UInt32.ofNat l))).getD l

def killNamespace (s : State) (ns : NsId) : State :=
  { s with killed := s.killed ++ ((s.table ns).map fun e => e.map.map (·.1)).getD [] }

def unregisterPid (s : State) (ns : NsId) (g : Pid) : State :=
  if ns = INIT_NS then s
  else
    let isInit := ((s.table ns).map (·.isInit g)).getD false
    let t := { s with table := eachLevel (·.remove g) (s.ancestorChain ns) s.table }
    if isInit then t.killNamespace ns else t

end State

end Moxide.PidNs
