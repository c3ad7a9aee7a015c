import Moxide.Lib.SortedMap
import Moxide.Lib.Reach

/-! Advisory file locks (`fs/flock.rs`). Every section under `LOCK_TABLE` is one step of a call. -/

namespace Moxide.FileLocks
open Lib

def LOCK_SH : Int32 := 1
def LOCK_EX : Int32 := 2
def LOCK_NB : Int32 := 4
def LOCK_UN : Int32 := 8

def F_RDLCK : Int16 := 0
def F_WRLCK : Int16 := 1
def F_UNLCK : Int16 := 2

def F_GETLK : Int32 := 5
def F_SETLK : Int32 := 6

def RLIM_INFINITY : Nat := 2 ^ 64 - 1

def U64_MAX : Nat := 2 ^ 64 - 1

structure Flock where
  lType : Int16
  lWhence : Int16
  lStart : Int64
  lLen : Int64
  lPid : UInt32
  deriving DecidableEq

structure LockEntry where
  pid : Nat
  ltype : Int16
  start : Nat
  stop : Nat
  isBsd : Bool
  deriving DecidableEq

/-- `LOCK_TABLE`: the locks by inode. -/
abbrev Table := List (Nat × List LockEntry)

def countLocksFor (tbl : Table) (pid : Nat) : Nat := ((tbl.flatMap (·.2)).filter (·.pid = pid)).length

def checkLockLimit (tbl : Table) (soft pid : Nat) : Int :=
  if soft = RLIM_INFINITY then 0 else if soft ≤ countLocksFor tbl pid then -37 else 0

def rangesOverlap (aStart aEnd bStart bEnd : Nat) : Bool := aStart < bEnd && bStart < aEnd

def conflicts (entry : LockEntry) (pid : Nat) (ltype : Int16) (start stop : Nat) : Bool :=
  if entry.pid = pid then false
  else if !rangesOverlap entry.start entry.stop start stop then false
  else if entry.ltype = F_RDLCK ∧ ltype = F_RDLCK then false
  else true

def lockRange (fl : Flock) : Nat × Nat :=
  let start := fl.lStart.toInt.toNat
  (start, if fl.lLen = 0 then U64_MAX else min (start + fl.lLen.toInt.natAbs) U64_MAX)

def retain (tbl : Table) (inode : Nat) (keep : LockEntry → Bool) : Table := SortedMap.modify inode (·.filter keep) tbl

def locks (tbl : Table) (inode : Nat) : List LockEntry := (SortedMap.get tbl inode).getD []

def releaseBsdLock (tbl : Table) (pid : Nat) (inode : Nat) : Table :=
  retain tbl inode fun e => !(e.pid = pid && e.isBsd)

def releaseAllLocks (tbl : Table) (pid : Nat) : Table := tbl.map fun x => (x.1, x.2.filter (·.pid ≠ pid))

/-- A call of `sys_flock`, or of `sys_fcntl_lock` after it has copied the structure in. -/
inductive Call
  | flock (operation : Int32)
  | fcntl (cmd : Int32) (fl : Flock)

/-- Where a call is; a call that has returned may have written the structure back. -/
inductive Point
  | enter
  | limit
  | acquire
  | done (rc : Int) (out : Option Flock)

structure Thread where
  pid : Nat
  inode : Nat
  call : Call
  point : Point

structure State where
  tbl : Table
  threads : List Thread

/-- The first section of `sys_flock`: release, or give up the old lock. -/
def flockEnter (tbl : Table) (pid : Nat) (inode : Nat) (operation : Int32) : Table × Point :=
  let op := operation &&& ~~~LOCK_NB
  if op = LOCK_UN then (releaseBsdLock tbl pid inode, .done 0 none)
  else if op = LOCK_SH ∨ op = LOCK_EX then
    if (locks tbl inode).any fun e => e.pid = pid && e.isBsd then (releaseBsdLock tbl pid inode, .acquire)
    else (tbl, .limit)
  else (tbl, .done (-22) none)

/-- `F_GETLK`: the first lock in the way, or the structure with `F_UNLCK`. -/
def getlk (tbl : Table) (pid : Nat) (inode : Nat) (fl : Flock) : Flock :=
  let (start, stop) := lockRange fl
  match (locks tbl inode).find? fun e => conflicts e pid fl.lType start stop with
  | some e =>
    { lType := e.ltype, lWhence := 0, lStart := .ofNat e.start, lLen := .ofNat (e.stop - e.start), lPid := .ofNat e.pid }
  | none => { fl with lType := F_UNLCK }

/-- The first section of `sys_fcntl_lock`. -/
def fcntlEnter (tbl : Table) (pid : Nat) (inode : Nat) (cmd : Int32) (fl : Flock) : Table × Point :=
  let (start, stop) := lockRange fl
  let mine := fun e : LockEntry => e.pid = pid && rangesOverlap e.start e.stop start stop
  if cmd = F_GETLK then (tbl, .done 0 (some (getlk tbl pid inode fl)))
  else if fl.lType = F_UNLCK then (retain tbl inode fun e => !mine e, .done 0 none)
  else if (locks tbl inode).any mine then (tbl, .acquire)
  else (tbl, .limit)

/-- A round of the loop at the end of both calls: `old` are the locks the new one takes the place of. -/
def acquire (tbl : Table) (inode : Nat) (new : LockEntry) (old : LockEntry → Bool) (nb : Bool) : Table × Point :=
  let list := locks tbl inode
  if list.any fun e => conflicts e new.pid new.ltype new.start new.stop then
    (SortedMap.insert inode list tbl, if nb then .done (-11) none else .acquire)
  else (SortedMap.insert inode (list.filter (!old ·) ++ [new]) tbl, .done 0 none)

def flockAcquire (tbl : Table) (pid : Nat) (inode : Nat) (operation : Int32) : Table × Point :=
  let ltype := if operation &&& ~~~LOCK_NB = LOCK_SH then F_RDLCK else F_WRLCK
  acquire tbl inode ⟨pid, ltype, 0, U64_MAX, true⟩ (fun _ => false) (operation &&& LOCK_NB ≠ 0)

def fcntlAcquire (tbl : Table) (pid : Nat) (inode : Nat) (cmd : Int32) (fl : Flock) : Table × Point :=
  let (start, stop) := lockRange fl
  acquire tbl inode ⟨pid, fl.lType, start, stop, false⟩ (fun e => e.pid = pid && rangesOverlap e.start e.stop start stop)
    (cmd = F_SETLK)

/-- The next section of a call, with the soft limit that it reads. -/
def Thread.section (t : Thread) (tbl : Table) (soft : Nat) : Table × Point :=
  match t.point, t.call with
  | .enter, .flock operation => flockEnter tbl t.pid t.inode operation
  | .enter, .fcntl cmd fl => fcntlEnter tbl t.pid t.inode cmd fl
  | .limit, _ =>
    let rc := checkLockLimit tbl soft t.pid
    (tbl, if rc < 0 then .done rc none else .acquire)
  | .acquire, .flock operation => flockAcquire tbl t.pid t.inode operation
  | .acquire, .fcntl cmd fl => fcntlAcquire tbl t.pid t.inode cmd fl
  | .done rc out, _ => (tbl, .done rc out)

inductive Event
  | begin (pid : Nat) (inode : Nat) (call : Call)
  | run (thread soft : Nat)
  | releaseBsd (pid : Nat) (inode : Nat)
  | releaseAll (pid : Nat)

def State.step (s : State) : Event → State
  | .begin pid inode call => { s with threads := s.threads ++ [⟨pid, inode, call, .enter⟩] }
  | .run i soft =>
    match s.threads[i]? with
    | none => s
    | some t =>
      let (tbl, point) := t.section s.tbl soft
      ⟨tbl, s.threads.set i { t with point }⟩
  | .releaseBsd pid inode => { s with tbl := releaseBsdLock s.tbl pid inode }
  | .releaseAll pid => { s with tbl := releaseAllLocks s.tbl pid }

def Reachable : State → Prop := Reach (fun s e t => State.step s e = t) (fun _ _ => True) ⟨[], []⟩

end Moxide.FileLocks
