import Moxide.Seccomp

/-! The chain of filters of a process (`src/security/seccomp.rs`). User memory enters as the outcome of `copy_from_user`, the
    descriptor that `SECCOMP_GET_NOTIF_FD` asks for as a number. -/

namespace Moxide.Seccomp

def SECCOMP_SET_MODE_STRICT : UInt32 := 0
def SECCOMP_SET_MODE_FILTER : UInt32 := 1
def SECCOMP_GET_ACTION_AVAIL : UInt32 := 2
def SECCOMP_GET_NOTIF_FD : UInt32 := 3

def SECCOMP_FILTER_FLAG_TSYNC : UInt32 := 1
def SECCOMP_FILTER_FLAG_LOG : UInt32 := 2

def SECCOMP_RET_KILL_THREAD : UInt32 := 0x00000000
def SECCOMP_RET_TRAP : UInt32 := 0x00030000
def SECCOMP_RET_ERRNO : UInt32 := 0x00050000
def SECCOMP_RET_USER_NOTIF : UInt32 := 0x7FC00000
def SECCOMP_RET_TRACE : UInt32 := 0x7FF00000
def SECCOMP_RET_LOG : UInt32 := 0x7FFC0000
def SECCOMP_RET_ALLOW : UInt32 := 0x7FFF0000
def SECCOMP_RET_ACTION_FULL : UInt32 := 0xFFFF0000
def SECCOMP_RET_DATA : UInt32 := 0x0000FFFF

def AUDIT_ARCH_X86_64 : UInt32 := 0xC000003E

def EPERM : Int := 1
def EFAULT : Int := 14
def EINVAL : Int := 22
def ENOSYS : Int := 38

def SYS_READ : UInt64 := 0
def SYS_WRITE : UInt64 := 1
def SYS_RT_SIGRETURN : UInt64 := 15
def SYS_EXIT : UInt64 := 60
def SYS_EXIT_GROUP : UInt64 := 231

def STRICT_ALLOWLIST : List UInt64 := [SYS_READ, SYS_WRITE, SYS_RT_SIGRETURN, SYS_EXIT, SYS_EXIT_GROUP]

/-! ### Bytes in memory, lowest first -/

def toLeBytes (len n : Nat) : List UInt8 := (List.range len).map fun i => UInt8.ofNat (n >>> (8 * i))

def fromLeBytes (bytes : List UInt8) : Nat := bytes.foldr (fun b n => b.toNat + 256 * n) 0

/-- `nr` is an `i32` taken by its bits. -/
structure SeccompData where
  nr : UInt32
  arch : UInt32
  instructionPointer : UInt64
  args : Vector UInt64 6

def SeccompData.asBytes (d : SeccompData) : List UInt8 :=
  toLeBytes 4 d.nr.toNat ++ toLeBytes 4 d.arch.toNat ++ toLeBytes 8 d.instructionPointer.toNat ++
    d.args.toList.flatMap fun a => toLeBytes 8 a.toNat

inductive SeccompVerdict where
  | allow
  | kill
  | trap
  | errno (n : Int)
  deriving DecidableEq, Repr

structure SeccompFilter where
  insns : List SockFilter
  log : Bool
  deriving DecidableEq, Repr

structure FilterChain where
  filters : List SeccompFilter
  strict : Bool
  deriving DecidableEq, Repr

def seccompActionRank (action : UInt32) : Nat :=
  if action = SECCOMP_RET_KILL_PROCESS then 0
  else if action = SECCOMP_RET_KILL_THREAD then 1
  else if action = SECCOMP_RET_TRAP then 2
  else if action = SECCOMP_RET_ERRNO then 3
  else if action = SECCOMP_RET_USER_NOTIF then 4
  else if action = SECCOMP_RET_TRACE then 5
  else if action = SECCOMP_RET_LOG then 6
  else if action = SECCOMP_RET_ALLOW then 7
  else 0

def actionToVerdict (ret : UInt32) : SeccompVerdict :=
  let action := ret &&& SECCOMP_RET_ACTION_FULL
  if action = SECCOMP_RET_KILL_PROCESS then .kill
  else if action = SECCOMP_RET_KILL_THREAD then .kill
  else if action = SECCOMP_RET_TRAP then .trap
  else if action = SECCOMP_RET_ERRNO then
    let errno : Int := (ret &&& SECCOMP_RET_DATA).toNat
    .errno (if errno = 0 then 1 else errno)
  else if action = SECCOMP_RET_TRACE then .errno EPERM
  else if action = SECCOMP_RET_USER_NOTIF then .errno ENOSYS
  else if action = SECCOMP_RET_LOG ∨ action = SECCOMP_RET_ALLOW then .allow
  else .kill

/-- The body of the loop over the filters: the worst answer so far and its rank. -/
def worse (bytes : List UInt8) (acc : UInt32 × Nat) (filter : SeccompFilter) : UInt32 × Nat :=
  let ret := bpfRun filter.insns bytes
  let rank := seccompActionRank (ret &&& SECCOMP_RET_ACTION_FULL)
  if rank < acc.2 then (ret, rank) else acc

def FilterChain.check (chain : FilterChain) (nr : UInt64) (args : Vector UInt64 6) (savedRip : UInt64) : SeccompVerdict :=
  if chain.strict then if STRICT_ALLOWLIST.contains nr then .allow else .kill
  else if chain.filters.isEmpty then .allow
  else
    let data : SeccompData := ⟨nr.toUInt32, AUDIT_ARCH_X86_64, savedRip, args⟩
    let worst := chain.filters.reverse.foldl (worse data.asBytes) (SECCOMP_RET_ALLOW, seccompActionRank SECCOMP_RET_ALLOW)
    actionToVerdict worst.1

/-! ### The system call -/

/-- The fields of a `Pcb` that seccomp reads. -/
structure Proc where
  seccomp : FilterChain
  capSysAdmin : Bool
  noNewPrivs : Bool
  deriving DecidableEq, Repr

/-- The processes, and the thread groups as `thread::tgid_of` and `thread::threads_of` give them. -/
structure Sys where
  procs : Nat → Option Proc
  tgidOf : Nat → Nat
  threadsOf : Nat → List Nat

namespace Sys

def seccompCheck (s : Sys) (pid : Nat) (nr : UInt64) (args : Vector UInt64 6) (savedRip : UInt64) : SeccompVerdict :=
  if pid = 0 then .allow
  else match s.procs pid with
    | none => .allow
    | some p => p.seccomp.check nr args savedRip

/-- `with_proc_mut` on the chain of a process. -/
def modify (s : Sys) (pid : Nat) (f : FilterChain → FilterChain) : Sys :=
  { s with procs := Function.update s.procs pid ((s.procs pid).map fun p => { p with seccomp := f p.seccomp }) }

def push (filter : SeccompFilter) (chain : FilterChain) : FilterChain :=
  { chain with filters := chain.filters ++ [filter] }

/-- The loop of the `TSYNC` flag. -/
def pushThreads (filter : SeccompFilter) (pid : Nat) (s : Sys) (tids : List Nat) : Sys :=
  tids.foldl (fun s tid => if tid ≠ pid then s.modify tid (push filter) else s) s

/-- The instructions that `sock_fprog` at `argsVa` points to, or the error. -/
def readProgram (user : UInt64 → Nat → Option (List UInt8)) (argsVa : UInt64) : Except Int (List SockFilter) :=
  if argsVa = 0 then .error (-EFAULT)
  else match user argsVa 16 with
    | none => .error (-EFAULT)
    | some fprog =>
      let len := fromLeBytes (fprog.take 2)
      let filterPtr := UInt64.ofNat (fromLeBytes (fprog.drop 8))
      if len = 0 ∨ BPF_MAXINSNS < len then .error (-EINVAL)
      else if filterPtr = 0 then .error (-EFAULT)
      else match user filterPtr (len * 8) with
        | none => .error (-EFAULT)
        | some raw => .ok ((List.range len).map fun i =>
            let b := (raw.drop (i * 8)).take 8
            ⟨UInt16.ofNat (fromLeBytes (b.take 2)), b.getD 2 0, b.getD 3 0, UInt32.ofNat (fromLeBytes (b.drop 4))⟩)

/-- The actions that `SECCOMP_GET_ACTION_AVAIL` names. -/
def available (action : UInt32) : Bool :=
  [SECCOMP_RET_KILL_PROCESS, SECCOMP_RET_KILL_THREAD, SECCOMP_RET_TRAP, SECCOMP_RET_ERRNO, SECCOMP_RET_LOG,
    SECCOMP_RET_ALLOW].contains action

/-- May the process install a filter: it has one, or the capability, or `no_new_privs`? -/
def mayInstall (s : Sys) (pid : Nat) : Bool :=
  (s.procs pid).any fun p => p.seccomp.strict || !p.seccomp.filters.isEmpty || p.capSysAdmin || p.noNewPrivs

def sysSeccomp (s : Sys) (user : UInt64 → Nat → Option (List UInt8)) (eventfd : Int) (pid : Nat)
    (operation flags : UInt32) (argsVa : UInt64) : Sys × Int :=
  if pid = 0 then (s, -EPERM)
  else if ¬ s.mayInstall pid then (s, -EPERM)
  else if operation = SECCOMP_SET_MODE_STRICT then
    if flags ≠ 0 then (s, -EINVAL) else (s.modify pid fun _ => ⟨[], true⟩, 0)
  else if operation = SECCOMP_SET_MODE_FILTER then
    match readProgram user argsVa with
    | .error err => (s, err)
    | .ok insns =>
      let filter : SeccompFilter := ⟨insns, flags &&& SECCOMP_FILTER_FLAG_LOG ≠ 0⟩
      let s := s.modify pid (push filter)
      if flags &&& SECCOMP_FILTER_FLAG_TSYNC ≠ 0 then (pushThreads filter pid s (s.threadsOf (s.tgidOf pid)), 0)
      else (s, 0)
  else if operation = SECCOMP_GET_ACTION_AVAIL then
    match user argsVa 4 with
    | none => (s, -EFAULT)
    | some buf =>
      if available (UInt32.ofNat (fromLeBytes buf) &&& SECCOMP_RET_ACTION_FULL) then (s, 0) else (s, -EINVAL)
  else if operation = SECCOMP_GET_NOTIF_FD then (s, eventfd)
  else (s, -EINVAL)

end Sys

end Moxide.Seccomp
