import Moxide.Pipe

/-! The descriptor tables of the processes (`fs/process_fd.rs`) over the tables of the subsystems. Of a socket, an eventfd,
    an inotify instance or a raw descriptor only its existence is kept. The tables of the other subsystems (procfs, sysfs,
    cgroupfs, timerfd, fanotify) start at other numbers. -/

namespace Moxide.ProcessFd
open Function (update)

def O_CLOEXEC_FLAG : UInt32 := 0o2000000
def O_NONBLOCK : UInt32 := 0o4000
def O_APPEND : UInt32 := 0o2000

/-- `PIPE_FD_BASE` and `INOTIFY_FD_BASE`, where the numbers of scheme descriptors start as well. -/
def FD_BASE : Nat := 0x80000000
def MAX_SOCKETS : Nat := 4096
def RAW_FD_BASE : Nat := 1024
def RAW_FD_END : Nat := 4096

/-- The first of the `n` numbers from `i` on that is not in use. -/
def firstFree (used : Nat → Bool) : Nat → Nat → Option Nat
  | 0, _ => none
  | n + 1, i => if used i then firstFree used n (i + 1) else some i

/-! ### The table of a process -/

structure FdEntry where
  backingFd : Nat
  path : Option String
  cloexec : Bool
  nonblock : Bool
  flFlags : UInt32
  deriving DecidableEq, Repr

def FdEntry.new (backingFd : Nat) (path : Option String) (flags : UInt32) : FdEntry :=
  let fl : UInt32 := if flags &&& 3 = 0 then 0 else if flags &&& 3 = 1 then 1 else 2
  ⟨backingFd, path, flags &&& O_CLOEXEC_FLAG ≠ 0, flags &&& O_NONBLOCK ≠ 0,
    if flags &&& O_APPEND ≠ 0 then fl ||| 0o2000 else fl⟩

abbrev FdTable := List (Nat × FdEntry)

namespace FdTable

def get (t : FdTable) (fd : Nat) : Option FdEntry := (t.find? (·.1 = fd)).map (·.2)

def remove (t : FdTable) (fd : Nat) : FdTable := t.filter (·.1 ≠ fd)

def insert (t : FdTable) (fd : Nat) (e : FdEntry) : FdTable :=
  let t := t.remove fd
  t.takeWhile (·.1 < fd) ++ (fd, e) :: t.dropWhile (·.1 < fd)

def contains (t : FdTable) (fd : Nat) : Bool := t.any (·.1 = fd)

/-- The loop of `alloc_fd` ends after at most as many steps as the table has entries. -/
def allocFd (t : FdTable) (min : Nat) : Nat := (firstFree t.contains (t.length + 1) min).getD min

end FdTable

/-! ### The subsystems -/

/-- A scheme and a file id of it: an end of a pipe (`PipeScheme` with its `ring_bfd`), an inotify instance, or a file of
    another scheme. -/
inductive SchemeFdEntry where
  | pipe (ringBfd fid : Nat)
  | inotify (fdno : Nat)
  | other (fid : UInt64)
  deriving DecidableEq, Repr

/-- `PROC_FD_TABLES`, `PIPE_TABLE` (a pipe is named by the number of its read end) with `NEXT_PIPE_FD`, `SCHEME_FD_STORE`
    with `SCHEME_FD_COUNTER` and `FREE_SCHEME_FDS` (last freed first), the `TABLE` and `COUNTER` of inotify, `SOCKETS`,
    `EVENTFDS` and `RAW_FDS`. -/
structure State where
  procs : Nat → Option FdTable
  pipes : Nat → Option Nat
  readOpen : Nat → UInt32
  writeOpen : Nat → UInt32
  nextPipeFd : Nat
  schemes : Nat → Option SchemeFdEntry
  schemeCounter : Nat
  freeSchemeFds : List Nat
  inotify : Nat → Bool
  inotifyCounter : Nat
  sockets : Nat → Bool
  eventfds : Nat → Bool
  rawFds : Nat → Bool

namespace State

def new : State where
  procs := fun _ => none
  pipes := fun _ => none
  readOpen := fun _ => 0
  writeOpen := fun _ => 0
  nextPipeFd := 0
  schemes := fun _ => none
  schemeCounter := FD_BASE
  freeSchemeFds := []
  inotify := fun _ => false
  inotifyCounter := 0
  sockets := fun _ => false
  eventfds := fun _ => false
  rawFds := fun _ => false

def isPipe (s : State) (bfd : Nat) : Bool := FD_BASE ≤ bfd && (s.pipes bfd).isSome

def pipeDup (s : State) (bfd : Nat) : State :=
  if bfd < FD_BASE then s
  else match s.pipes bfd with
    | none => s
    | some p =>
      if bfd % 2 = 0 then { s with readOpen := update s.readOpen p (Pipe.saturatingAdd1 (s.readOpen p)) }
      else { s with writeOpen := update s.writeOpen p (Pipe.saturatingAdd1 (s.writeOpen p)) }

def sysClosePipe (s : State) (bfd : Nat) : State :=
  match s.pipes bfd with
  | none => s
  | some p =>
    let s :=
      if bfd % 2 = 0 then { s with readOpen := update s.readOpen p (Pipe.saturatingSub1 (s.readOpen p)) }
      else { s with writeOpen := update s.writeOpen p (Pipe.saturatingSub1 (s.writeOpen p)) }
    { s with pipes := update s.pipes bfd none }

def allocSchemeBackingFd (s : State) : State × Nat :=
  match s.freeSchemeFds with
  | fd :: rest => ({ s with freeSchemeFds := rest }, fd)
  | [] => ({ s with schemeCounter := s.schemeCounter + 1 }, s.schemeCounter)

def schemeFdRegister (s : State) (bfd : Nat) (e : SchemeFdEntry) : State :=
  { s with schemes := update s.schemes bfd (some e) }

def isInotifyFd (s : State) (fdno : Nat) : Bool := FD_BASE ≤ fdno && s.inotify fdno

def inotifyClose (s : State) (fdno : Nat) : State := { s with inotify := update s.inotify fdno false }

/-- `scheme.close(fid)`; the files of other schemes are not in the tables modelled. -/
def schemeClose (s : State) : SchemeFdEntry → State
  | .pipe ringBfd fid => s.sysClosePipe (ringBfd + fid % 2)
  | .inotify fdno => s.inotifyClose fdno
  | .other _ => s

def schemeFdClose (s : State) (bfd : Nat) : State :=
  match s.schemes bfd with
  | none => s
  | some e =>
    let s := { s with schemes := update s.schemes bfd none }.schemeClose e
    { s with freeSchemeFds := bfd :: s.freeSchemeFds }

/-- `vfs::dup_from`; `none` is an error. -/
def dupFrom (s : State) (fd minFd : Nat) : State × Option Nat :=
  if !s.rawFds fd then (s, none)
  else
    let start := max minFd RAW_FD_BASE
    match firstFree s.rawFds (RAW_FD_END - start) start with
    | some n => ({ s with rawFds := update s.rawFds n true }, some n)
    | none => (s, none)

def vfsClose (s : State) (fd : Nat) : State := { s with rawFds := update s.rawFds fd false }

/-- `socket_dup`, `efd_dup` and `inotify_dup` do nothing. -/
def dupBacking (s : State) (bfd : Nat) : State × Nat :=
  if s.isPipe bfd then (s.pipeDup bfd, bfd)
  else if s.sockets bfd then (s, bfd)
  else if s.eventfds bfd then (s, bfd)
  else if s.isInotifyFd bfd then (s, bfd)
  else
    let (s, r) := s.dupFrom bfd bfd
    (s, r.getD bfd)

def closeBacking (s : State) (bfd : Nat) : State :=
  if s.isInotifyFd bfd then s.inotifyClose bfd
  else if s.eventfds bfd then { s with eventfds := update s.eventfds bfd false }
  else if s.isPipe bfd then s.sysClosePipe bfd
  else if s.sockets bfd then { s with sockets := update s.sockets bfd false }
  else if (s.schemes bfd).isSome then s.schemeFdClose bfd
  else s.vfsClose bfd

/-! ### The calls on descriptor tables -/

def setTable (s : State) (pid : Nat) (t : FdTable) : State := { s with procs := update s.procs pid (some t) }

def procFdInstall (s : State) (pid bfd : Nat) (path : Option String) (flags : UInt32) (preferred : Option Nat) :
    State × Nat :=
  let t := (s.procs pid).getD []
  let fd := preferred.getD (t.allocFd 3)
  (s.setTable pid (t.insert fd (.new bfd path flags)), fd)

def procFdClose (s : State) (pid fd : Nat) : State × Int :=
  match s.procs pid with
  | none => (s, -9)
  | some t =>
    match t.get fd with
    | none => (s, -9)
    | some e =>
      let s := s.setTable pid (t.remove fd)
      (if 2 < fd then s.closeBacking e.backingFd else s, 0)

def procFdDup2 (s : State) (pid oldFd newFd : Nat) : State × Int :=
  if oldFd = newFd then (s, oldFd)
  else match (s.procs pid).bind (·.get oldFd) with
    | none => (s, -9)
    | some old =>
      let (s, bfd) := s.dupBacking old.backingFd
      let s := (s.procFdClose pid newFd).1
      let t := (s.procs pid).getD []
      (s.setTable pid (t.insert newFd { old with backingFd := bfd, cloexec := false }), newFd)

/-- The loop of `proc_fd_fork` over the entries of the parent. -/
def forkLoop (s : State) : FdTable → State × FdTable
  | [] => (s, [])
  | (fd, e) :: rest =>
    let (s, bfd) := if fd ≤ 2 then (s, e.backingFd) else s.dupBacking e.backingFd
    let (s, t) := s.forkLoop rest
    (s, (fd, { e with backingFd := bfd }) :: t)

def procFdFork (s : State) (parentPid childPid : Nat) : State :=
  match s.procs parentPid with
  | none => s
  | some parent =>
    let (s, child) := s.forkLoop parent
    s.setTable childPid child

/-- The loop of `proc_fd_close_on_exec`. -/
def execLoop (s : State) (pid : Nat) : FdTable → State
  | [] => s
  | (fd, e) :: rest =>
    let s := s.closeBacking e.backingFd
    let s := match s.procs pid with
      | none => s
      | some t => s.setTable pid (t.remove fd)
    s.execLoop pid rest

def procFdCloseOnExec (s : State) (pid : Nat) : State :=
  match s.procs pid with
  | none => s
  | some t => s.execLoop pid (t.filter (·.2.cloexec))

/-- The loop of `proc_fd_free`. -/
def freeLoop (s : State) : FdTable → State
  | [] => s
  | (_, e) :: rest => (s.closeBacking e.backingFd).freeLoop rest

def procFdFree (s : State) (pid : Nat) : State :=
  match s.procs pid with
  | none => s
  | some t => { s with procs := update s.procs pid none }.freeLoop t

/-! ### New objects -/

/-- `sys_eventfd2` and the installation of its descriptor. -/
def newEventfd (s : State) (pid : Nat) (flags : UInt32) (preferred : Option Nat) : State :=
  match firstFree s.rawFds (RAW_FD_END - RAW_FD_BASE) RAW_FD_BASE with
  | none => s
  | some bfd =>
    let s := { s with
      rawFds := update s.rawFds bfd true
      eventfds := update s.eventfds bfd true }
    (s.procFdInstall pid bfd none flags preferred).1

/-- `sys_socket` and the installation of its descriptor. -/
def newSocket (s : State) (pid : Nat) (flags : UInt32) (preferred : Option Nat) : State :=
  match firstFree s.sockets MAX_SOCKETS 0 with
  | none => s
  | some bfd =>
    let s := { s with sockets := update s.sockets bfd true }
    (s.procFdInstall pid bfd none flags preferred).1

/-- A file of a scheme other than that of pipes, and the installation of its descriptor. -/
def openScheme (s : State) (pid : Nat) (fid : UInt64) (path : Option String) (flags : UInt32) (preferred : Option Nat) :
    State :=
  let (s, bfd) := s.allocSchemeBackingFd
  let s := s.schemeFdRegister bfd (.other fid)
  (s.procFdInstall pid bfd path flags preferred).1

/-- `sys_inotify_init1`; the entry of the scheme store has the instance's key in the table. -/
def sysInotifyInit1 (s : State) (pid : Nat) (flags : UInt32) : State :=
  let fdno := FD_BASE + s.inotifyCounter
  let s := { s with inotifyCounter := s.inotifyCounter + 1, inotify := update s.inotify fdno true }
  let (s, bfd) := s.allocSchemeBackingFd
  let s := s.schemeFdRegister bfd (.inotify fdno)
  (s.procFdInstall pid bfd none (flags &&& O_CLOEXEC_FLAG) none).1

def nextPipeFds (s : State) : Nat × Nat := (FD_BASE + s.nextPipeFd, FD_BASE + s.nextPipeFd + 1)

/-- The part of `sys_pipe2` that makes the pipe and its scheme descriptors. -/
def makePipe (s : State) : State × Nat × Nat :=
  let (readBfd, writeBfd) := s.nextPipeFds
  let s := { s with
    nextPipeFd := s.nextPipeFd + 2
    pipes := update (update s.pipes readBfd (some readBfd)) writeBfd (some readBfd)
    readOpen := update s.readOpen readBfd 1
    writeOpen := update s.writeOpen readBfd 1 }
  let (s, schemeReadBfd) := s.allocSchemeBackingFd
  let (s, schemeWriteBfd) := s.allocSchemeBackingFd
  ((s.schemeFdRegister schemeReadBfd (.pipe readBfd 0)).schemeFdRegister schemeWriteBfd (.pipe readBfd 1),
    schemeReadBfd, schemeWriteBfd)

/-- `valid` and `copied` are the outcomes of `validate_user_ptr` and `copy_to_user`, `soft` is the limit of open files. -/
def sysPipe2 (s : State) (pid : Nat) (flags : UInt32) (soft : Nat) (valid copied : Bool) : State × Int :=
  if flags &&& ~~~(O_CLOEXEC_FLAG ||| O_NONBLOCK ||| 0o40000) ≠ 0 then (s, -22)
  else if !valid then (s, -14)
  else
    let (readBfd, writeBfd) := s.nextPipeFds
    let (s, schemeReadBfd, schemeWriteBfd) := s.makePipe
    let openCount := ((s.procs pid).getD []).length
    if soft < openCount + 2 then
      let s := { s with pipes := update (update s.pipes readBfd none) writeBfd none }
      ((s.schemeFdClose schemeReadBfd).schemeFdClose schemeWriteBfd, -24)
    else
      let cloexec := flags &&& O_CLOEXEC_FLAG
      let (s, readFd) := s.procFdInstall pid schemeReadBfd none cloexec none
      let (s, writeFd) := s.procFdInstall pid schemeWriteBfd none (1 ||| cloexec) none
      if copied then (s, 0)
      else
        let s := (s.procFdClose pid readFd).1
        ((s.procFdClose pid writeFd).1, -14)

inductive Event where
  | eventfd (pid : Nat) (flags : UInt32) (preferred : Option Nat)
  | socket (pid : Nat) (flags : UInt32) (preferred : Option Nat)
  | openScheme (pid : Nat) (fid : UInt64) (path : Option String) (flags : UInt32) (preferred : Option Nat)
  | inotify (pid : Nat) (flags : UInt32)
  | pipe2 (pid : Nat) (flags : UInt32) (soft : Nat) (valid copied : Bool)
  | dup2 (pid oldFd newFd : Nat)
  | close (pid fd : Nat)
  | fork (parentPid childPid : Nat)
  | exec (pid : Nat)
  | free (pid : Nat)
  deriving DecidableEq

def step (s : State) : Event → Option State
  | .eventfd pid flags preferred => some (s.newEventfd pid flags preferred)
  | .socket pid flags preferred => some (s.newSocket pid flags preferred)
  | .openScheme pid fid path flags preferred => some (s.openScheme pid fid path flags preferred)
  | .inotify pid flags => some (s.sysInotifyInit1 pid flags)
  | .pipe2 pid flags soft valid copied => some (s.sysPipe2 pid flags soft valid copied).1
  | .dup2 pid oldFd newFd => some (s.procFdDup2 pid oldFd newFd).1
  | .close pid fd => some (s.procFdClose pid fd).1
  | .fork parentPid childPid => some (s.procFdFork parentPid childPid)
  | .exec pid => some (s.procFdCloseOnExec pid)
  | .free pid => some (s.procFdFree pid)

end State

end Moxide.ProcessFd
