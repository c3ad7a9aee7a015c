import Moxide.Lib.Ring
import Moxide.WaitQueue

/-! The pipes of `fs/pipe.rs`: the ring buffer, the loops of `pipe_read` and `pipe_write` cut at the sections under the data
    lock, and the table of pipe ends. A call that waits may be woken at any time. -/

namespace Moxide.Pipe
open Sync (WakeReason)
open Function (update)

def PIPE_BUF_SIZE : Nat := 65536
def PIPE_BUF : Nat := 4096
def PIPE_FD_BASE : UInt64 := 0x80000000

def EAGAIN : Int := -11
def EINTR : Int := -4
def EPIPE : Int := -32
def EBADF : Int := -9
def EMFILE : Int := -24

structure PipeInner where
  buf : List UInt8
  head : Nat
  len : Nat
  writeOpen : UInt32
  readOpen : UInt32
  nonblocking : Bool

namespace PipeInner

def new (nonblocking : Bool) : PipeInner := ⟨List.replicate PIPE_BUF_SIZE 0, 0, 0, 1, 1, nonblocking⟩

def capacity (p : PipeInner) : Nat := p.buf.length
def space (p : PipeInner) : Nat := p.capacity - p.len
def isEmpty (p : PipeInner) : Bool := p.len = 0

/-- The bytes stored at the front of a destination of length `dst`, and the ring without them. -/
def readBytes (p : PipeInner) (dst : Nat) : List UInt8 × PipeInner :=
  let n := min dst p.len
  (Lib.Ring.slice p.buf p.head n, { p with head := (p.head + n) % p.capacity, len := p.len - n })

def writeBytes (p : PipeInner) (src : List UInt8) : PipeInner :=
  let tail := (p.head + p.len) % p.capacity
  { p with buf := Lib.Ring.fill p.buf tail src, len := p.len + src.length }

end PipeInner

/-- What `pipe_read` finds under the lock. -/
inductive ReadSection where
  | data (bytes : List UInt8)
  | empty (isEof nonblock : Bool)
  deriving DecidableEq, Repr

/-- What `pipe_write` does under the lock. -/
inductive WriteSection where
  | broken
  | wrote (chunk : List UInt8)
  | full (nonblock : Bool)
  deriving DecidableEq, Repr

def PipeInner.readSection (p : PipeInner) (want : Nat) : PipeInner × ReadSection :=
  if p.isEmpty then (p, .empty (p.writeOpen == 0) p.nonblocking)
  else ((p.readBytes want).2, .data (p.readBytes want).1)

def PipeInner.writeSection (p : PipeInner) (atomic : Bool) (remaining : List UInt8) : PipeInner × WriteSection :=
  if p.readOpen = 0 then (p, .broken)
  else if p.space = 0 then (p, .full p.nonblocking)
  else if atomic then
    if remaining.length ≤ p.space then (p.writeBytes remaining, .wrote remaining)
    else (p, .full p.nonblocking)
  else
    let chunk := remaining.take (min p.space remaining.length)
    (p.writeBytes chunk, .wrote chunk)

/-! ### Calls -/

/-- What a call does next: the section under the lock, waiting on its queue, or nothing, having returned. -/
inductive Point where
  | lock
  | wait
  | done (ret : Int)
  deriving DecidableEq, Repr

/-- A `pipe_read` into a buffer of length `want`; `bytes` is what it stored there. -/
structure Reader where
  want : Nat
  bytes : List UInt8
  point : Point
  deriving DecidableEq, Repr

/-- A `pipe_write` of `buf`; `signalled` if it has sent `SIGPIPE`. -/
structure Writer where
  buf : List UInt8
  written : Nat
  remaining : List UInt8
  atomic : Bool
  signalled : Bool
  point : Point
  deriving DecidableEq, Repr

namespace Reader

def start (want : Nat) : Reader := ⟨want, [], if want = 0 then .done 0 else .lock⟩

def after (r : Reader) : ReadSection → Reader
  | .data bytes => { r with bytes := bytes, point := .done bytes.length }
  | .empty isEof nonblock =>
    { r with point := if isEof then .done 0 else if nonblock then .done EAGAIN else .wait }

def woken (r : Reader) : WakeReason → Reader
  | .cancelled => { r with point := .done EINTR }
  | .ready | .timeout => { r with point := .lock }

end Reader

namespace Writer

def top (w : Writer) : Writer :=
  if w.remaining.isEmpty then { w with point := .done w.written }
  else { w with atomic := w.remaining.length ≤ PIPE_BUF, point := .lock }

def start (buf : List UInt8) : Writer := top ⟨buf, 0, buf, false, false, .lock⟩

/-- A short count where something was written, `err` otherwise. -/
def giveUp (w : Writer) (err : Int) : Writer := { w with point := .done (if w.written = 0 then err else w.written) }

def after (w : Writer) : WriteSection → Writer
  | .broken => giveUp { w with signalled := true } EPIPE
  | .wrote chunk => top { w with written := w.written + chunk.length, remaining := w.remaining.drop chunk.length }
  | .full nonblock => if nonblock then w.giveUp EAGAIN else { w with point := .wait }

def woken (w : Writer) : WakeReason → Writer
  | .cancelled => w.giveUp EINTR
  | .ready | .timeout => { w with point := .lock }

end Writer

inductive Call where
  | read (r : Reader)
  | write (w : Writer)
  deriving DecidableEq, Repr

inductive End where
  | read
  | write
  deriving DecidableEq, Repr

def saturatingAdd1 (n : UInt32) : UInt32 := if n = 0xFFFFFFFF then n else n + 1
def saturatingSub1 (n : UInt32) : UInt32 := if n = 0 then n else n - 1

def PipeInner.dup (p : PipeInner) : End → PipeInner
  | .read => { p with readOpen := saturatingAdd1 p.readOpen }
  | .write => { p with writeOpen := saturatingAdd1 p.writeOpen }

def PipeInner.close (p : PipeInner) : End → PipeInner
  | .read => { p with readOpen := saturatingSub1 p.readOpen }
  | .write => { p with writeOpen := saturatingSub1 p.writeOpen }

/-! ### The calls on one pipe -/

/-- One pipe and all calls made on it. `chunks` and `reads` record, in the order of the sections under the lock,
    what each call stored and took out; no step reads them. -/
structure Stream where
  inner : PipeInner
  calls : List Call
  chunks : List (Nat × List UInt8)
  reads : List (Nat × List UInt8)

def Stream.new (nonblocking : Bool) : Stream := ⟨.new nonblocking, [], [], []⟩

/-- A new call, the section under the lock of the call with number `i`, the end of its wait, or another reference to
    an end and one less. -/
inductive Event where
  | write (buf : List UInt8)
  | read (want : Nat)
  | lock (i : Nat)
  | woken (i : Nat) (reason : WakeReason)
  | dup (e : End)
  | close (e : End)
  deriving DecidableEq, Repr

def ReadSection.record (i : Nat) : ReadSection → List (Nat × List UInt8)
  | .data bytes => [(i, bytes)]
  | .empty _ _ => []

def WriteSection.record (i : Nat) : WriteSection → List (Nat × List UInt8)
  | .wrote chunk => [(i, chunk)]
  | .broken | .full _ => []

def Stream.readLock (s : Stream) (i : Nat) (r : Reader) : Stream :=
  let (inner, out) := s.inner.readSection r.want
  { s with inner := inner, calls := s.calls.set i (.read (r.after out)), reads := s.reads ++ out.record i }

def Stream.writeLock (s : Stream) (i : Nat) (w : Writer) : Stream :=
  let (inner, out) := s.inner.writeSection w.atomic w.remaining
  { s with inner := inner, calls := s.calls.set i (.write (w.after out)), chunks := s.chunks ++ out.record i }

def Stream.step (s : Stream) : Event → Option Stream
  | .write buf => some { s with calls := s.calls ++ [.write (.start buf)] }
  | .read want => some { s with calls := s.calls ++ [.read (.start want)] }
  | .lock i =>
    match s.calls[i]? with
    | some (.read r) => if r.point = .lock then some (s.readLock i r) else none
    | some (.write w) => if w.point = .lock then some (s.writeLock i w) else none
    | none => none
  | .woken i reason =>
    match s.calls[i]? with
    | some (.read r) =>
      if r.point = .wait then some { s with calls := s.calls.set i (.read (r.woken reason)) } else none
    | some (.write w) =>
      if w.point = .wait then some { s with calls := s.calls.set i (.write (w.woken reason)) } else none
    | none => none
  | .dup e => some { s with inner := s.inner.dup e }
  | .close e => some { s with inner := s.inner.close e }

/-! ### The table of ends -/

/-- `PIPE_TABLE` and `NEXT_PIPE_FD`. An `Arc<PipeState>` is the number of the pipe. `refs` counts, for each end, the
    references handed out and not yet closed, and `ends` lists the ends handed out, with the pipe and the side of each; no
    function reads them. -/
structure Table where
  map : UInt64 → Option Nat
  pipes : List PipeInner
  nextPipeFd : UInt64
  refs : UInt64 → Nat
  ends : List (Nat × End × UInt64)

namespace Table

def new : Table := ⟨fun _ => none, [], 0, fun _ => 0, []⟩

def endOf (bfd : UInt64) : End := if bfd &&& 1 = 0 then .read else .write

def allocPipeFds (t : Table) : (UInt64 × UInt64) × Table :=
  let off := t.nextPipeFd
  ((PIPE_FD_BASE + off, PIPE_FD_BASE + off + 1), { t with nextPipeFd := off + 2 })

def insert (t : Table) (bfd : UInt64) (p : Nat) : Table := { t with map := update t.map bfd (some p) }
def remove (t : Table) (bfd : UInt64) : Table := { t with map := update t.map bfd none }

def modify (t : Table) (p : Nat) (f : PipeInner → PipeInner) : Table := { t with pipes := t.pipes.modify p f }

/-- What `sys_pipe2` does to the table, and what it returns; `fits` if the limit on open files allows two more. -/
def sysPipe2 (t : Table) (nonblocking fits : Bool) : Table × Int :=
  let p := t.pipes.length
  let ((readBfd, writeBfd), t) := { t with pipes := t.pipes ++ [PipeInner.new nonblocking] }.allocPipeFds
  let t := (t.insert readBfd p).insert writeBfd p
  if fits then
    ({ t with
        refs := update (update t.refs readBfd 1) writeBfd 1
        ends := t.ends ++ [(p, .read, readBfd), (p, .write, writeBfd)] }, 0)
  else ((t.remove readBfd).remove writeBfd, EMFILE)

def pipeDup (t : Table) (bfd : UInt64) : Table :=
  if bfd < PIPE_FD_BASE then t
  else match t.map bfd with
    | none => t
    | some p => t.modify p (·.dup (endOf bfd))

def sysClosePipe (t : Table) (bfd : UInt64) : Table :=
  match t.map bfd with
  | none => t
  | some p => (t.modify p (·.close (endOf bfd))).remove bfd

/-- `pipe_read` up to its return or its wait. -/
def pipeRead (t : Table) (bfd : UInt64) (want : Nat) : Table × Reader :=
  let r := Reader.start want
  if want = 0 then (t, r)
  else match (t.map bfd).bind fun p => t.pipes[p]?.map (p, ·) with
    | none => (t, { r with point := .done EBADF })
    | some (p, inner) =>
      if bfd &&& 1 ≠ 0 then (t, { r with point := .done EBADF })
      else (t.modify p fun _ => (inner.readSection want).1, r.after (inner.readSection want).2)

/-- `pipe_write` up to its return, its wait or the next round of its loop. -/
def pipeWrite (t : Table) (bfd : UInt64) (buf : List UInt8) : Table × Writer :=
  let w := Writer.start buf
  if buf.isEmpty then (t, w)
  else match (t.map bfd).bind fun p => t.pipes[p]?.map (p, ·) with
    | none => (t, { w with point := .done EBADF })
    | some (p, inner) =>
      if bfd &&& 1 = 0 then (t, { w with point := .done EBADF })
      else (t.modify p fun _ => (inner.writeSection w.atomic buf).1, w.after (inner.writeSection w.atomic buf).2)

inductive Op where
  | pipe2 (nonblocking fits : Bool)
  | dup (bfd : UInt64)
  | close (bfd : UInt64)
  | read (bfd : UInt64) (want : Nat)
  | write (bfd : UInt64) (buf : List UInt8)
  deriving DecidableEq, Repr

/-- An end is duplicated or closed through a reference to it. -/
def step (t : Table) : Op → Option Table
  | .pipe2 nonblocking fits => some (t.sysPipe2 nonblocking fits).1
  | .dup bfd =>
    if t.refs bfd = 0 then none
    else some { t.pipeDup bfd with refs := update t.refs bfd (t.refs bfd + 1) }
  | .close bfd =>
    if t.refs bfd = 0 then none
    else some { t.sysClosePipe bfd with refs := update t.refs bfd (t.refs bfd - 1) }
  | .read bfd want => some (t.pipeRead bfd want).1
  | .write bfd buf => some (t.pipeWrite bfd buf).1

end Table

end Moxide.Pipe
