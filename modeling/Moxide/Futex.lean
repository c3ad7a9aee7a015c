import Moxide.Lib.Partition
import Moxide.WaitQueue

/-! The futex calls of `proc/futex.rs` over the wait queues. A step is one access to user memory, one section under the
    lock of `FUTEX_TABLE` or of `PI_CHAIN`, or a step of `wait` or `wake`. Priorities may change at any time. -/

namespace Moxide.Futex
open Sync (Sys WakeReason WaitCall WaitQueue)
open Function (update)

def FUTEX_BITSET_MATCH_ANY : UInt32 := 0xFFFFFFFF
def FUTEX_WAITERS : UInt32 := 0x80000000
def FUTEX_TID_MASK : UInt32 := 0x3FFFFFFF

def USER_SPACE_END : Nat := 0x0000800000000000

structure FutexKey where
  asId : Nat
  uaddr : Nat
  deriving DecidableEq, Repr

structure Waiter where
  pid : Nat
  bitset : UInt32
  deriving DecidableEq, Repr

/-- The `Arc<WaitQueue>` of a bucket is the number of the queue. -/
structure FutexBucket where
  wq : Nat
  waiters : List Waiter
  deriving DecidableEq, Repr

structure PiRecord where
  ownerPid : Nat
  waiters : List Nat
  deriving DecidableEq, Repr

/-- A word of user memory: `copy_from_user` and `copy_to_user` fail where it cannot be read or written. -/
structure Word where
  value : UInt32
  readable : Bool
  writable : Bool
  deriving DecidableEq, Repr

inductive WaitKind where
  | waitBitset
  | lockPi
  deriving DecidableEq, Repr

/-- A registered sleeper: the key and the queue it registered under, and what it waits for. -/
structure Sleep where
  kind : WaitKind
  key : FutexKey
  wq : Nat
  bitset : UInt32
  deadline : Option UInt64
  deriving DecidableEq, Repr

inductive After where
  | woken (n : Nat)
  | requeue (src dst : FutexKey) (count n : Nat)
  | unlocked
  deriving DecidableEq, Repr

inductive Pc where
  | idle
  | waitBitset (key : FutexKey) (expected bitset : UInt32) (deadline : Option UInt64)
  | enter (sl : Sleep)
  | asleep (sl : Sleep)
  | tidyTable (sl : Sleep) (reason : WakeReason)
  | tidyChain (key : FutexKey) (reason : WakeReason)
  | wakeBitset (key : FutexKey) (count : Nat) (mask : UInt32) (requeue : Option (FutexKey × Nat))
  | waking (wq : Nat) (mask : UInt32) (left : Nat) (after : After)
  | inWake (wq : Nat) (mask : UInt32) (left : Nat) (after : After)
  | cmpRequeue (src : FutexKey) (expected : UInt32) (count : Nat) (dst : FutexKey) (requeueCount : Nat)
  | requeue (src dst : FutexKey) (count woken : Nat)
  | lockRead (key : FutexKey) (deadline : UInt64)
  | lockFast (key : FutexKey) (deadline : UInt64)
  | lockContend (key : FutexKey) (deadline : UInt64)
  | lockTable (key : FutexKey) (deadline : UInt64)
  | trylock (key : FutexKey)
  | unlock (key : FutexKey)
  | unlockHand (key : FutexKey)
  | unlockTable (key : FutexKey) (successor : Nat)
  | unlockFind (key : FutexKey) (successor : Nat)
  deriving DecidableEq, Repr

structure Thread where
  pc : Pc
  ret : Option Int
  deriving DecidableEq, Repr

/-- The kernel state that futexes read and change. `holders` records to whom `futex_lock_pi` or `futex_trylock_pi`
    has returned 0, up to the handover in `futex_unlock_pi`; no step reads it. -/
structure State where
  sync : Sys
  nextWq : Nat
  table : FutexKey → Option FutexBucket
  chain : FutexKey → Option PiRecord
  mem : FutexKey → Word
  prio : Nat → UInt8
  clock : UInt64
  threads : Nat → Thread
  holders : List (Nat × FutexKey)

/-- What the scheduler knows of a task: its thread group, and whether it has a cancellation token (whose number is
    the task's). -/
structure Tasks where
  tgidOf : Nat → Nat
  hasToken : Nat → Bool

def Tasks.key (ts : Tasks) (pid uaddr : Nat) : FutexKey :=
  ⟨if ts.tgidOf pid ≠ 0 then ts.tgidOf pid else pid, uaddr⟩

def Tasks.currentCancel (ts : Tasks) (pid : Nat) : Option Nat := if ts.hasToken pid then some pid else none

/-- `read_deadline`: `ts` holds the seconds and nanoseconds at `va`, or nothing if they cannot be read. -/
def readDeadline (va : Nat) (ts : Option (Int × Int)) (now : UInt64) : Except Int (Option UInt64) :=
  if va = 0 then .ok none
  else match ts with
    | none => .error (-14)
    | some (secs, nsecs) =>
      if secs < 0 ∨ nsecs < 0 ∨ 1000000000 ≤ nsecs then .error (-22)
      else .ok (some (now + (UInt64.ofNat secs.toNat * 1000000000 + UInt64.ofNat nsecs.toNat)))

/-- The loop of `futex_wake_bitset`: the waiters to wake and those left. The count is compared after a waiter is
    taken, so one is taken even for a count of 0. -/
def select (mask : UInt32) : Nat → List Waiter → List Waiter × List Waiter
  | _, [] => ([], [])
  | n, w :: ws =>
    if w.bitset &&& mask ≠ 0 then
      if n ≤ 1 then ([w], ws)
      else (w :: (select mask (n - 1) ws).1, (select mask (n - 1) ws).2)
    else ((select mask n ws).1, w :: (select mask n ws).2)

def WakeReason.code : WakeReason → Int
  | .ready => 0
  | .cancelled => -4
  | .timeout => -110

namespace State

def tid (s : State) (k : FutexKey) : Nat := ((s.mem k).value &&& FUTEX_TID_MASK).toNat

def goto (s : State) (t : Nat) (pc : Pc) : State :=
  { s with threads := update s.threads t { s.threads t with pc := pc } }

def leave (s : State) (t : Nat) (ret : Int) : State :=
  { s with threads := update s.threads t ⟨.idle, some ret⟩ }

def write (s : State) (k : FutexKey) (v : UInt32) : State :=
  { s with mem := update s.mem k { s.mem k with value := v } }

def setBucket (s : State) (k : FutexKey) (b : Option FutexBucket) : State :=
  { s with table := update s.table k b }

def keepBucket (s : State) (k : FutexKey) (b : FutexBucket) : State :=
  s.setBucket k (if b.waiters.isEmpty then none else some b)

def setChain (s : State) (k : FutexKey) (r : Option PiRecord) : State :=
  { s with chain := update s.chain k r }

def acquire (s : State) (t : Nat) (k : FutexKey) : State := { s with holders := (t, k) :: s.holders }

def release (s : State) (t : Nat) (k : FutexKey) : State :=
  { s with holders := s.holders.filter (· != (t, k)) }

/-- `tbl.entry(key).or_insert_with(FutexBucket::new)`: a new bucket gets a new queue. -/
def entry (s : State) (k : FutexKey) : State × FutexBucket :=
  match s.table k with
  | some b => (s, b)
  | none => ({ s with sync := s.sync.setQueue s.nextWq .new, nextWq := s.nextWq + 1 }, ⟨s.nextWq, []⟩)

def register (s : State) (t : Nat) (kind : WaitKind) (k : FutexKey) (bitset : UInt32) (deadline : Option UInt64) : State :=
  let e := s.entry k
  (e.1.setBucket k (some ⟨e.2.wq, e.2.waiters ++ [⟨t, bitset⟩]⟩)).goto t (.enter ⟨kind, k, e.2.wq, bitset, deadline⟩)

/-- Removes the records of `pid` from the bucket of `k`. -/
def forget (s : State) (k : FutexKey) (pid : Nat) : State :=
  match s.table k with
  | none => s
  | some b => s.keepBucket k ⟨b.wq, b.waiters.filter (·.pid != pid)⟩

def requeueInner (s : State) (src dst : FutexKey) (count : Nat) : State :=
  match s.table src with
  | none => s
  | some b =>
    let moved := b.waiters.take count
    let drained := s.setBucket src (some ⟨b.wq, b.waiters.drop count⟩)
    let extended :=
      if moved.isEmpty then drained
      else
        let e := drained.entry dst
        e.1.setBucket dst (some ⟨e.2.wq, e.2.waiters ++ moved⟩)
    match extended.table src with
    | some b' => if b'.waiters.isEmpty then extended.setBucket src none else extended
    | none => extended

/-- The section of `futex_wake_bitset` under the table lock. -/
def wakeSection (s : State) (t : Nat) (k : FutexKey) (count : Nat) (mask : UInt32) (after : Nat → After) : State :=
  match s.table k, mask == 0 with
  | some b, false =>
    let r := select mask count b.waiters
    (s.keepBucket k ⟨b.wq, r.2⟩).goto t (.waking b.wq mask r.1.length (after r.1.length))
  | _, _ => s.goto t (.waking 0 mask 0 (after 0))

/-- The section of `futex_lock_pi` that takes a free lock. -/
def lockFast (s : State) (t : Nat) (k : FutexKey) (deadline : UInt64) : State :=
  if (s.mem k).readable = false then s.leave t (-14)
  else if s.tid k = 0 then
    if (s.mem k).writable = false then s.leave t (-14)
    else (((s.write k t.toUInt32).setChain k none).acquire t k).leave t 0
  else if t = 0 then s.leave t (-35)
  else s.goto t (.lockContend k deadline)

/-- The record of `k` with `t` among the waiters, by priority. -/
def enqueue (s : State) (t : Nat) (k : FutexKey) : PiRecord :=
  let waiters := match s.chain k with
    | some r => r.waiters
    | none => []
  ⟨s.tid k, waiters.insertIdx (Lib.partitionPoint (fun w => s.prio t ≤ s.prio w) waiters) t⟩

/-- The section of `futex_lock_pi` that registers a waiter in `PI_CHAIN`. -/
def lockContend (s : State) (t : Nat) (k : FutexKey) (deadline : UInt64) : State :=
  if (s.mem k).readable = false then s.leave t (-14)
  else if s.tid k = 0 then s.goto t (.lockRead k deadline)
  else if (s.mem k).writable = false then s.leave t (-14)
  else ((s.write k ((s.mem k).value ||| FUTEX_WAITERS)).setChain k (some (s.enqueue t k))).goto t
    (.lockTable k deadline)

def trylock (s : State) (t : Nat) (k : FutexKey) : State :=
  if (s.mem k).readable = false then s.leave t (-14)
  else if s.tid k ≠ 0 then s.leave t (-11)
  else if (s.mem k).writable = false then s.leave t (-14)
  else (((s.write k t.toUInt32).setChain k none).acquire t k).leave t 0

/-- The section of `futex_unlock_pi` that hands the lock over. The successor is taken out of the record before the
    word is written, and stays out if that fails. -/
def unlockHand (s : State) (t : Nat) (k : FutexKey) : State :=
  match s.chain k with
  | none => if (s.mem k).writable = false then s.leave t (-14) else ((s.write k 0).release t k).leave t 0
  | some ⟨_, []⟩ =>
    if (s.mem k).writable = false then s.leave t (-14)
    else (((s.write k 0).setChain k none).release t k).leave t 0
  | some ⟨owner, next :: rest⟩ =>
    if (s.mem k).writable = false then (s.setChain k (some ⟨owner, rest⟩)).leave t (-14)
    else
      let word := (next.toUInt32 &&& FUTEX_TID_MASK) ||| (if rest.isEmpty then 0 else FUTEX_WAITERS)
      (((s.write k word).setChain k (some ⟨next, rest⟩)).release t k).goto t (.unlockTable k next)

/-- One step of the call of thread `t`; `none` when it cannot go on. -/
def threadStep (ts : Tasks) (s : State) (t : Nat) : Option State :=
  match (s.threads t).pc with
  | .idle => none
  | .waitBitset k expected bitset deadline =>
    if bitset = 0 then some (s.leave t (-22))
    else if (s.mem k).readable = false then some (s.leave t (-14))
    else if (s.mem k).value ≠ expected then some (s.leave t (-11))
    else some (s.register t .waitBitset k bitset deadline)
  | .enter sl =>
    (s.sync.step (.wait t ⟨sl.wq, sl.bitset, ts.currentCancel t, sl.deadline⟩)).map fun sync =>
      { s with sync := sync }.goto t (.asleep sl)
  | .asleep sl =>
    match (s.sync.procs t).wait, (s.sync.procs t).result with
    | none, some reason => some (s.goto t (.tidyTable sl reason))
    | _, _ => none
  | .tidyTable sl reason =>
    match sl.kind with
    | .waitBitset => some ((s.forget sl.key t).leave t (WakeReason.code reason))
    | .lockPi => some ((s.forget sl.key t).goto t (.tidyChain sl.key reason))
  | .tidyChain k reason =>
    let tidied := match s.chain k with
      | some r => s.setChain k (some ⟨r.ownerPid, r.waiters.filter (· != t)⟩)
      | none => s
    if reason = .ready then some ((tidied.acquire t k).leave t 0)
    else some (tidied.leave t (WakeReason.code reason))
  | .wakeBitset k count mask requeue =>
    some (s.wakeSection t k count mask fun n =>
      match requeue with
      | some (dst, m) => .requeue k dst m n
      | none => .woken n)
  | .waking wq mask (left + 1) after =>
    (s.sync.step (.wake t wq mask)).map fun sync => { s with sync := sync }.goto t (.inWake wq mask left after)
  | .inWake wq mask left after =>
    if s.sync.wakes t = none then some (s.goto t (.waking wq mask left after)) else none
  | .waking _ _ 0 (.woken n) => some (s.leave t n)
  | .waking _ _ 0 (.requeue src dst count n) => some (s.goto t (.requeue src dst count n))
  | .waking _ _ 0 .unlocked => some (s.leave t 0)
  | .cmpRequeue src expected count dst m =>
    if (s.mem src).readable = false then some (s.leave t (-14))
    else if (s.mem src).value ≠ expected then some (s.leave t (-11))
    else some (s.goto t (.wakeBitset src count FUTEX_BITSET_MATCH_ANY (some (dst, m))))
  | .requeue src dst count woken => some ((s.requeueInner src dst count).leave t woken)
  | .lockRead k deadline =>
    if (s.mem k).readable = false then some (s.leave t (-14))
    else if s.tid k = 0 then some (s.goto t (.lockFast k deadline))
    else if s.tid k = t then some (s.leave t (-35))
    else some (s.goto t (.lockContend k deadline))
  | .lockFast k deadline => some (s.lockFast t k deadline)
  | .lockContend k deadline => some (s.lockContend t k deadline)
  | .lockTable k deadline => some (s.register t .lockPi k FUTEX_BITSET_MATCH_ANY (some deadline))
  | .trylock k => some (s.trylock t k)
  | .unlock k =>
    if (s.mem k).readable = false then some (s.leave t (-14))
    else if s.tid k ≠ t then some (s.leave t (-1))
    else some (s.goto t (.unlockHand k))
  | .unlockHand k => some (s.unlockHand t k)
  | .unlockTable k successor => some ((s.forget k successor).goto t (.unlockFind k successor))
  | .unlockFind k successor =>
    match s.table k with
    | some b => some (s.goto t (.waking b.wq FUTEX_BITSET_MATCH_ANY 1 .unlocked))
    | none => some ({ s with sync := s.sync.wakePid successor }.leave t 0)

end State

/-- The arguments of `sys_futex`; `timeout` is what `read_deadline` finds at the fourth, if it is an address. -/
structure Args where
  uaddr : Nat
  op : UInt32
  val : UInt32
  timeoutOrVal2 : UInt64
  uaddr2 : Nat
  val3 : UInt32
  timeout : Option (Int × Int)

/-- `sys_futex` up to the call that it dispatches to, or the error it returns. -/
def sysFutex (ts : Tasks) (now : UInt64) (pid : Nat) (a : Args) : Except Int Pc :=
  let key := ts.key pid a.uaddr
  let key2 := ts.key pid a.uaddr2
  let val2 := a.timeoutOrVal2.toUInt32.toNat
  let deadline := readDeadline a.timeoutOrVal2.toNat a.timeout now
  let badAddr (va : Nat) : Bool := va < 0x1000 || USER_SPACE_END ≤ va
  if badAddr a.uaddr then .error (-14)
  else
    -- `FUTEX_PRIVATE_FLAG` and `FUTEX_CLOCK_RT` are stripped.
    match (a.op &&& ~~~(128 ||| 256)).toNat with
    | 0 => deadline.map fun dl => .waitBitset key a.val FUTEX_BITSET_MATCH_ANY dl
    | 1 => .ok (.wakeBitset key a.val.toNat FUTEX_BITSET_MATCH_ANY none)
    | 3 =>
      if badAddr a.uaddr2 then .error (-14)
      else .ok (.wakeBitset key a.val.toNat FUTEX_BITSET_MATCH_ANY (some (key2, val2)))
    | 4 =>
      if badAddr a.uaddr2 then .error (-14)
      else .ok (.cmpRequeue key a.val3 a.val.toNat key2 val2)
    | 9 =>
      if a.val3 = 0 then .error (-22)
      else deadline.map fun dl => .waitBitset key a.val a.val3 dl
    | 10 => if a.val3 = 0 then .error (-22) else .ok (.wakeBitset key a.val.toNat a.val3 none)
    | 6 => .ok (.lockRead key (now + 5000000000))
    | 7 => .ok (.unlock key)
    | 8 => .ok (.trylock key)
    | 2 => .error (-38)
    | 5 => .error (-38)
    | _ => .error (-22)

/-- What may happen next: a thread calls `sys_futex` or goes on with its call, another part of the kernel uses the
    wait queues, the clock or a priority changes, or user code stores to a word or changes its mapping. -/
inductive Event where
  | syscall (t : Nat) (args : Args)
  | step (t : Nat)
  | sync (e : Sync.Event)
  | tick (now : UInt64)
  | setPrio (t : Nat) (prio : UInt8)
  | store (k : FutexKey) (v : UInt32)
  | remap (k : FutexKey) (readable writable : Bool)

/-- A `wait` of another part of the kernel is made by a thread outside the futex calls, a clock reading is the
    clock's, a token is fired with a reason and reset by its own thread between calls. -/
def State.allows (s : State) : Sync.Event → Bool
  | .wait t _ => (s.threads t).pc = .idle
  | .task _ now => now = s.clock
  | .cancel _ reason _ _ => reason ≠ .none
  | .reset token => (s.threads token).pc = .idle
  | _ => true

def State.step (ts : Tasks) (s : State) : Event → Option State
  | .syscall t args =>
    if (s.threads t).pc = .idle ∧ (s.sync.procs t).wait = none ∧ (s.sync.procs t).blocked = false then
      match sysFutex ts s.clock t args with
      | .ok pc => some (s.goto t pc)
      | .error e => some (s.leave t e)
    else none
  | .step t => s.threadStep ts t
  | .sync e => if s.allows e then (s.sync.step e).map fun sync => { s with sync := sync } else none
  | .tick now => if s.clock ≤ now then some { s with clock := now } else none
  | .setPrio t p => some { s with prio := update s.prio t p }
  | .store k v => some (s.write k v)
  | .remap k r w => some { s with mem := update s.mem k { s.mem k with readable := r, writable := w } }

/-- No thread is in a futex call; the words and their mappings are as user code left them. -/
def State.init (mem : FutexKey → Word) : State :=
  ⟨.init, 0, fun _ => none, fun _ => none, mem, fun _ => 0, 0, fun _ => ⟨.idle, none⟩, []⟩

end Moxide.Futex
