import Moxide.Lib.PrioQueue

/-! The POSIX message queues of `ipc/mq.rs`. A step is one section under `MQD_TABLE` and the queue's lock, or one update of
    `MQ_BYTES`. The soft limit that a charge is compared with is an argument of its step, so it may change at any time. -/

namespace Moxide.Mq
open Function (update)

def O_WRONLY : UInt32 := 1
def O_CREAT : UInt32 := 0o100
def O_EXCL : UInt32 := 0o200
def O_NONBLOCK : UInt32 := 0o4000

def MQ_MAXMSG : Int64 := 10
def MQ_MSGSIZE : Int64 := 8192
def MQ_PRIO_MAX : UInt32 := 32768

def QUEUE_OVERHEAD : UInt64 := 272
def MSG_OVERHEAD : UInt64 := 48
def RLIM_INFINITY : UInt64 := 0xFFFFFFFFFFFFFFFF

def saturatingAdd (a b : UInt64) : UInt64 := if a.toNat + b.toNat < 2 ^ 64 then a + b else 0xFFFFFFFFFFFFFFFF
def saturatingSub (a b : UInt64) : UInt64 := if b ≤ a then a - b else 0

structure MqAttr where
  mqFlags : Int64
  mqMaxmsg : Int64
  mqMsgsize : Int64
  mqCurmsgs : Int64
  deriving DecidableEq

structure PriMsg where
  prio : UInt32
  seq : UInt64
  data : List UInt8
  deriving DecidableEq, Repr

def PriMsg.cmp (a b : PriMsg) : Ordering := ((compare b.prio a.prio).then (compare a.seq b.seq)).swap

def greatest : PriMsg → List PriMsg → PriMsg
  | m, [] => m
  | m, x :: xs => greatest (if m.cmp x = .lt then x else m) xs

/-- `BinaryHeap::pop`: the greatest message and the others. -/
def heapPop : List PriMsg → Option (PriMsg × List PriMsg)
  | [] => none
  | m :: ms => some (greatest m ms, (m :: ms).erase (greatest m ms))

structure MqInner where
  attr : MqAttr
  heap : List PriMsg
  seq : UInt64
  unlinked : Bool
  creatorPid : Nat
  queueCharge : UInt64
  notifySig : Option UInt32
  notifyPid : UInt32

/-- `heap.len() as i64 >= mq_maxmsg`. -/
def MqInner.full (inner : MqInner) : Bool := inner.attr.mqMaxmsg ≤ Int64.ofNat inner.heap.length

structure MqObject where
  name : String
  inner : MqInner
  refs : Nat

/-- The `Arc<MqObject>` of an entry is the number of the queue. -/
structure MqdEntry where
  id : UInt64
  oflag : UInt32
  queue : Nat
  deriving DecidableEq, Repr

/-! ### Calls in progress -/

inductive SendPoint where
  | check
  | charge (creator : Nat) (bytes : UInt64)
  | insert (creator : Nat) (bytes : UInt64)
  | done (rc : Int)
  deriving DecidableEq, Repr

structure SendCall where
  mqd : UInt64
  data : List UInt8
  prio : UInt32
  point : SendPoint
  deriving DecidableEq, Repr

inductive RecvPoint where
  | pop
  | refund (creator : Nat) (bytes : UInt64) (data : List UInt8) (prio : UInt32)
  | received (data : List UInt8) (prio : UInt32)
  | failed (err : Int)
  deriving DecidableEq, Repr

structure RecvCall where
  mqd : UInt64
  maxLen : UInt64
  point : RecvPoint
  deriving DecidableEq, Repr

inductive Call where
  | send (c : SendCall)
  | recv (c : RecvCall)
  deriving DecidableEq, Repr

structure Queued where
  call : Nat
  queue : Nat
  msg : PriMsg
  deriving DecidableEq, Repr

/-- The tables of the module and all calls made. `queued` keeps the messages of all queues in the order of their
    arrival, and `delivered` pairs each message served with the call that took it; no function reads them. -/
structure State where
  queues : String → Option Nat
  objects : List MqObject
  mqds : UInt64 → Option MqdEntry
  nextMqd : UInt64
  mqBytes : Nat → Option UInt64
  signals : List (UInt32 × UInt32)
  calls : List Call
  queued : List Queued
  delivered : List (Queued × Nat)

namespace State

def new : State := ⟨fun _ => none, [], fun _ => none, 1, fun _ => none, [], [], [], []⟩

def queuedOn (s : State) (q : Nat) : List Queued := s.queued.filter (·.queue = q)

def setCall (s : State) (i : Nat) (c : Call) : State := { s with calls := s.calls.set i c }

def setInner (s : State) (q : Nat) (f : MqInner → MqInner) : State :=
  { s with objects := s.objects.modify q fun o => { o with inner := f o.inner } }

def entry (s : State) (mqd : UInt64) : Option (MqdEntry × MqInner) :=
  (s.mqds mqd).bind fun e => s.objects[e.queue]?.map fun o => (e, o.inner)

def mqBytesCharge (s : State) (soft : UInt64) (pid : Nat) (bytes : UInt64) : State × Int :=
  let current := (s.mqBytes pid).getD 0
  let newVal := saturatingAdd current bytes
  if soft ≠ RLIM_INFINITY ∧ soft < newVal then ({ s with mqBytes := update s.mqBytes pid (some current) }, -12)
  else ({ s with mqBytes := update s.mqBytes pid (some newVal) }, 0)

def mqBytesDischarge (s : State) (pid : Nat) (bytes : UInt64) : State :=
  match s.mqBytes pid with
  | none => s
  | some v => { s with mqBytes := update s.mqBytes pid (some (saturatingSub v bytes)) }

def allocMqd (s : State) (queue : Nat) (oflag : UInt32) : State × UInt64 :=
  let id := s.nextMqd
  ({ s with nextMqd := id + 1, mqds := update s.mqds id (some ⟨id, oflag, queue⟩) }, id)

def mqOpen (s : State) (name : String) (oflag : UInt32) (attr : Option MqAttr) (pid : Nat) (soft : UInt64) :
    State × Except Int UInt64 :=
  if name.isEmpty ∨ ¬ name.startsWith "/" then (s, .error (-22))
  else match s.queues name with
    | some q =>
      if oflag &&& O_CREAT ≠ 0 ∧ oflag &&& O_EXCL ≠ 0 then (s, .error (-17))
      else
        let (s, id) := { s with objects := s.objects.modify q fun o => { o with refs := o.refs + 1 } }.allocMqd q oflag
        (s, .ok id)
    | none =>
      if oflag &&& O_CREAT = 0 then (s, .error (-2))
      else
        let a := attr.getD ⟨0, MQ_MAXMSG, MQ_MSGSIZE, 0⟩
        if a.mqMaxmsg ≤ 0 ∨ a.mqMsgsize ≤ 0 then (s, .error (-22))
        else
          let queueCharge := QUEUE_OVERHEAD + a.mqMaxmsg.toUInt64 * (MSG_OVERHEAD + a.mqMsgsize.toUInt64)
          let (s, rc) := s.mqBytesCharge soft pid queueCharge
          if rc < 0 then (s, .error rc)
          else
            let inner : MqInner := ⟨a, [], 0, false, pid, queueCharge, none, 0⟩
            let q := s.objects.length
            let (s, id) :=
              { s with
                objects := s.objects ++ [MqObject.mk name inner 1]
                queues := update s.queues name (some q) }.allocMqd q oflag
            (s, .ok id)

def mqClose (s : State) (mqd : UInt64) : State × Int :=
  match s.mqds mqd with
  | none => (s, -9)
  | some e =>
    let s := { s with mqds := update s.mqds mqd none }
    match s.objects[e.queue]? with
    | none => (s, 0)
    | some o =>
      let s := { s with objects := s.objects.modify e.queue fun o => { o with refs := o.refs - 1 } }
      if o.refs = 1 then
        let s := s.mqBytesDischarge o.inner.creatorPid o.inner.queueCharge
        (if o.inner.unlinked then { s with queues := update s.queues o.name none } else s, 0)
      else (s, 0)

def mqUnlink (s : State) (name : String) : State × Int :=
  match s.queues name with
  | none => (s, -2)
  | some q =>
    let s := s.setInner q fun inner => { inner with unlinked := true }
    ({ s with queues := update s.queues name none }, 0)

/-- The caller has replaced a `pid` of 0 by its own. -/
def mqNotify (s : State) (mqd : UInt64) (signo pid : UInt32) : State × Int :=
  match s.mqds mqd with
  | none => (s, -9)
  | some e =>
    (s.setInner e.queue fun inner =>
      if signo = 0 then { inner with notifySig := none, notifyPid := 0 }
      else { inner with notifySig := some signo, notifyPid := pid }, 0)

def startSend (mqd : UInt64) (data : List UInt8) (prio : UInt32) : SendCall :=
  ⟨mqd, data, prio, if MQ_PRIO_MAX ≤ prio then .done (-22) else .check⟩

def sendCheck (s : State) (c : SendCall) : SendPoint :=
  match s.entry c.mqd with
  | none => .done (-9)
  | some (e, inner) =>
    if inner.attr.mqMsgsize.toUInt64.toNat < c.data.length then .done (-90)
    else if inner.full then if e.oflag &&& O_NONBLOCK ≠ 0 then .done (-11) else .check
    else .charge inner.creatorPid (MSG_OVERHEAD + UInt64.ofNat c.data.length)

def pushMsg (inner : MqInner) (msg : PriMsg) : MqInner :=
  { inner with
    seq := inner.seq + 1
    heap := msg :: inner.heap
    attr := { inner.attr with mqCurmsgs := inner.attr.mqCurmsgs + 1 }
    notifySig := if inner.attr.mqCurmsgs + 1 = 1 then none else inner.notifySig }

/-- The signal of `mq_notify`, if this was the first message. -/
def signalFor (inner : MqInner) : List (UInt32 × UInt32) :=
  if inner.attr.mqCurmsgs + 1 = 1 then (inner.notifySig.map (inner.notifyPid, ·)).toList else []

def sendInsert (s : State) (i : Nat) (c : SendCall) (creator : Nat) (bytes : UInt64) : State :=
  match s.entry c.mqd with
  | none => s.setCall i (.send { c with point := .done (-9) })
  | some (e, inner) =>
    if inner.full then
      (s.mqBytesDischarge creator bytes).setCall i
        (.send { c with point := if e.oflag &&& O_NONBLOCK ≠ 0 then .done (-11) else .check })
    else
      let msg : PriMsg := ⟨c.prio, inner.seq, c.data⟩
      let s := { s with queued := s.queued ++ [Queued.mk i e.queue msg], signals := s.signals ++ signalFor inner }
      (s.setInner e.queue (pushMsg · msg)).setCall i (.send { c with point := .done 0 })

def sendStep (s : State) (i : Nat) (c : SendCall) (soft : UInt64) : Option State :=
  match c.point with
  | .check => some (s.setCall i (.send { c with point := s.sendCheck c }))
  | .charge creator bytes =>
    let rc := (s.mqBytesCharge soft creator bytes).2
    some ((s.mqBytesCharge soft creator bytes).1.setCall i
      (.send { c with point := if rc < 0 then .done rc else .insert creator bytes }))
  | .insert creator bytes => some (s.sendInsert i c creator bytes)
  | .done _ => none

/-! ### mq_receive -/

/-- What the order of service asks for: the message that has waited longest among those of the highest priority. -/
def next (s : State) (q : Nat) : Option Queued := Lib.PrioQueue.best (·.msg.prio.toNat) (s.queuedOn q)

/-- The message that should be served leaves `queued`. -/
def serve (s : State) (q i : Nat) : State :=
  match s.next q with
  | none => s
  | some m => { s with queued := s.queued.filter (·.call ≠ m.call), delivered := s.delivered ++ [(m, i)] }

def popMsg (inner : MqInner) (heap : List PriMsg) : MqInner :=
  { inner with heap := heap, attr := { inner.attr with mqCurmsgs := inner.attr.mqCurmsgs - 1 } }

def recvPop (s : State) (i : Nat) (c : RecvCall) : State :=
  let fail (err : Int) := s.setCall i (.recv { c with point := .failed err })
  match s.entry c.mqd with
  | none => fail (-9)
  | some (e, inner) =>
    if e.oflag &&& O_WRONLY ≠ 0 then fail (-9)
    else if c.maxLen.toInt64 < inner.attr.mqMsgsize then fail (-90)
    else match heapPop inner.heap with
      | some (msg, heap) =>
        let s := s.setInner e.queue (popMsg · heap)
        let charge := MSG_OVERHEAD + UInt64.ofNat msg.data.length
        (s.serve e.queue i).setCall i (.recv { c with point := .refund inner.creatorPid charge msg.data msg.prio })
      | none => if e.oflag &&& O_NONBLOCK ≠ 0 then fail (-11) else s

def recvStep (s : State) (i : Nat) (c : RecvCall) : Option State :=
  match c.point with
  | .pop => some (s.recvPop i c)
  | .refund creator bytes data prio =>
    some ((s.mqBytesDischarge creator bytes).setCall i (.recv { c with point := .received data prio }))
  | .received _ _ | .failed _ => none

/-- A call, or a step of the call with number `i`; only `mq_send` and `mq_receive` take several. -/
inductive Event where
  | opens (name : String) (oflag : UInt32) (attr : Option MqAttr) (pid : Nat) (soft : UInt64)
  | close (mqd : UInt64)
  | unlink (name : String)
  | notify (mqd : UInt64) (signo pid : UInt32)
  | send (mqd : UInt64) (data : List UInt8) (prio : UInt32)
  | receive (mqd : UInt64) (maxLen : UInt64)
  | step (i : Nat) (soft : UInt64)
  deriving DecidableEq

def step (s : State) : Event → Option State
  | .opens name oflag attr pid soft => some (s.mqOpen name oflag attr pid soft).1
  | .close mqd => some (s.mqClose mqd).1
  | .unlink name => some (s.mqUnlink name).1
  | .notify mqd signo pid => some (s.mqNotify mqd signo pid).1
  | .send mqd data prio => some { s with calls := s.calls ++ [.send (startSend mqd data prio)] }
  | .receive mqd maxLen => some { s with calls := s.calls ++ [.recv ⟨mqd, maxLen, .pop⟩] }
  | .step i soft =>
    match s.calls[i]? with
    | some (.send c) => s.sendStep i c soft
    | some (.recv c) => s.recvStep i c
    | none => none

end State

end Moxide.Mq
