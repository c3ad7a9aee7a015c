import Moxide.Lib.Bytes
import Moxide.User

/-! System V message queues, semaphores and shared memory, and POSIX message queues (`proc/ipc.rs`). Locks are held for a
    whole call. -/

namespace Moxide.SysvIpc
open Lib.LittleEndian
open User (Mem copyFromUser copyToUser)
open Function (update)

abbrev NsId := Nat
abbrev Pid := Nat

def INIT_NS : NsId := 0xF000000000000000

def IPC_CREAT : UInt32 := 0o001000
def IPC_RMID : Int := 0
def IPC_STAT : Int := 2
def GETVAL : Int := 12
def GETALL : Int := 13
def GETNCNT : Int := 14
def GETZCNT : Int := 15
def SETVAL : Int := 16
def SETALL : Int := 17
def SHM_REMAP : UInt32 := 0x4000
def O_CREAT : UInt32 := 0o0100
def O_EXCL : UInt32 := 0o0200
def PAGE : Nat := 4096

structure MsgBuf where
  mtype : Int64
  data : List UInt8
  deriving DecidableEq

/-- `msgmnb` is 16384 in every queue; `msgmax` is not read. -/
structure MsgQueue where
  msgs : List MsgBuf := []
  msgmnb : Nat := 16384
  bytes : Nat := 0
  deriving DecidableEq

structure ShmRegion where
  data : List UInt8
  markedForRemoval : Bool
  deriving DecidableEq

/-- An element of the lists in `SHM_ATTACH`. -/
structure Attach where
  shmid : Int32
  va : Nat
  size : Nat
  deriving DecidableEq

structure PosixMsg where
  priority : UInt32
  data : List UInt8
  deriving DecidableEq

structure PosixMq where
  msgs : List PosixMsg := []
  maxmsg : Nat
  msgsize : Nat
  deriving DecidableEq

/-- The four tables, the attachments of all processes in the order they were made, and of each process its IPC namespace, its
    `next_va` and its memory. -/
structure State where
  msgq : NsId → Int32 → Option MsgQueue
  msgNext : Int32
  sems : NsId → Int32 → Option (List Int32)
  semNext : Int32
  shms : NsId → Int32 → Option ShmRegion
  shmNext : Int32
  shmAttach : List (Pid × Attach)
  byName : NsId → List UInt8 → Option Int32
  byMqd : Int32 → Option PosixMq
  nextMqd : Int32
  ipcNs : Pid → Option NsId
  nextVa : Pid → Option Nat
  mem : Pid → Mem

/-- The index of the message that `msgrcv` takes: the first, the first of a type, or the first of the lowest type up to a
    limit. -/
def msgPos (msgs : List MsgBuf) (msgtyp : Int64) : Option Nat :=
  if msgtyp = 0 then msgs.findIdx? fun _ => true
  else if 0 < msgtyp then msgs.findIdx? fun m => m.mtype = msgtyp
  else
    let below := msgs.filter fun m => m.mtype ≤ -msgtyp
    msgs.findIdx? fun m => m.mtype ≤ -msgtyp && below.all fun m' => m.mtype ≤ m'.mtype

/-- `sys_msgsnd` on the queue it finds. -/
def msgsnd (msgp msgsz : Nat) (q : Option MsgQueue) (m : Mem) : Option MsgQueue × Mem × Int :=
  if 8192 < msgsz then (q, m, -22)
  else match copyFromUser m msgp 8 with
    | none => (q, m, -14)
    | some hdr =>
      let mtype := Int64.ofNat (ofBytes hdr)
      if mtype ≤ 0 then (q, m, -22)
      else match copyFromUser m (msgp + 8) msgsz with
        | none => (q, m, -14)
        | some data =>
          match q with
          | none => (q, m, -22)
          | some queue =>
            if queue.msgmnb < queue.bytes + msgsz then (q, m, -11)
            else (some { queue with bytes := queue.bytes + msgsz, msgs := queue.msgs ++ [⟨mtype, data⟩] }, m, 0)

/-- `sys_msgrcv` on the queue it finds. A message that cannot be copied is lost. -/
def msgrcv (msgp msgsz : Nat) (msgtyp : Int64) (q : Option MsgQueue) (m : Mem) : Option MsgQueue × Mem × Int :=
  match q with
  | none => (q, m, -22)
  | some queue =>
    match (msgPos queue.msgs msgtyp).bind fun i => queue.msgs[i]?.map (i, ·) with
    | none => (q, m, -11)
    | some (i, msg) =>
      let copyLen := min msg.data.length msgsz
      let q := some { queue with msgs := queue.msgs.eraseIdx i, bytes := queue.bytes - msg.data.length }
      match copyToUser m msgp (toBytes 8 msg.mtype.toUInt64.toNat) with
      | none => (q, m, -14)
      | some m =>
        match copyToUser m (msgp + 8) (msg.data.take copyLen) with
        | none => (q, m, -14)
        | some m => (q, m, copyLen)

def msgctl (cmd : Int) (q : Option MsgQueue) (m : Mem) : Option MsgQueue × Mem × Int :=
  if cmd = IPC_RMID then (none, m, 0)
  else if cmd = IPC_STAT then (q, m, 0)
  else (q, m, -22)

/-- The loop of `sys_semop`: the operations before one that fails stay done. -/
def semopLoop : List UInt8 → Nat → List Int32 → List Int32 × Int
  | _, 0, vals => (vals, 0)
  | ops, n + 1, vals =>
    let semNum := ofBytes (ops.take 2)
    let semOp := (Int16.ofNat (ofBytes ((ops.drop 2).take 2))).toInt32
    match vals[semNum]? with
    | none => (vals, -22)
    | some v => if v + semOp < 0 then (vals, -11) else semopLoop (ops.drop 6) n (vals.set semNum (v + semOp))

def semop (sops nsops : Nat) (s : Option (List Int32)) (m : Mem) : Option (List Int32) × Mem × Int :=
  if nsops = 0 then (s, m, 0)
  else if 32 < nsops then (s, m, -22)
  else match copyFromUser m sops (nsops * 6) with
    | none => (s, m, -14)
    | some ops =>
      match s with
      | none => (s, m, -22)
      | some vals =>
        let r := semopLoop ops nsops vals
        (some r.1, m, r.2)

/-- The loop of `SETALL`, from index `i` on. -/
def setAll (arg : Nat) (m : Mem) : Nat → List Int32 → List Int32 × Int
  | _, [] => ([], 0)
  | i, v :: vals =>
    match copyFromUser m (arg + i * 2) 2 with
    | none => (v :: vals, -14)
    | some b =>
      let r := setAll arg m (i + 1) vals
      ((Int16.ofNat (ofBytes b)).toInt32 :: r.1, r.2)

/-- The loop of `GETALL`, from index `i` on. -/
def getAll (arg : Nat) : Nat → List Int32 → Mem → Mem × Int
  | _, [], m => (m, 0)
  | i, v :: vals, m =>
    match copyToUser m (arg + i * 2) (toBytes 2 v.toInt16.toUInt16.toNat) with
    | none => (m, -14)
    | some m => getAll arg (i + 1) vals m

def semctl (semnum cmd : Int) (arg : Nat) (s : Option (List Int32)) (m : Mem) : Option (List Int32) × Mem × Int :=
  if cmd = IPC_RMID then (none, m, 0)
  else if cmd = SETVAL then
    match s with
    | none => (s, m, -22)
    | some vals =>
      if semnum < 0 ∨ vals.length ≤ semnum.toNat then (s, m, -22)
      else (some (vals.set semnum.toNat (Int32.ofNat arg)), m, 0)
  else if cmd = GETVAL then
    match s with
    | none => (s, m, -22)
    | some vals => if semnum < 0 then (s, m, -22) else (s, m, (vals[semnum.toNat]?.map (·.toInt)).getD (-22))
  else if cmd = SETALL then
    match s with
    | none => (s, m, -22)
    | some vals =>
      let r := setAll arg m 0 vals
      (some r.1, m, r.2)
  else if cmd = GETALL then
    match s with
    | none => (s, m, -22)
    | some vals =>
      let r := getAll arg 0 vals m
      (s, r.1, r.2)
  else if cmd = GETNCNT ∨ cmd = GETZCNT then (s, m, 0)
  else (s, m, -22)

def mqSend (buf msgLen : Nat) (prio : UInt32) (q : Option PosixMq) (m : Mem) : Option PosixMq × Mem × Int :=
  match q with
  | none => (q, m, -9)
  | some mq =>
    if mq.msgsize < msgLen then (q, m, -90)
    else if mq.maxmsg ≤ mq.msgs.length then (q, m, -11)
    else match copyFromUser m buf msgLen with
      | none => (q, m, -14)
      | some data =>
        -- the queue is sorted, so that the partition point is the number of messages of at least this priority
        let pos := (mq.msgs.takeWhile fun x => prio ≤ x.priority).length
        (some { mq with msgs := mq.msgs.insertIdx pos ⟨prio, data⟩ }, m, 0)

/-- `sys_mq_receive` on the queue it finds. A message that cannot be copied is lost. -/
def mqReceive (buf msgLen prioVa : Nat) (q : Option PosixMq) (m : Mem) : Option PosixMq × Mem × Int :=
  match q with
  | none => (q, m, -9)
  | some mq =>
    if msgLen < mq.msgsize then (q, m, -90)
    else match mq.msgs with
      | [] => (q, m, -11)
      | msg :: rest =>
        let copyLen := min msg.data.length msgLen
        let q := some { mq with msgs := rest }
        match copyToUser m buf (msg.data.take copyLen) with
        | none => (q, m, -14)
        | some m =>
          if prioVa = 0 then (q, m, copyLen)
          else match copyToUser m prioVa (toBytes 4 msg.priority.toNat) with
            | none => (q, m, -14)
            | some m => (q, m, copyLen)

def mqClose (q : Option PosixMq) (m : Mem) : Option PosixMq × Mem × Int := (q, m, if q.isSome then 0 else -9)

/-- `exec::read_cstr_safe`: 4096 bytes are read, and those before the first NUL must be UTF-8. -/
def readCstrSafe (m : Mem) (va : Nat) : Option (List UInt8) :=
  (copyFromUser m va 4096).bind fun buf =>
    let name := buf.takeWhile (· ≠ 0)
    if ByteArray.validateUTF8 ⟨name.toArray⟩ then some name else none

/-- `mq_maxmsg` and `mq_msgsize` of an `mq_attr`. -/
def readAttr (m : Mem) (attr : Nat) : Option (Nat × Nat) :=
  if attr = 0 then some (10, 8192)
  else (copyFromUser m attr 32).map fun buf =>
    let maxmsg := (Int64.ofNat (ofBytes ((buf.drop 8).take 8))).toInt
    let msgsize := (Int64.ofNat (ofBytes ((buf.drop 16).take 8))).toInt
    (min (max maxmsg 1).toNat 1024, min (max msgsize 1).toNat 65536)

/-! ### System calls -/

inductive Call where
  | msgget (key : Int32) (msgflg : UInt32)
  | msgsnd (msqid : Int32) (msgp msgsz : Nat)
  | msgrcv (msqid : Int32) (msgp msgsz : Nat) (msgtyp : Int64)
  | msgctl (msqid : Int32) (cmd : Int)
  | semget (key : Int32) (nsems : Int) (semflg : UInt32)
  | semop (semid : Int32) (sops nsops : Nat)
  | semctl (semid : Int32) (semnum cmd : Int) (arg : Nat)
  | shmget (key : Int32) (size : Nat) (shmflg : UInt32)
  | shmat (shmid : Int32) (shmaddr : Nat) (shmflg : UInt32)
  | shmdt (shmaddr : Nat)
  | shmctl (shmid : Int32) (cmd : Int)
  | mqOpen (name : Nat) (oflag : UInt32) (attr : Nat)
  | mqSend (mqdes : Int32) (buf msgLen : Nat) (prio : UInt32)
  | mqReceive (mqdes : Int32) (buf msgLen prioVa : Nat)
  | mqClose (mqdes : Int32)
  | mqUnlink (name : Nat)

namespace State

def nsOf (s : State) (pid : Pid) : NsId := (s.ipcNs pid).getD INIT_NS

/-- A call that finds a message queue of the caller's namespace. -/
def onMsgq (s : State) (pid : Pid) (id : Int32) (f : Option MsgQueue → Mem → Option MsgQueue × Mem × Int) : State × Int :=
  let ns := s.nsOf pid
  let r := f (s.msgq ns id) (s.mem pid)
  ({ s with msgq := update s.msgq ns (update (s.msgq ns) id r.1), mem := update s.mem pid r.2.1 },
    r.2.2)

/-- A call that finds a set of semaphores of the caller's namespace. -/
def onSems (s : State) (pid : Pid) (id : Int32) (f : Option (List Int32) → Mem → Option (List Int32) × Mem × Int) :
    State × Int :=
  let ns := s.nsOf pid
  let r := f (s.sems ns id) (s.mem pid)
  ({ s with sems := update s.sems ns (update (s.sems ns) id r.1), mem := update s.mem pid r.2.1 },
    r.2.2)

/-- A call that finds a POSIX message queue by its descriptor. -/
def onMq (s : State) (pid : Pid) (mqd : Int32) (f : Option PosixMq → Mem → Option PosixMq × Mem × Int) : State × Int :=
  let r := f (s.byMqd mqd) (s.mem pid)
  ({ s with byMqd := update s.byMqd mqd r.1, mem := update s.mem pid r.2.1 }, r.2.2)

def sysMsgget (s : State) (pid : Pid) (msgflg : UInt32) : State × Int :=
  if msgflg &&& IPC_CREAT ≠ 0 then
    let ns := s.nsOf pid
    ({ s with msgNext := s.msgNext + 1, msgq := update s.msgq ns (update (s.msgq ns) s.msgNext (some {})) },
      s.msgNext.toInt)
  else (s, -2)

def sysSemget (s : State) (pid : Pid) (nsems : Int) (semflg : UInt32) : State × Int :=
  if nsems < 0 ∨ 128 < nsems then (s, -22)
  else if semflg &&& IPC_CREAT ≠ 0 then
    let ns := s.nsOf pid
    ({ s with
        semNext := s.semNext + 1
        sems := update s.sems ns (update (s.sems ns) s.semNext (some (List.replicate nsems.toNat 0))) },
      s.semNext.toInt)
  else (s, -2)

def sysShmget (s : State) (pid : Pid) (size : Nat) (shmflg : UInt32) : State × Int :=
  if size = 0 then (s, -22)
  else if shmflg &&& IPC_CREAT ≠ 0 then
    let ns := s.nsOf pid
    ({ s with
        shmNext := s.shmNext + 1
        shms := update s.shms ns (update (s.shms ns) s.shmNext (some ⟨List.replicate size 0, false⟩)) },
      s.shmNext.toInt)
  else (s, -2)

def sysShmat (s : State) (pid : Pid) (shmid : Int32) (shmaddr : Nat) (shmflg : UInt32) : State × Int :=
  match s.shms (s.nsOf pid) shmid with
  | none => (s, -22)
  | some region =>
    let rounded := (region.data.length + PAGE - 1) / PAGE * PAGE
    let remap := shmaddr ≠ 0 ∧ shmflg &&& SHM_REMAP ≠ 0
    let va := if remap then shmaddr else (s.nextVa pid).getD 0
    let s := if remap then s
      else { s with nextVa := update s.nextVa pid ((s.nextVa pid).map fun v => v + rounded + PAGE) }
    if va = 0 then (s, -12)
    else ({ s with shmAttach := s.shmAttach ++ [(pid, ⟨shmid, va, rounded⟩)] }, va)

def sysShmdt (s : State) (pid : Pid) (shmaddr : Nat) : State × Int :=
  ({ s with shmAttach := s.shmAttach.filter fun q => !(q.1 == pid && q.2.va == shmaddr) }, 0)

def sysShmctl (s : State) (pid : Pid) (shmid : Int32) (cmd : Int) : State × Int :=
  if cmd = IPC_RMID then
    let ns := s.nsOf pid
    match s.shms ns shmid with
    | none => (s, 0)
    | some region =>
      -- the attachments of all processes of all namespaces are looked at
      let left := if s.shmAttach.any fun q => q.2.shmid == shmid then some { region with markedForRemoval := true } else none
      ({ s with shms := update s.shms ns (update (s.shms ns) shmid left) }, 0)
  else if cmd = IPC_STAT then (s, 0)
  else (s, -22)

def sysMqOpen (s : State) (pid : Pid) (nameVa : Nat) (oflag : UInt32) (attr : Nat) : State × Int :=
  match readCstrSafe (s.mem pid) nameVa with
  | none => (s, -14)
  | some name =>
    let ns := s.nsOf pid
    match s.byName ns name with
    | some mqd => if oflag &&& O_EXCL ≠ 0 ∧ oflag &&& O_CREAT ≠ 0 then (s, -17) else (s, mqd.toInt)
    | none =>
      if oflag &&& O_CREAT = 0 then (s, -2)
      else match readAttr (s.mem pid) attr with
        | none => (s, -14)
        | some (maxmsg, msgsize) =>
          ({ s with
              nextMqd := s.nextMqd + 1
              byName := update s.byName ns (update (s.byName ns) name (some s.nextMqd))
              byMqd := update s.byMqd s.nextMqd (some ⟨[], maxmsg, msgsize⟩) },
            s.nextMqd.toInt)

def sysMqUnlink (s : State) (pid : Pid) (nameVa : Nat) : State × Int :=
  match readCstrSafe (s.mem pid) nameVa with
  | none => (s, -14)
  | some name =>
    let ns := s.nsOf pid
    match s.byName ns name with
    | none => (s, -2)
    | some mqd =>
      ({ s with
          byName := update s.byName ns (update (s.byName ns) name none)
          byMqd := update s.byMqd mqd none }, 0)

def call (s : State) (pid : Pid) : Call → State × Int
  | .msgget _ msgflg => s.sysMsgget pid msgflg
  | .msgsnd msqid msgp msgsz => s.onMsgq pid msqid (SysvIpc.msgsnd msgp msgsz)
  | .msgrcv msqid msgp msgsz msgtyp => s.onMsgq pid msqid (SysvIpc.msgrcv msgp msgsz msgtyp)
  | .msgctl msqid cmd => s.onMsgq pid msqid (SysvIpc.msgctl cmd)
  | .semget _ nsems semflg => s.sysSemget pid nsems semflg
  | .semop semid sops nsops => s.onSems pid semid (SysvIpc.semop sops nsops)
  | .semctl semid semnum cmd arg => s.onSems pid semid (SysvIpc.semctl semnum cmd arg)
  | .shmget _ size shmflg => s.sysShmget pid size shmflg
  | .shmat shmid shmaddr shmflg => s.sysShmat pid shmid shmaddr shmflg
  | .shmdt shmaddr => s.sysShmdt pid shmaddr
  | .shmctl shmid cmd => s.sysShmctl pid shmid cmd
  | .mqOpen name oflag attr => s.sysMqOpen pid name oflag attr
  | .mqSend mqdes buf msgLen prio => s.onMq pid mqdes (SysvIpc.mqSend buf msgLen prio)
  | .mqReceive mqdes buf msgLen prioVa => s.onMq pid mqdes (SysvIpc.mqReceive buf msgLen prioVa)
  | .mqClose mqdes => s.onMq pid mqdes SysvIpc.mqClose
  | .mqUnlink name => s.sysMqUnlink pid name

/-- The results of a sequence of calls, and the state after it. -/
def run (s : State) : List (Pid × Call) → State × List Int
  | [] => (s, [])
  | c :: cs =>
    let r := s.call c.1 c.2
    let rs := r.1.run cs
    (rs.1, r.2 :: rs.2)

end State

end Moxide.SysvIpc
