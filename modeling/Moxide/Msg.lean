import Mathlib

/-! A message queue (`ipc/msg.rs`). `check_perm` is asked about uid 0 and says yes. -/

namespace Moxide.Msg

def MSGMAX : Nat := 8192
def MSGMNB : Nat := 16384

structure Message where
  mtype : Int
  data : List UInt8

structure MsgQueue where
  messages : List Message := []
  msgCbytes : Nat := 0
  msgQnum : Nat := 0
  msgQbytes : Nat := MSGMNB

inductive Outcome where
  | sent
  | received (m : Message)
  | err (e : Int)
  /-- The call goes round its loop again. -/
  | spin
  /-- `unwrap` of `None`. -/
  | panic

inductive Call where
  | msgsnd (mtype : Int) (data : List UInt8) (nowait : Bool)
  | msgrcv (msgsz : Nat) (msgtyp : Int) (nowait : Bool)

/-- `min_by_key` returns the first of the minimal elements. -/
def minByKey (l : List (Message × Nat)) : Option (Message × Nat) :=
  l.find? fun m => l.all fun x => m.1.mtype ≤ x.1.mtype

def target (l : List Message) (msgtyp : Int) : Option Nat :=
  if msgtyp = 0 then if l.isEmpty then none else some 0
  else if 0 < msgtyp then l.findIdx? (·.mtype = msgtyp)
  else (minByKey (l.zipIdx.filter (·.1.mtype ≤ -msgtyp))).map (·.2)

namespace MsgQueue

def push (q : MsgQueue) (m : Message) : MsgQueue :=
  { q with messages := q.messages ++ [m], msgCbytes := q.msgCbytes + m.data.length, msgQnum := q.msgQnum + 1 }

def take (q : MsgQueue) (i : Nat) (m : Message) : MsgQueue :=
  { q with messages := q.messages.eraseIdx i, msgCbytes := q.msgCbytes - m.data.length, msgQnum := q.msgQnum - 1 }

def call (q : MsgQueue) : Call → Outcome × MsgQueue
  | .msgsnd mtype data nowait =>
    if mtype ≤ 0 then (.err (-22), q)
    else if data.length > MSGMAX then (.err (-90), q)
    else if q.msgCbytes + data.length > q.msgQbytes then (if nowait then .err (-11) else .spin, q)
    else (.sent, q.push ⟨mtype, data⟩)
  | .msgrcv msgsz msgtyp nowait =>
    match target q.messages msgtyp with
    | none => (if nowait then .err (-11) else .spin, q)
    | some i =>
      match q.messages[i]? with
      | none => (.panic, q)
      | some m =>
        if m.data.length > msgsz then (.err (-90), { q with messages := (q.messages.eraseIdx i).insertIdx i m })
        else (.received m, q.take i m)

def calls (q : MsgQueue) (cs : List Call) : MsgQueue := cs.foldl (fun q c => (q.call c).2) q

end MsgQueue

end Moxide.Msg
