import Moxide.Ipc
import Moxide.Lib.Bytes

/-! The proxies of `fs/ipc_proxy_scheme.rs` and the types of `scheme-api`. Every registration of a scheme makes a proxy
    with a lock of its own, and several can have one endpoint. `IpcProxyScheme::call` is cut where it takes the lock of its
    proxy, sends and receives. The driver answers the requests it receives once each and in order. -/

namespace Moxide.SchemeProxy
open Ipc (Bytes EndpointState)
open Lib.LittleEndian (toBytes ofBytes)

inductive SeekWhence where
  | start
  | current
  | fromEnd
  deriving DecidableEq, Repr

inductive SchemeError where
  | noSuchScheme
  | notFound
  | permissionDenied
  | invalidArg
  | wouldBlock
  | io
  | unreachable
  | other
  deriving DecidableEq, Repr

def SeekWhence.toU8 : SeekWhence → UInt8
  | .start => 0
  | .current => 1
  | .fromEnd => 2

def SchemeError.toU32 : SchemeError → UInt32
  | .noSuchScheme => 1
  | .notFound => 2
  | .permissionDenied => 3
  | .invalidArg => 4
  | .wouldBlock => 5
  | .io => 6
  | .unreachable => 7
  | .other => 0xFF

/-- File ids, `usize` and the bits of `OpenFlags` are words. -/
inductive SchemeRequest where
  | opens (path : String) (flags : UInt32)
  | read (fd len : UInt64)
  | write (fd : UInt64) (data : Bytes)
  | ioctl (fd cmd arg : UInt64)
  | seek (fd : UInt64) (offset : Int64) (whence : SeekWhence)
  | close (fd : UInt64)
  deriving DecidableEq, Repr

inductive SchemeResponse where
  | fd (id : UInt64)
  | data (bytes : Bytes)
  | count (n : UInt64)
  | seekPos (pos : Int64)
  | ok
  | err (e : SchemeError)
  deriving DecidableEq, Repr

/-! ### Encoding -/

def TAG_OPEN : UInt8 := 1
def TAG_READ : UInt8 := 2
def TAG_WRITE : UInt8 := 3
def TAG_IOCTL : UInt8 := 4
def TAG_SEEK : UInt8 := 5
def TAG_CLOSE : UInt8 := 6

def RESP_FD : UInt8 := 0x80
def RESP_DATA : UInt8 := 0x81
def RESP_COUNT : UInt8 := 0x82
def RESP_SEEK : UInt8 := 0x83
def RESP_OK : UInt8 := 0x84
def RESP_ERR : UInt8 := 0xFF

def pushU32 (v : Bytes) (n : UInt32) : Bytes := v ++ toBytes 4 n.toNat
def pushU64 (v : Bytes) (n : UInt64) : Bytes := v ++ toBytes 8 n.toNat
def pushBytes (v b : Bytes) : Bytes := pushU32 v (UInt32.ofNat b.length) ++ b
def pushStr (v : Bytes) (s : String) : Bytes := pushBytes v s.toUTF8.data.toList

def encodeRequest : SchemeRequest → Bytes
  | .opens path flags => pushStr (pushU32 [TAG_OPEN] flags) path
  | .read fd len => pushU64 (pushU64 [TAG_READ] fd) len
  | .write fd data => pushBytes (pushU64 [TAG_WRITE] fd) data
  | .ioctl fd cmd arg => pushU64 (pushU64 (pushU64 [TAG_IOCTL] fd) cmd) arg
  | .seek fd offset whence => pushU64 (pushU64 [TAG_SEEK] fd) offset.toUInt64 ++ [whence.toU8]
  | .close fd => pushU64 [TAG_CLOSE] fd

def readU32 (b : Bytes) : Option UInt32 := if 4 ≤ b.length then some (UInt32.ofNat (ofBytes (b.take 4))) else none
def readU64 (b : Bytes) : Option UInt64 := if 8 ≤ b.length then some (UInt64.ofNat (ofBytes (b.take 8))) else none

def schemeErrorFromU32 (n : UInt32) : SchemeError :=
  if n = 1 then .noSuchScheme
  else if n = 2 then .notFound
  else if n = 3 then .permissionDenied
  else if n = 4 then .invalidArg
  else if n = 5 then .wouldBlock
  else if n = 6 then .io
  else if n = 7 then .unreachable
  else .other

def decodeResponse : Bytes → Option SchemeResponse
  | [] => none
  | tag :: rest =>
    if tag = RESP_FD then (readU64 rest).map .fd
    else if tag = RESP_DATA then some (.data rest)
    else if tag = RESP_COUNT then (readU64 rest).map .count
    else if tag = RESP_SEEK then (readU64 rest).map (.seekPos ·.toInt64)
    else if tag = RESP_OK then some .ok
    else if tag = RESP_ERR then (readU32 rest).map (.err <| schemeErrorFromU32 ·)
    else none

/-! ### Calls -/

inductive Point where
  | start
  | locked
  | sent
  | returned (res : Except SchemeError SchemeResponse)
  deriving DecidableEq

/-- A call through the proxy numbered `proxy`. -/
structure ProxyCall where
  proxy : Nat
  req : SchemeRequest
  point : Point
  deriving DecidableEq

/-- An answer of the driver: the call whose request it answers, the request as the driver received it, and the reply. -/
structure Answer where
  call : Nat
  request : Bytes
  reply : Bytes
  deriving DecidableEq, Repr

/-- The endpoint, the proxies whose lock is held, all calls on the endpoint and the driver, which keeps the requests it has
    received and not answered (`taken`). `asked` names the calls whose requests wait in `to_server`; no function reads it,
    nor the calls in `taken` and `answers`. -/
structure State where
  ep : EndpointState
  locked : List Nat
  calls : List ProxyCall
  asked : List Nat
  taken : List (Nat × Bytes)
  answers : List Answer
  deriving DecidableEq

def State.new (driver : Nat) : State := ⟨⟨driver, [], []⟩, [], [], [], [], []⟩

inductive Event where
  | call (proxy : Nat) (req : SchemeRequest)
  | acquire (i : Nat)
  | send (i : Nat)
  | recv (i : Nat)
  | driverRecv (bufLen : Nat) (copied : Bool)
  | driverAnswer (reply : Bytes) (valid : Bool)
  deriving DecidableEq

namespace State

def setPoint (s : State) (i : Nat) (p : Point) : State :=
  { s with calls := s.calls.modify i fun c => { c with point := p } }

/-- The guard of the lock is dropped when the call returns. -/
def finish (s : State) (i : Nat) (c : ProxyCall) (res : Except SchemeError SchemeResponse) : State :=
  { s.setPoint i (.returned res) with locked := s.locked.erase c.proxy }

def sendStep (s : State) (i : Nat) (c : ProxyCall) : State :=
  match s.ep.send (encodeRequest c.req) with
  | none => s.finish i c (.error .unreachable)
  | some ep => { s with ep := ep, asked := s.asked ++ [i] }.setPoint i .sent

def recvStep (s : State) (i : Nat) (c : ProxyCall) : State :=
  match s.ep.recv with
  | none => s.finish i c (.error .unreachable)
  | some (ep, reply) =>
    { s with ep := ep }.finish i c (match decodeResponse reply with
      | some resp => .ok resp
      | none => .error .io)

def driverRecv (s : State) (bufLen : Nat) (copied : Bool) : State :=
  let (ep, res) := s.ep.sysRecv bufLen copied
  match s.asked, res with
  | i :: asked, .ok msg => { s with ep := ep, asked := asked, taken := s.taken ++ [(i, msg)] }
  | _, _ => { s with ep := ep, asked := s.asked.tail }

/-- The driver answers the oldest request that it has not answered; if the endpoint refuses, it still has to. -/
def driverAnswer (s : State) (reply : Bytes) (valid : Bool) : Option State :=
  match s.taken with
  | [] => none
  | (i, msg) :: taken =>
    let (ep, rc) := s.ep.sysSend reply valid
    if rc < 0 then some s else some { s with ep := ep, taken := taken, answers := s.answers ++ [⟨i, msg, reply⟩] }

def step (s : State) : Event → Option State
  | .call proxy req => some { s with calls := s.calls ++ [⟨proxy, req, .start⟩] }
  | .acquire i =>
    match s.calls[i]? with
    | some c =>
      if c.point = .start ∧ c.proxy ∉ s.locked then some { s.setPoint i .locked with locked := c.proxy :: s.locked }
      else none
    | none => none
  | .send i =>
    match s.calls[i]? with
    | some c => if c.point = .locked then some (s.sendStep i c) else none
    | none => none
  | .recv i =>
    match s.calls[i]? with
    | some c => if c.point = .sent then some (s.recvStep i c) else none
    | none => none
  | .driverRecv bufLen copied => some (s.driverRecv bufLen copied)
  | .driverAnswer reply valid => s.driverAnswer reply valid

end State

end Moxide.SchemeProxy
