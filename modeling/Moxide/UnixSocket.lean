import Mathlib

/-! Stream sockets of the Unix domain: `net/socket/unix/stream.rs` with `sys_socket` and `socket_close`. A slot beyond the
    table reads as an empty one. -/

namespace Moxide.UnixSocket

def MAX_SOCKETS : Nat := 4096
def USIZE_MAX : Nat := 2 ^ 64 - 1
def AF_UNIX : UInt16 := 1
def SOCK_STREAM : UInt16 := 1

inductive SocketState where
  | unbound
  | bound
  | listening
  | connected
  deriving DecidableEq, Repr

structure UnixConn where
  rx : Nat
  tx : Nat
  deriving DecidableEq, Repr

/-- `UnixConn::new_pair`: the client's end and the server's end of pair `n`. -/
def UnixConn.newPair (n : Nat) : UnixConn × UnixConn := (⟨2 * n + 1, 2 * n⟩, ⟨2 * n, 2 * n + 1⟩)

structure UnixListener where
  backlog : List UnixConn
  maxBacklog : Nat
  deriving DecidableEq, Repr

/-- `serial` tells apart the sockets that use a slot one after another; no function reads it. -/
structure Socket where
  domain : UInt16
  kind : UInt16
  protocol : UInt32
  state : SocketState
  loc : Option String
  peer : Option String
  unixConn : Option UnixConn
  unixListener : Option UnixListener
  serial : Nat
  deriving DecidableEq, Repr

def newSocket (domain kind : UInt16) (protocol : UInt32) (serial : Nat) : Socket :=
  ⟨domain, kind, protocol, .unbound, none, none, none, none, serial⟩

/-- `SOCKETS`, `UNIX_BINDS` and the pipes whose writer has closed. `bound` records which socket was bound to which path,
    `queued` on which socket `unix_connect` queued which connection, and `accepted` which socket returned it; no function
    reads these. -/
structure State where
  sockets : Nat → Option Socket
  binds : List (String × Nat)
  closed : List Nat
  nextPair : Nat
  nextSerial : Nat
  bound : List (Nat × String)
  queued : List (Nat × UnixConn)
  accepted : List (Nat × UnixConn)

namespace State

def new : State := ⟨fun _ => none, [], [], 0, 0, [], [], []⟩

/-- The first free slot among the `n` from `i` on. -/
def freeFrom (s : State) : Nat → Nat → Option Nat
  | 0, _ => none
  | n + 1, i => if (s.sockets i).isNone then some i else s.freeFrom n (i + 1)

def freeSlot (s : State) : Option Nat := s.freeFrom MAX_SOCKETS 0

def setSocket (s : State) (fd : Nat) (sock : Socket) : State :=
  { s with sockets := Function.update s.sockets fd (some sock) }

def install (s : State) (i : Nat) (sock : Nat → Socket) : State :=
  { s.setSocket i (sock s.nextSerial) with nextSerial := s.nextSerial + 1 }

def sysSocket (s : State) (domain kind : UInt16) (protocol : UInt32) : State × Int :=
  match s.freeSlot with
  | some i => (s.install i (newSocket domain kind protocol), i)
  | none => (s, -24)

def unixBind (s : State) (fd : Nat) (path : String) : State × Int :=
  if (s.binds.lookup path).isSome then (s, -98)
  else
    let s := { s with binds := s.binds ++ [(path, fd)] }
    match s.sockets fd with
    | some sock =>
      ({ s.setSocket fd { sock with loc := some path, state := .bound } with bound := s.bound ++ [(sock.serial, path)] }, 0)
    | none => (s, 0)

def unixListen (s : State) (fd backlog : Nat) : State × Int :=
  match s.sockets fd with
  | some sock => (s.setSocket fd { sock with unixListener := some ⟨[], backlog⟩, state := .listening }, 0)
  | none => (s, 0)

def unixAccept (s : State) (fd : Nat) : State × Int :=
  match s.sockets fd with
  | none => (s, -9)
  | some sock =>
    match sock.unixListener with
    | none => (s, -22)
    | some ul =>
      match ul.backlog with
      | [] => (s, -11)
      | conn :: rest =>
        let s := s.setSocket fd { sock with unixListener := some { ul with backlog := rest } }
        match s.freeSlot with
        | some i =>
          ({ s.install i
            (fun n => { newSocket AF_UNIX SOCK_STREAM 0 n with state := .connected, unixConn := some conn }) with
              accepted := s.accepted ++ [(sock.serial, conn)] }, i)
        | none => (s, -24)

def unixConnect (s : State) (fd : Nat) (path : String) : State × Int :=
  let serverFd := (s.binds.lookup path).getD USIZE_MAX
  if serverFd = USIZE_MAX then (s, -2)
  else
    let (clientConn, serverConn) := UnixConn.newPair s.nextPair
    let s := { s with nextPair := s.nextPair + 1 }
    match s.sockets serverFd with
    | none => (s, -111)
    | some server =>
      match server.unixListener with
      | none => (s, -111)
      | some ul =>
        if ul.maxBacklog ≤ ul.backlog.length then (s, -111)
        else
          let s := { s.setSocket serverFd { server with
              unixListener := some { ul with backlog := ul.backlog ++ [serverConn] } } with
            queued := s.queued ++ [(server.serial, serverConn)] }
          match s.sockets fd with
          | some sock =>
            (s.setSocket fd { sock with state := .connected, unixConn := some clientConn, peer := some path }, 0)
          | none => (s, 0)

def socketClose (s : State) (fd : Nat) : State :=
  match s.sockets fd with
  | some sock =>
    { s with
      closed := s.closed ++ (sock.unixConn.map (·.tx)).toList
      sockets := Function.update s.sockets fd none }
  | none => s

inductive Event where
  | socket (domain kind : UInt16) (protocol : UInt32)
  | bind (fd : Nat) (path : String)
  | listen (fd backlog : Nat)
  | connect (fd : Nat) (path : String)
  | accept (fd : Nat)
  | close (fd : Nat)
  deriving DecidableEq

def step (s : State) : Event → Option State
  | .socket domain kind protocol => some (s.sysSocket domain kind protocol).1
  | .bind fd path => some (s.unixBind fd path).1
  | .listen fd backlog => some (s.unixListen fd backlog).1
  | .connect fd path => some (s.unixConnect fd path).1
  | .accept fd => some (s.unixAccept fd).1
  | .close fd => some (s.socketClose fd)

end State

end Moxide.UnixSocket
