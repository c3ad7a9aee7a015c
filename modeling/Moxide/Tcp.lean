import Mathlib

/-! The TCP layer (`src/net/tcp.rs`). The table is a value that every operation takes and returns, with the segments handed
    to `ip::send` so far. `our_ip` and the numbers drawn by `rand32` are arguments. A panic is `none`. -/

namespace Moxide.Tcp

def TCP_HDR_MIN : Nat := 20

def FIN : UInt8 := 0x01
def SYN : UInt8 := 0x02
def RST : UInt8 := 0x04
def PSH : UInt8 := 0x08
def ACK : UInt8 := 0x10

def PROTO_TCP : UInt8 := 6

inductive TcpState where
  | closed | listen | synSent | synReceived | established | finWait1 | finWait2 | closeWait | closing
  | lastAck | timeWait
  deriving DecidableEq, Repr

structure TcpConn where
  state : TcpState
  localIp : UInt32
  localPort : UInt16
  remoteIp : UInt32
  remotePort : UInt16
  sndUna : UInt32
  sndNxt : UInt32
  sndWnd : UInt16
  sndIsn : UInt32
  rcvNxt : UInt32
  rcvWnd : UInt16
  rcvIsn : UInt32
  rxBuf : List UInt8
  txBuf : List UInt8
  unacked : List (UInt32 × List UInt8)
  backlog : List TcpConn
  nodelay : Bool

def TcpConn.new : TcpConn where
  state := .closed
  localIp := 0
  localPort := 0
  remoteIp := 0
  remotePort := 0
  sndUna := 0
  sndNxt := 0
  sndWnd := 65535
  sndIsn := 0
  rcvNxt := 0
  rcvWnd := 65535
  rcvIsn := 0
  rxBuf := []
  txBuf := []
  unacked := []
  backlog := []
  nodelay := false

/-- The arguments of one `send_segment` call. -/
structure Segment where
  srcIp : UInt32
  srcPort : UInt16
  dstIp : UInt32
  dstPort : UInt16
  seq : UInt32
  ack : UInt32
  flags : UInt8
  window : UInt16
  data : List UInt8
  deriving DecidableEq, Repr

/-- `TCP_CONNS`, and the segments sent so far, the first one first. -/
structure Net where
  conns : List (Option TcpConn)
  sent : List Segment

def Net.conn? (net : Net) (idx : Nat) : Option TcpConn := net.conns[idx]?.join

def Net.setConn (net : Net) (idx : Nat) (c : Option TcpConn) : Net := { net with conns := net.conns.set idx c }

def Net.emit (net : Net) (segs : List Segment) : Net := { net with sent := net.sent ++ segs }

/-! ### Bytes on the wire -/

def be16 (b0 b1 : UInt8) : UInt16 := (b0.toUInt16 <<< 8) ||| b1.toUInt16

def be32 (b0 b1 b2 b3 : UInt8) : UInt32 :=
  (b0.toUInt32 <<< 24) ||| (b1.toUInt32 <<< 16) ||| (b2.toUInt32 <<< 8) ||| b3.toUInt32

/-- The sum of the big-endian 16-bit words of `bs`, an odd last byte padded with a zero. -/
def sumWords : List UInt8 → UInt32 → UInt32
  | a :: b :: rest, sum => sumWords rest (sum + (be16 a b).toUInt32)
  | [a], sum => sum + (be16 a 0).toUInt32
  | [], sum => sum

/-- `while sum >> 16 != 0`: three rounds fold any `u32` (`foldCarry_done`). -/
def foldCarry : Nat → UInt32 → UInt32
  | 0, sum => sum
  | n + 1, sum => if sum >>> 16 ≠ 0 then foldCarry n ((sum &&& (0xFFFF : UInt32)) + (sum >>> 16)) else sum

def pseudoHeader (srcIp dstIp len : UInt32) : List UInt8 :=
  [(srcIp >>> 24).toUInt8, (srcIp >>> 16).toUInt8, (srcIp >>> 8).toUInt8, srcIp.toUInt8,
   (dstIp >>> 24).toUInt8, (dstIp >>> 16).toUInt8, (dstIp >>> 8).toUInt8, dstIp.toUInt8,
   0, PROTO_TCP, (len >>> 8).toUInt8, len.toUInt8]

def tcpChecksum (srcIp dstIp : UInt32) (segment : List UInt8) : UInt16 :=
  let pseudo := pseudoHeader srcIp dstIp segment.length.toUInt32
  ~~~(foldCarry 3 (sumWords segment (sumWords pseudo 0))).toUInt16

/-- The header of a segment with checksum field `csum`. -/
def Segment.header (s : Segment) (csum : UInt16) : List UInt8 :=
  [(s.srcPort >>> 8).toUInt8, s.srcPort.toUInt8, (s.dstPort >>> 8).toUInt8, s.dstPort.toUInt8,
   (s.seq >>> 24).toUInt8, (s.seq >>> 16).toUInt8, (s.seq >>> 8).toUInt8, s.seq.toUInt8,
   (s.ack >>> 24).toUInt8, (s.ack >>> 16).toUInt8, (s.ack >>> 8).toUInt8, s.ack.toUInt8,
   0x50, s.flags, (s.window >>> 8).toUInt8, s.window.toUInt8, (csum >>> 8).toUInt8, csum.toUInt8, 0, 0]

/-- The bytes that `send_segment` hands to `ip::send`. -/
def Segment.bytes (s : Segment) : List UInt8 :=
  s.header (tcpChecksum s.srcIp s.dstIp (s.header 0 ++ s.data)) ++ s.data

def sendRst (srcIp : UInt32) (srcPort : UInt16) (dstIp : UInt32) (dstPort : UInt16) (seq ack : UInt32) : Segment :=
  ⟨srcIp, srcPort, dstIp, dstPort, seq, ack, RST ||| ACK, 0, []⟩

/-- The fields that `receive` reads from a packet of at least `TCP_HDR_MIN` bytes. -/
structure Header where
  srcPort : UInt16
  dstPort : UInt16
  seq : UInt32
  ackNum : UInt32
  dataOff : Nat
  flags : UInt8
  window : UInt16
  deriving DecidableEq, Repr

def header (pkt : List UInt8) : Header :=
  let b := fun i => pkt.getD i 0
  { srcPort := be16 (b 0) (b 1)
    dstPort := be16 (b 2) (b 3)
    seq := be32 (b 4) (b 5) (b 6) (b 7)
    ackNum := be32 (b 8) (b 9) (b 10) (b 11)
    dataOff := ((b 12 >>> 4) * 4).toNat
    flags := b 13
    window := be16 (b 14) (b 15) }

/-! ### Segment input -/

def isBetween (lo x hi : UInt32) : Bool :=
  if lo ≤ hi then decide (lo ≤ x) && decide (x < hi) else decide (lo ≤ x) || decide (x < hi)

/-- A segment from the connection to its peer, as `process_established`, `flush` and `close` build it. -/
def TcpConn.segmentTo (c : TcpConn) (ourIp seq : UInt32) (flags : UInt8) (data : List UInt8) : Segment :=
  ⟨ourIp, c.localPort, c.remoteIp, c.remotePort, seq, c.rcvNxt, flags, c.rcvWnd, data⟩

/-- The ACK number of a segment: drop what it covers from `unacked` and advance `snd_una`. -/
def TcpConn.acknowledge (c : TcpConn) (ack : UInt32) : TcpConn :=
  if isBetween c.sndUna ack (c.sndNxt + 1) then
    { c with unacked := c.unacked.filter fun e => !isBetween c.sndUna e.1 ack, sndUna := ack }
  else c

/-- The states in which the payload and the FIN of a segment are taken. -/
def TcpState.receiving : TcpState → Bool
  | .established | .finWait1 | .finWait2 => true
  | _ => false

def TcpState.afterFin : TcpState → TcpState
  | .established => .closeWait
  | .finWait2 => .timeWait
  | st => st

/-- The payload and the FIN of a segment: the last part of `process_established`. -/
def TcpConn.deliver (c : TcpConn) (ourIp seq : UInt32) (flags : UInt8) (data : List UInt8) : TcpConn × List Segment :=
  if c.state.receiving then
    let c := if seq = c.rcvNxt ∧ data ≠ [] then
        { c with rxBuf := c.rxBuf ++ data, rcvNxt := c.rcvNxt + data.length.toUInt32 }
      else c
    let c := if flags &&& FIN ≠ 0 then { c with rcvNxt := c.rcvNxt + 1, state := c.state.afterFin } else c
    (c, [c.segmentTo ourIp c.sndNxt ACK []])
  else (c, [])

/-- The state changes that an ACK causes after `acknowledge`, up to `LastAck`. -/
def TcpConn.afterAck (c : TcpConn) : TcpConn :=
  let c := if c.state = .synReceived then { c with state := .established } else c
  if c.state = .finWait1 ∧ c.sndUna = c.sndNxt then { c with state := .finWait2 } else c

def TcpConn.process (c : TcpConn) (ourIp seq ack : UInt32) (flags : UInt8) (window : UInt16) (data : List UInt8) :
    TcpConn × List Segment :=
  if flags &&& RST ≠ 0 then ({ c with state := .closed }, [])
  else
    let c := { c with sndWnd := window }
    if flags &&& ACK ≠ 0 then
      if c.state = .synSent ∧ flags &&& SYN ≠ 0 then
        let c := { c with rcvIsn := seq, rcvNxt := seq + 1, sndUna := ack, state := .established }
        (c, [c.segmentTo ourIp c.sndNxt ACK []])
      else
        let c := (c.acknowledge ack).afterAck
        if c.state = .lastAck ∧ c.sndUna = c.sndNxt then ({ c with state := .closed }, [])
        else c.deliver ourIp seq flags data
    else c.deliver ourIp seq flags data

def processEstablished (net : Net) (idx : Nat) (ourIp seq ack : UInt32) (flags : UInt8) (window : UInt16)
    (data : List UInt8) : Net :=
  match net.conn? idx with
  | none => net
  | some c =>
    let (c', segs) := c.process ourIp seq ack flags window data
    (net.setConn idx (some c')).emit segs

def isConnTo (dstPort : UInt16) (srcIp : UInt32) (srcPort : UInt16) (slot : Option TcpConn) : Bool :=
  match slot with
  | none => false
  | some c => c.localPort == dstPort && c.remoteIp == srcIp && c.remotePort == srcPort &&
      !(c.state == .closed || c.state == .listen)

def isListenerOn (dstPort : UInt16) (slot : Option TcpConn) : Bool :=
  match slot with
  | none => false
  | some c => c.localPort == dstPort && c.state == .listen

/-- The half-open connection that a SYN leaves in the listener's backlog. -/
def halfOpen (ourIp isn srcIp : UInt32) (h : Header) : TcpConn :=
  { TcpConn.new with
    state := .synReceived
    localIp := ourIp
    localPort := h.dstPort
    remoteIp := srcIp
    remotePort := h.srcPort
    rcvIsn := h.seq
    rcvNxt := h.seq + 1
    sndIsn := isn
    sndNxt := isn + 1
    sndUna := isn
    sndWnd := h.window }

def synAck (ourIp isn srcIp : UInt32) (h : Header) : Segment :=
  ⟨ourIp, h.dstPort, srcIp, h.srcPort, isn, h.seq + 1, SYN ||| ACK, 65535, []⟩

/-- The last part of `receive`: answer a segment that nothing takes with a RST, unless it is one. -/
def reject (net : Net) (ourIp srcIp : UInt32) (h : Header) (data : List UInt8) : Net :=
  if h.flags &&& RST = 0 then
    let ackSeq := if h.flags &&& ACK ≠ 0 then h.ackNum else h.seq + data.length.toUInt32
    net.emit [sendRst ourIp h.dstPort srcIp h.srcPort ackSeq h.seq]
  else net

/-- `receive(src_ip, pkt)`, with `rand32` the number that `crate::rand::rand32()` would draw. -/
def receive (net : Net) (ourIp rand32 srcIp : UInt32) (pkt : List UInt8) : Net :=
  let h := header pkt
  if pkt.length < TCP_HDR_MIN then net
  else if pkt.length < h.dataOff then net
  else if tcpChecksum srcIp ourIp pkt ≠ 0 then net
  else
    let data := pkt.drop h.dataOff
    match net.conns.findIdx? (isConnTo h.dstPort srcIp h.srcPort) with
    | some idx => processEstablished net idx ourIp h.seq h.ackNum h.flags h.window data
    | none =>
      match net.conns.findIdx? (isListenerOn h.dstPort) with
      | some lidx =>
        if h.flags &&& SYN ≠ 0 ∧ h.flags &&& ACK = 0 then
          let net := net.emit [synAck ourIp rand32 srcIp h]
          match net.conn? lidx with
          | some l => net.setConn lidx (some { l with backlog := l.backlog ++ [halfOpen ourIp rand32 srcIp h] })
          | none => net
        else reject net ourIp srcIp h data
      | none => reject net ourIp srcIp h data

/-! ### The calls of the socket layer -/

def allocTcpSlot (conns : List (Option TcpConn)) : List (Option TcpConn) × Nat :=
  match conns.findIdx? (·.isNone) with
  | some idx => (conns, idx)
  | none => (conns ++ [none], conns.length)

def ensureSlot (conns : List (Option TcpConn)) (idx : Nat) : List (Option TcpConn) :=
  conns ++ List.replicate (idx + 1 - conns.length) none

/-- Put `c` into a free slot and return its index. -/
def Net.insert (net : Net) (c : TcpConn) : Net × Nat :=
  let (conns, idx) := allocTcpSlot net.conns
  ({ net with conns := conns.set idx (some c) }, idx)

def connect (net : Net) (ourIp rand32 localIp : UInt32) (srcPort : UInt16) (dstIp : UInt32) (dstPort : UInt16) : Net × Nat :=
  let ourIp := if localIp = 0 then ourIp else localIp
  let c := { TcpConn.new with
    state := .synSent
    localIp := ourIp
    localPort := srcPort
    remoteIp := dstIp
    remotePort := dstPort
    sndIsn := rand32
    sndNxt := rand32 + 1
    sndUna := rand32 }
  (net.emit [⟨ourIp, srcPort, dstIp, dstPort, rand32, 0, SYN, 65535, []⟩]).insert c

def listener (ourIp : UInt32) (localPort : UInt16) : TcpConn :=
  { TcpConn.new with state := .listen, localIp := ourIp, localPort := localPort }

def listen (net : Net) (ourIp : UInt32) (fd : Nat) (localPort : UInt16) : Net :=
  { net with conns := (ensureSlot net.conns fd).set fd (some (listener ourIp localPort)) }

def listenAuto (net : Net) (ourIp : UInt32) (localPort : UInt16) : Net × Nat := net.insert (listener ourIp localPort)

/-- `accept(listen_idx)`: the table afterwards and the returned index or errno. -/
def accept (net : Net) (listenIdx : Nat) : Net × Int :=
  match net.conn? listenIdx with
  | none => (net, -9)
  | some l =>
    match l.backlog.findIdx? (·.state == .established) with
    | none => (net, -11)
    | some pos =>
      match l.backlog[pos]? with
      | none => (net, -11)
      | some accepted =>
        let net := net.setConn listenIdx (some { l with backlog := l.backlog.eraseIdx pos })
        let (net, idx) := net.insert accepted
        (net, idx)

def hasPendingAccept (net : Net) (listenIdx : Nat) : Bool :=
  match net.conn? listenIdx with
  | none => false
  | some l => l.backlog.any (·.state == .established)

/-- `write` on the connection it finds: the connection afterwards and the returned count or errno. -/
def TcpConn.write (c : TcpConn) (data : List UInt8) : TcpConn × Int :=
  if c.state = .established then ({ c with txBuf := c.txBuf ++ data }, data.length) else (c, -104)

def write (net : Net) (idx : Nat) (data : List UInt8) : Net × Int :=
  match net.conn? idx with
  | none => (net, -9)
  | some c =>
    let (c', n) := c.write data
    (net.setConn idx (some c'), n)

def MSS : Nat := 1460

/-- The size of the next segment of `flush`. -/
def TcpConn.chunkLen (c : TcpConn) : Nat :=
  let limit := if c.nodelay then c.txBuf.length else MSS
  min limit c.sndWnd.toNat

/-- One round of `flush`: take `n` bytes of the buffer and record them as unacknowledged. -/
def TcpConn.sendChunk (c : TcpConn) (n : Nat) : TcpConn :=
  { c with
    txBuf := c.txBuf.drop n
    unacked := c.unacked ++ [(c.sndNxt, c.txBuf.take n)]
    sndNxt := c.sndNxt + n.toUInt32 }

/-- The `while` loop of `flush`. Each round takes at least one byte, so `txBuf.length` rounds empty the buffer
    or meet a closed window. `drain(..n)` panics when `n` is past the end of the buffer. -/
def flushLoop (ourIp : UInt32) : Nat → TcpConn → Option (TcpConn × List Segment)
  | 0, c => some (c, [])
  | fuel + 1, c =>
    if c.txBuf = [] then some (c, [])
    else if c.chunkLen = 0 then some (c, [])
    else if c.txBuf.length < c.chunkLen then none
    else do
      let seg := c.segmentTo ourIp c.sndNxt (PSH ||| ACK) (c.txBuf.take c.chunkLen)
      let (c', segs) ← flushLoop ourIp fuel (c.sendChunk c.chunkLen)
      return (c', seg :: segs)

def TcpConn.flush (c : TcpConn) (ourIp : UInt32) : Option (TcpConn × List Segment) :=
  if c.state ≠ .established then some (c, []) else flushLoop ourIp c.txBuf.length c

def flush (net : Net) (ourIp : UInt32) (idx : Nat) : Option Net :=
  match net.conn? idx with
  | none => some net
  | some c => do
    let (c', segs) ← c.flush ourIp
    return (net.setConn idx (some c')).emit segs

def send (net : Net) (ourIp : UInt32) (idx : Nat) (data : List UInt8) : Option (Net × Int) :=
  let (net, n) := write net idx data
  if 0 < n then do
    let net ← flush net ourIp idx
    return (net, n)
  else some (net, n)

/-- `read` on the connection it finds, into a buffer of `len` bytes. -/
def TcpConn.read (c : TcpConn) (len : Nat) : TcpConn × List UInt8 :=
  let n := min c.rxBuf.length len
  ({ c with rxBuf := c.rxBuf.drop n }, c.rxBuf.take n)

/-- `read(idx, buf)`: the table afterwards and the bytes copied into `buf`, or the errno. -/
def read (net : Net) (idx len : Nat) : Net × Except Int (List UInt8) :=
  match net.conn? idx with
  | none => (net, .error (-9))
  | some c =>
    let (c', bytes) := c.read len
    (net.setConn idx (some c'), .ok bytes)

def setNodelay (net : Net) (idx : Nat) (enabled : Bool) : Net :=
  match net.conn? idx with
  | none => net
  | some c => net.setConn idx (some { c with nodelay := enabled })

/-- `close` on the connection it finds: `none` releases the slot. -/
def TcpConn.close (c : TcpConn) (ourIp : UInt32) : Option TcpConn × List Segment :=
  match c.state with
  | .established =>
    (some { c with sndNxt := c.sndNxt + 1, state := .finWait1 }, [c.segmentTo ourIp c.sndNxt (FIN ||| ACK) []])
  | .closeWait =>
    (some { c with sndNxt := c.sndNxt + 1, state := .lastAck }, [c.segmentTo ourIp c.sndNxt (FIN ||| ACK) []])
  | _ => (none, [])

def close (net : Net) (ourIp : UInt32) (idx : Nat) : Net :=
  match net.conn? idx with
  | none => net
  | some c =>
    let (c', segs) := c.close ourIp
    (net.setConn idx c').emit segs

/-- What `tick_retransmit` sends for one connection. -/
def TcpConn.retransmit (c : TcpConn) (ourIp : UInt32) : List Segment :=
  if c.state ≠ .established then []
  else c.unacked.map fun e => c.segmentTo ourIp e.1 (PSH ||| ACK) e.2

def tickRetransmit (net : Net) (ourIp : UInt32) : Net :=
  net.emit (net.conns.flatMap fun slot =>
    match slot with
    | none => []
    | some c => c.retransmit ourIp)

inductive Call where
  | receive (rand32 srcIp : UInt32) (pkt : List UInt8)
  | connect (rand32 localIp : UInt32) (srcPort : UInt16) (dstIp : UInt32) (dstPort : UInt16)
  | listen (fd : Nat) (localPort : UInt16)
  | listenAuto (localPort : UInt16)
  | accept (listenIdx : Nat)
  | setNodelay (idx : Nat) (enabled : Bool)
  | write (idx : Nat) (data : List UInt8)
  | flush (idx : Nat)
  | send (idx : Nat) (data : List UInt8)
  | read (idx len : Nat)
  | close (idx : Nat)
  | tickRetransmit

def Net.call (ourIp : UInt32) (net : Net) : Call → Option Net
  | .receive rand32 srcIp pkt => some (receive net ourIp rand32 srcIp pkt)
  | .connect rand32 localIp srcPort dstIp dstPort => some (connect net ourIp rand32 localIp srcPort dstIp dstPort).1
  | .listen fd localPort => some (listen net ourIp fd localPort)
  | .listenAuto localPort => some (listenAuto net ourIp localPort).1
  | .accept listenIdx => some (accept net listenIdx).1
  | .setNodelay idx enabled => some (setNodelay net idx enabled)
  | .write idx data => some (write net idx data).1
  | .flush idx => flush net ourIp idx
  | .send idx data => (send net ourIp idx data).map (·.1)
  | .read idx len => some (read net idx len).1
  | .close idx => some (close net ourIp idx)
  | .tickRetransmit => some (tickRetransmit net ourIp)

end Moxide.Tcp
