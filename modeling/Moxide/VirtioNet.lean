import Moxide.SchemeProxy

/-! The userspace driver `drivers/virtio_net`: its requests and responses, and the queue from which it receives. `none` is
    a panic of the driver, from a slice that reaches beyond the message or an index beyond the buffers. The device takes
    the buffers in the order in which they are available and fills them in any order. -/

namespace Moxide.VirtioNet
open Ipc (Bytes)
open Lib.LittleEndian (toBytes ofBytes)
open SchemeProxy (SchemeError SchemeResponse)

/-- The length of the buffer in which the event loop receives. -/
def MSG_BUF : Nat := 4096

/-- What the driver takes from a request. It reads neither the length of a read nor the file id of a close. -/
inductive Decoded where
  | opens (flags : UInt32) (path : String)
  | read (fd : UInt64)
  | write (fd : UInt64) (data : Bytes)
  | close
  | invalid
  deriving DecidableEq, Repr

inductive Message where
  | irq
  | request (d : Decoded)
  deriving DecidableEq, Repr

/-- `&b[i..j]`. -/
def slice (b : Bytes) (i j : Nat) : Option Bytes := if i ≤ j ∧ j ≤ b.length then some ((b.take j).drop i) else none

/-- `core::str::from_utf8(b).unwrap_or("")`. -/
def fromUtf8OrEmpty (b : Bytes) : String := (String.fromUTF8? ⟨b.toArray⟩).getD ""

/-- The part of `handle_scheme_request` that reads the message. -/
def decodeRequest : Bytes → Option Decoded
  | [] => some .invalid
  | tag :: rest =>
    if tag = 1 then
      if rest.length < 8 then some .invalid
      else do
        let flags ← slice rest 0 4
        let pathLen ← slice rest 4 8
        let pathBytes ← slice rest 8 (8 + (UInt32.ofNat (ofBytes pathLen)).toNat)
        some (.opens (UInt32.ofNat (ofBytes flags)) (fromUtf8OrEmpty pathBytes))
    else if tag = 2 then do
      let fd ← slice rest 0 8
      some (.read (UInt64.ofNat (ofBytes fd)))
    else if tag = 3 then do
      let fd ← slice rest 0 8
      let dlen ← slice rest 8 12
      let data ← slice rest 12 (12 + (UInt32.ofNat (ofBytes dlen)).toNat)
      some (.write (UInt64.ofNat (ofBytes fd)) data)
    else if tag = 6 then some .close
    else some .invalid

/-- A message is an interrupt if its first byte is `0xFF`. -/
def dispatch (msg : Bytes) : Option Message :=
  if msg.head? = some 0xFF then some .irq else (decodeRequest msg).map .request

def encodeFd (id : UInt64) : Bytes := 0x80 :: toBytes 8 id.toNat
def encodeData (data : Bytes) : Bytes := 0x81 :: data
def encodeCount (n : UInt64) : Bytes := 0x82 :: toBytes 8 n.toNat
def encodeOk : Bytes := [0x84]
def encodeErr (e : SchemeError) : Bytes := 0xFF :: toBytes 4 e.toU32.toNat

/-- The encoding of a response; the driver has none for a position. -/
def encodeResponse : SchemeResponse → Option Bytes
  | .fd id => some (encodeFd id)
  | .data bytes => some (encodeData bytes)
  | .count n => some (encodeCount n)
  | .ok => some encodeOk
  | .err e => some (encodeErr e)
  | .seekPos _ => none

/-- The response to a request: `rxPending` holds the frames received, and `sent` is what `transmit` returns. -/
def respond (rxPending : List Bytes) (sent : UInt64) : Decoded → List Bytes × Bytes
  | .opens _ path =>
    (rxPending, if path = "eth0" ∨ path.isEmpty then encodeFd 1 else encodeErr .notFound)
  | .read _ =>
    match rxPending with
    | frame :: rest => (rest, encodeData frame)
    | [] => ([], encodeErr .wouldBlock)
  | .write _ _ => (rxPending, encodeCount sent)
  | .close => (rxPending, encodeOk)
  | .invalid => (rxPending, encodeErr .invalidArg)

def handleSchemeRequest (rxPending : List Bytes) (sent : UInt64) (buf : Bytes) : Option (List Bytes × Bytes) :=
  (decodeRequest buf).map (respond rxPending sent)

/-! ### The receive queue -/

def QUEUE_SIZE : UInt16 := 256
def MAX_FRAME_LEN : Nat := 1526

structure VirtqAvail where
  idx : UInt16
  ring : Nat → UInt16

structure VirtqUsedElem where
  id : UInt32
  len : UInt32
  deriving DecidableEq

structure VirtqUsed where
  idx : UInt16
  ring : Nat → VirtqUsedElem

/-- The receive side of `NetDriver`; `rxBufs` is what is in the buffers. -/
structure NetDriver where
  rxAvail : VirtqAvail
  rxUsed : VirtqUsed
  rxBufs : Nat → Bytes
  rxLastUsed : UInt16
  rxPending : List Bytes

namespace NetDriver

/-- A round of `drain_rx`. The vector of buffers has `QUEUE_SIZE` of them. -/
def drainOne (s : NetDriver) : Option NetDriver :=
  let elem := s.rxUsed.ring (s.rxLastUsed % QUEUE_SIZE).toNat
  let descIdx := elem.id.toNat
  if descIdx < QUEUE_SIZE.toNat then
    some { s with
      rxPending := s.rxPending ++ [(s.rxBufs descIdx).take (min elem.len.toNat MAX_FRAME_LEN)]
      rxAvail.ring := Function.update s.rxAvail.ring (s.rxAvail.idx % QUEUE_SIZE).toNat (UInt16.ofNat descIdx)
      rxAvail.idx := s.rxAvail.idx + 1
      rxLastUsed := s.rxLastUsed + 1 }
  else none

def drainRounds : Nat → NetDriver → Option NetDriver
  | 0, s => some s
  | n + 1, s => s.drainOne.bind (drainRounds n)

/-- The loop ends when `rx_last_used` is the index of the used ring; every round adds one to it. -/
def drainRx (s : NetDriver) : Option NetDriver := drainRounds (s.rxUsed.idx - s.rxLastUsed).toNat s

/-- `status` is the interrupt status that is read from the device. -/
def handleIrq (s : NetDriver) (status : UInt32) : Option NetDriver := if status &&& 1 ≠ 0 then s.drainRx else some s

end NetDriver

/-- The driver with its device. The device has read `taken` entries of the avail ring, and holds those descriptors of which
    it has not put the frame into the used ring. No step reads `delivered`, the frames of the device, and `replies`. -/
structure Net where
  driver : NetDriver
  taken : UInt16
  held : List Nat
  delivered : List Bytes
  replies : List Bytes

/-- The device takes the next buffer, or it has filled one of those it holds; or the event loop gets a message. -/
inductive Event where
  | take
  | complete (i : Nat) (frame : Bytes)
  | message (msg : Bytes) (status : UInt32) (sent : UInt64)

namespace Net

/-- After `setup_rx_queue`, which makes all descriptors available. -/
def new : Net where
  driver := ⟨⟨QUEUE_SIZE, UInt16.ofNat⟩, ⟨0, fun _ => ⟨0, 0⟩⟩, fun _ => [], 0, []⟩
  taken := 0
  held := []
  delivered := []
  replies := []

def complete (s : Net) (i d : Nat) (frame : Bytes) : Net where
  driver := { s.driver with
    rxBufs := Function.update s.driver.rxBufs d (frame ++ (s.driver.rxBufs d).drop frame.length)
    rxUsed.ring := Function.update s.driver.rxUsed.ring (s.driver.rxUsed.idx % QUEUE_SIZE).toNat
      ⟨UInt32.ofNat d, UInt32.ofNat frame.length⟩
    rxUsed.idx := s.driver.rxUsed.idx + 1 }
  taken := s.taken
  held := s.held.eraseIdx i
  delivered := s.delivered ++ [frame]
  replies := s.replies

def step (s : Net) : Event → Option Net
  | .take =>
    if s.taken = s.driver.rxAvail.idx then none
    else some { s with
      taken := s.taken + 1
      held := s.held ++ [(s.driver.rxAvail.ring (s.taken % QUEUE_SIZE).toNat).toNat] }
  | .complete i frame =>
    match s.held[i]? with
    | some d => if frame.length ≤ MAX_FRAME_LEN then some (s.complete i d frame) else none
    | none => none
  | .message msg status sent =>
    if msg.head? = some 0xFF then (s.driver.handleIrq status).map fun driver => { s with driver }
    else (handleSchemeRequest s.driver.rxPending sent msg).map fun r =>
      { s with driver.rxPending := r.1, replies := s.replies ++ [r.2] }

end Net

end Moxide.VirtioNet
