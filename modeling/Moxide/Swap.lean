import Moxide.Lib.Mask
import Moxide.Mmap

/-! Swapping of `mm/swap.rs`. A device is its bitmap and a store of pages by byte offset; whether an I/O callback reports an
    error is a parameter of the call. Page tables and frames are any implementation of `Tables`. Calls run one after another,
    and `none` is a panic. -/

namespace Moxide.Swap
open Lib (Bitmap.test Bitmap.clear Bitmap.set)
open Mmap (PageFlags PROT_READ PROT_WRITE PROT_EXEC)
open Function (update)

def MAX_SWAP_DEVS : Nat := 8
def LRU_CAPACITY : Nat := 65536

abbrev Page := Fin 4096 → UInt8

structure SwapSlot where
  dev : UInt8
  slot : UInt32
  deriving DecidableEq, Repr

namespace SwapSlot

def encodePte (s : SwapSlot) : UInt64 := (s.slot.toUInt64 <<< 24) ||| (s.dev.toUInt64 <<< 16) ||| 0xAB

def decodePte (pte : UInt64) : Option SwapSlot :=
  if pte &&& 1 ≠ 0 then none
  else if pte &&& 0xFF ≠ 0xAB then none
  else
    let dev := ((pte >>> 16) &&& 0xFF).toUInt8
    let slot := (pte >>> 24).toUInt32
    if MAX_SWAP_DEVS ≤ dev.toNat ∨ slot = 0 then none else some ⟨dev, slot⟩

def byteOffset (s : SwapSlot) : UInt64 := s.slot.toUInt64 * 4096

end SwapSlot

/-- Bit `n` of `freeMap` is set when slot `n` is free. -/
structure SwapDevice where
  numSlots : UInt32
  freeMap : List UInt64
  freeCount : UInt32
  allocHand : UInt32
  store : UInt64 → Page

namespace SwapDevice

def new (store : UInt64 → Page) (numSlots : UInt32) : SwapDevice :=
  let words := ((numSlots + 63) / 64).toNat
  ⟨numSlots, Bitmap.clear (List.replicate words 0xFFFFFFFFFFFFFFFF) 0, if numSlots = 0 then 0 else numSlots - 1, 1, store⟩

/-- The loop of `alloc_slot`: the first slot from `start` on, round the device, that is free and not slot 0. -/
def scan (freeMap : List UInt64) (n start : Nat) : List Nat → Option Nat
  | [] => none
  | delta :: rest =>
    let idx := (start + delta) % n
    if idx = 0 then scan freeMap n start rest
    else
      match freeMap[idx / 64]? with
      | none => scan freeMap n start rest
      | some w => if w &&& 1 <<< UInt64.ofNat (idx % 64) ≠ 0 then some idx else scan freeMap n start rest

def allocSlot (d : SwapDevice) : Option (UInt32 × SwapDevice) :=
  if d.freeCount = 0 then none
  else
    let n := d.numSlots.toNat
    (scan d.freeMap n d.allocHand.toNat (List.range n)).map fun idx =>
      (UInt32.ofNat idx, { d with
        freeMap := Bitmap.clear d.freeMap idx
        freeCount := d.freeCount - 1
        allocHand := UInt32.ofNat (max ((idx + 1) % n) 1) })

def freeSlot (d : SwapDevice) (slot : UInt32) : SwapDevice :=
  match d.freeMap[slot.toNat / 64]? with
  | none => d
  | some w =>
    if w &&& 1 <<< UInt64.ofNat (slot.toNat % 64) = 0 then
      { d with freeMap := Bitmap.set d.freeMap slot.toNat, freeCount := d.freeCount + 1 }
    else d

def writePage (d : SwapDevice) (byteOffset : UInt64) (page : Page) : SwapDevice :=
  { d with store := update d.store byteOffset page }

end SwapDevice

structure LruEntry where
  pa : UInt64
  pid : UInt32
  va : UInt64
  deriving DecidableEq, Repr

/-- The live entries of the ring, the first `count` ones; the others are all zero. -/
structure LruClock where
  ring : List LruEntry
  hand : Nat
  deriving DecidableEq, Repr

namespace LruClock

def new : LruClock := ⟨[], 0⟩

def insert (l : LruClock) (e : LruEntry) : LruClock :=
  if l.ring.length < LRU_CAPACITY then { l with ring := l.ring ++ [e] }
  else ⟨l.ring.set l.hand e, (l.hand + 1) % LRU_CAPACITY⟩

def removePa (l : LruClock) (pa : UInt64) : LruClock :=
  match l.ring.findIdx? (·.pa = pa), l.ring.getLast? with
  | some pos, some last =>
    let ring := (l.ring.set pos last).dropLast
    let hand := if ring.length ≤ l.hand ∧ 0 < ring.length then l.hand % ring.length
      else if ring.length = 0 then 0 else l.hand
    ⟨ring, hand⟩
  | _, _ => l

def nextCandidate (l : LruClock) : LruClock × Option LruEntry :=
  if l.ring = [] then (l, none)
  else
    let l' := { l with hand := (l.hand + 1) % l.ring.length }
    match l.ring[l.hand]? with
    | some e => (l', if e.pa ≠ 0 then some e else none)
    | none => (l', none)

end LruClock

/-! ### State -/

/-- What `swap.rs` takes of `Paging`, beside the frame allocator. -/
structure Tables (μ : Type) extends Mmap.Memory μ where
  readPte : (m : μ) → (cr3 va : UInt64) → UInt64
  setPte : (m : μ) → (cr3 va pte : UInt64) → μ
  pteAccessed : (m : μ) → (cr3 va : UInt64) → Bool
  clearAccessed : (m : μ) → (cr3 va : UInt64) → μ

/-- A page that is swapped out: where it belongs, what it held, and its slot. -/
structure Evicted where
  pid : UInt32
  va : UInt64
  page : Page
  slot : SwapSlot

/-- `satp` is the root of a process, 0 when there is none, and `bytes` the contents of frames. No step reads `evicted`. -/
structure State (μ : Type) where
  devs : List (Option SwapDevice)
  count : Nat
  freeSlots : UInt32
  lru : Option LruClock
  satp : UInt32 → UInt64
  signals : List (UInt32 × UInt32)
  bytes : UInt64 → Page
  mem : μ
  evicted : List Evicted

section Calls
variable {μ : Type} (M : Tables μ)

namespace State

def boot (satp : UInt32 → UInt64) (bytes : UInt64 → Page) (m : μ) : State μ :=
  ⟨List.replicate MAX_SWAP_DEVS none, 0, 0, none, satp, [], bytes, m, []⟩

/-- `init`, which may be called again. -/
def init (s : State μ) : State μ := { s with lru := some (s.lru.getD LruClock.new) }

def device (s : State μ) (dev : Nat) : Option SwapDevice := (s.devs[dev]?).join

def setDevice (s : State μ) (dev : Nat) (d : Option SwapDevice) : State μ := { s with devs := s.devs.set dev d }

/-- `add_swap_device` of a device with pages `store`. The header written to slot 0 is `header`, of which only the first
    eight bytes are the magic number. -/
def addSwapDevice (s : State μ) (store : UInt64 → Page) (header : Page) (numSlots : UInt32) : Except Int64 UInt8 × State μ :=
  if numSlots < 2 then (.error (-22), s)
  else if MAX_SWAP_DEVS ≤ s.count then (.error (-28), s)
  else
    match s.devs.findIdx? (·.isNone) with
    | none => (.error (-28), s)
    | some idx =>
      (.ok (UInt8.ofNat idx), { s.setDevice idx (some (SwapDevice.new (update store 0 header) numSlots)) with
        count := s.count + 1, freeSlots := s.freeSlots + (numSlots - 1) })

/-- `remove_swap_device`. The pages on the device are lost. -/
def removeSwapDevice (s : State μ) (dev : UInt8) : Except Int64 Unit × State μ :=
  match s.device dev.toNat with
  | none => (.error (-6), s)
  | some d =>
    (.ok (), { s.setDevice dev.toNat none with
      count := s.count - 1, freeSlots := s.freeSlots - d.freeCount, evicted := s.evicted.filter (·.slot.dev ≠ dev) })

def trackPage (s : State μ) (pa : UInt64) (pid : UInt32) (va : UInt64) : State μ :=
  { s with lru := s.lru.map (·.insert ⟨pa, pid, va⟩) }

def untrackPage (s : State μ) (pa : UInt64) : State μ := { s with lru := s.lru.map (·.removePa pa) }

/-- The search for a victim, for this many rounds: each entry with its accessed bit set gets a second chance. -/
def findVictim (satp : UInt32 → UInt64) : Nat → LruClock → μ → LruClock × μ × Option LruEntry
  | 0, l, m => (l, m, none)
  | n + 1, l, m =>
    match l.nextCandidate with
    | (l, none) => (l, m, none)
    | (l, some e) =>
      if e.pid = 0 ∨ satp e.pid = 0 then findVictim satp n l m
      else if M.pteAccessed m (satp e.pid) e.va then findVictim satp n l (M.clearAccessed m (satp e.pid) e.va)
      else (l, m, some e)

def allocSlotIn : Nat → List (Option SwapDevice) → Option (SwapSlot × List (Option SwapDevice))
  | _, [] => none
  | i, none :: rest => (allocSlotIn (i + 1) rest).map fun (s, rest) => (s, none :: rest)
  | i, some d :: rest =>
    match d.allocSlot with
    | some (slot, d) => some (⟨UInt8.ofNat i, slot⟩, some d :: rest)
    | none => (allocSlotIn (i + 1) rest).map fun (s, rest) => (s, some d :: rest)

/-- The end of `swapout_one`, from the write on. -/
def writeOut (s : State μ) (e : LruEntry) (slot : SwapSlot) (ioOk : Bool) : Option (Bool × State μ) :=
  match s.device slot.dev.toNat with
  | none => some (false, s)
  | some d =>
    if ioOk then
      let s := s.setDevice slot.dev.toNat (some (d.writePage slot.byteOffset (s.bytes e.pa)))
      let m := if s.satp e.pid ≠ 0 then M.setPte s.mem (s.satp e.pid) e.va slot.encodePte else s.mem
      (M.freePage m e.pa).map fun m =>
        (true, { s with
          mem := m, lru := s.lru.map (·.removePa e.pa), evicted := ⟨e.pid, e.va, s.bytes e.pa, slot⟩ :: s.evicted })
    else
      some (false, { s.setDevice slot.dev.toNat (some (d.freeSlot slot.slot)) with freeSlots := s.freeSlots + 1 })

def swapoutOne (s : State μ) (ioOk : Bool) : Option (Bool × State μ) :=
  if s.freeSlots = 0 then some (false, s)
  else
    match s.lru with
    | none => some (false, s)
    | some l =>
      match findVictim M s.satp (min l.ring.length LRU_CAPACITY * 2) l s.mem with
      | (l, m, none) => some (false, { s with lru := some l, mem := m })
      | (l, m, some e) =>
        let s := { s with lru := some l, mem := m }
        match allocSlotIn 0 s.devs with
        | none => some (false, s)
        | some (slot, devs) => writeOut M { s with devs := devs, freeSlots := s.freeSlots - 1 } e slot ioOk

def protToFlags (prot : UInt32) : PageFlags :=
  PageFlags.PRESENT ||| PageFlags.USER ||| (if prot &&& PROT_WRITE ≠ 0 then PageFlags.WRITE else 0) |||
    (if prot &&& PROT_EXEC = 0 then PageFlags.NX else 0)

/-- A frame for the page: when there is none, one page is swapped out and the allocator is asked again. -/
def allocForSwapin (s : State μ) (outOk : Bool) : Option (Option UInt64 × State μ) :=
  M.allocPage s.mem >>= fun
    | (some pa, m) => some (some pa, { s with mem := m })
    | (none, m) =>
      swapoutOne M { s with mem := m } outOk >>= fun
        | (true, s) => (M.allocPage s.mem).map fun (pa, m) => (pa, { s with mem := m })
        | (false, s) => some (none, s)

/-- The part of `swapin` from the frame on. -/
def readIn (s : State μ) (pid : UInt32) (va pa : UInt64) (slot : SwapSlot) (prot : Option UInt32) (readOk : Bool) :
    Option (Bool × State μ) :=
  match s.device slot.dev.toNat with
  | none => (M.freePage s.mem pa).map fun m => (false, { s with mem := m, signals := s.signals ++ [(pid, 7)] })
  | some d =>
    if readOk then
      let page := d.store slot.byteOffset
      (M.mapPage s.mem (s.satp pid) va pa (protToFlags (prot.getD PROT_READ))).map fun m =>
        (true, ({ s.setDevice slot.dev.toNat (some (d.freeSlot slot.slot)) with
          bytes := update s.bytes pa page
          freeSlots := s.freeSlots + 1
          mem := m
          evicted := s.evicted.filter (·.slot ≠ slot) }).trackPage pa pid va)
    else (M.freePage s.mem pa).map fun m => (false, { s with mem := m, signals := s.signals ++ [(pid, 7)] })

/-- `prot` is the protection of the VMA that `find_vma` finds. -/
def swapin (s : State μ) (pid : UInt32) (faultingVa : UInt64) (prot : Option UInt32) (outOk readOk : Bool) :
    Option (Bool × State μ) :=
  let pageVa := faultingVa &&& ~~~4095
  if s.satp pid = 0 then some (false, s)
  else
    match SwapSlot.decodePte (M.readPte s.mem (s.satp pid) pageVa) with
    | none => some (false, s)
    | some slot =>
      allocForSwapin M s outOk >>= fun
        | (none, s) => some (false, { s with signals := s.signals ++ [(pid, 9)] })
        | (some pa, s) => readIn M s pid pageVa pa slot prot readOk

end State

/-- The calls, and what others do in between: processes come and go, frames are written, tables and frames change. -/
inductive Event (μ : Type) where
  | init
  | addDevice (store : UInt64 → Page) (header : Page) (numSlots : UInt32)
  | removeDevice (dev : UInt8)
  | track (pa : UInt64) (pid : UInt32) (va : UInt64)
  | untrack (pa : UInt64)
  | swapout (ioOk : Bool)
  | swapin (pid : UInt32) (va : UInt64) (prot : Option UInt32) (outOk readOk : Bool)
  | process (pid : UInt32) (satp : UInt64)
  | write (pa : UInt64) (page : Page)
  | elsewhere (m : μ)

def State.step (s : State μ) : Event μ → Option (State μ)
  | .init => some s.init
  | .addDevice store header numSlots => some (s.addSwapDevice store header numSlots).2
  | .removeDevice dev => some (s.removeSwapDevice dev).2
  | .track pa pid va => some (s.trackPage pa pid va)
  | .untrack pa => some (s.untrackPage pa)
  | .swapout ioOk => (s.swapoutOne M ioOk).map (·.2)
  | .swapin pid va prot outOk readOk => (s.swapin M pid va prot outOk readOk).map (·.2)
  | .process pid satp => some { s with satp := update s.satp pid satp }
  | .write pa page => some { s with bytes := update s.bytes pa page }
  | .elsewhere m => some { s with mem := m }

end Calls

end Moxide.Swap
