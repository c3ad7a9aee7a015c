import Moxide.Lib.Bytes

/-! The slab allocator of `mm/slab.rs`, on memory as bytes. Pointers are numbers, with 0 for null. A frame that
    `pmm::alloc_page` would return is a parameter of the call. `none` is a failed assertion or a loop without end. The shadow
    memory of `kasan` is left out: nothing sets it up. -/

namespace Moxide.Slab
open Lib (Mem)

def PAGE_SIZE : Nat := 4096
def SIZE_CLASSES : List Nat := [8, 16, 32, 64, 128, 256, 512, 1024]
def NUM_CACHES : Nat := SIZE_CLASSES.length
def CANARY_MAGIC : Nat := 0xDEADC0DE
def CANARY_SIZE : Nat := 4

def SLAB_HDR_RAW : Nat := 32

/-- The mask `!(obj_size - 1)` is `2 ^ 64 - obj_size`. -/
def hdrOffset (objSize : Nat) : Nat := (SLAB_HDR_RAW + objSize - 1) &&& (2 ^ 64 - objSize)

def slotsPerPage (objSize : Nat) : Nat := (PAGE_SIZE - hdrOffset objSize) / objSize

def userSize (objSize : Nat) : Nat := objSize - 2 * CANARY_SIZE

def slotUserPtr (slot : Nat) : Nat := slot + CANARY_SIZE

def userSlotPtr (user : Nat) : Nat := user - CANARY_SIZE

/-- The mask `!(PAGE_SIZE - 1)` rounds down to a page. -/
def pageBase (ptr : Nat) : Nat := ptr / PAGE_SIZE * PAGE_SIZE

def canaryWrite (m : Mem) (slot objSize : Nat) : Mem :=
  (m.store slot 4 CANARY_MAGIC).store (slot + (objSize - CANARY_SIZE)) 4 CANARY_MAGIC

def canaryCheck (m : Mem) (slot objSize : Nat) : Bool :=
  m.load slot 4 = CANARY_MAGIC ∧ m.load (slot + (objSize - CANARY_SIZE)) 4 = CANARY_MAGIC

/-! ### Headers

The fields of `SlabHdr` are at offsets 0, 8, 16, 24, 26 and 28 of a page. -/

namespace SlabHdr

def next (m : Mem) (slab : Nat) : Nat := m.load slab 8
def prev (m : Mem) (slab : Nat) : Nat := m.load (slab + 8) 8
def freeHead (m : Mem) (slab : Nat) : Nat := m.load (slab + 16) 8
def inUse (m : Mem) (slab : Nat) : Nat := m.load (slab + 24) 2
def capacity (m : Mem) (slab : Nat) : Nat := m.load (slab + 26) 2

def setNext (m : Mem) (slab v : Nat) : Mem := m.store slab 8 v
def setPrev (m : Mem) (slab v : Nat) : Mem := m.store (slab + 8) 8 v
def setFreeHead (m : Mem) (slab v : Nat) : Mem := m.store (slab + 16) 8 v
def setInUse (m : Mem) (slab v : Nat) : Mem := m.store (slab + 24) 2 v
def setCapacity (m : Mem) (slab v : Nat) : Mem := m.store (slab + 26) 2 v

/-- `class_idx` and `_pad`. -/
def setClassIdx (m : Mem) (slab v : Nat) : Mem := (m.store (slab + 28) 1 v).fill (slab + 29) 0 3

end SlabHdr

open SlabHdr

/-! ### Caches -/

/-- The fields `partial`, `full` and `empty` of the source are the heads here. -/
structure Cache where
  partialHead : Nat
  fullHead : Nat
  emptyHead : Nat
  objSize : Nat
  capacity : Nat
  deriving DecidableEq, Repr

def Cache.new (objSize : Nat) : Cache := ⟨0, 0, 0, objSize, slotsPerPage objSize⟩

def listPush (m : Mem) (list slab : Nat) : Nat × Mem :=
  let m := setNext m slab list
  let m := setPrev m slab 0
  (slab, if list ≠ 0 then setPrev m list slab else m)

def listRemove (m : Mem) (list slab : Nat) : Nat × Mem :=
  let p := SlabHdr.prev m slab
  let n := SlabHdr.next m slab
  let (list, m) := if p ≠ 0 then (list, setNext m p n) else (n, m)
  let m := if n ≠ 0 then setPrev m n p else m
  (list, setPrev (setNext m slab 0) slab 0)

/-- The loop of `grow`, which links the slots from the last to the first, with `i` of them to go. -/
def threadSlots (page slot0Off objSize : Nat) : Nat → Nat → Mem → Nat × Mem
  | 0, prevSlot, m => (prevSlot, m)
  | i + 1, prevSlot, m =>
    let slot := page + (slot0Off + i * objSize)
    threadSlots page slot0Off objSize i slot (m.store slot 8 prevSlot)

namespace Cache

def growAt (c : Cache) (m : Mem) (classIdx page : Nat) : Cache × Mem :=
  let (prevSlot, m) := threadSlots page (hdrOffset c.objSize) c.objSize c.capacity 0 m
  let m := setPrev (setNext m page 0) page 0
  let m := setInUse (setFreeHead m page prevSlot) page 0
  let m := setClassIdx (setCapacity m page c.capacity) page classIdx
  let (head, m) := listPush m c.partialHead page
  ({ c with partialHead := head }, m)

def grow (c : Cache) (m : Mem) (classIdx : Nat) (frame : Option Nat) : Bool × Cache × Mem :=
  match frame with
  | none => (false, c, m)
  | some page => (true, c.growAt m classIdx page)

/-- The first part of `alloc`: a slab for the partial list, if there is none. -/
def refill (c : Cache) (m : Mem) (classIdx : Nat) (frame : Option Nat) : Bool × Cache × Mem :=
  if c.partialHead = 0 then
    if c.emptyHead ≠ 0 then
      let s := c.emptyHead
      let (emptyHead, m) := listRemove m c.emptyHead s
      let (partialHead, m) := listPush m c.partialHead s
      (true, { c with emptyHead := emptyHead, partialHead := partialHead }, m)
    else c.grow m classIdx frame
  else (true, c, m)

/-- A slab of the partial list that has become full changes lists. -/
def moveFull (c : Cache) (m : Mem) (slab : Nat) : Cache × Mem :=
  if inUse m slab = SlabHdr.capacity m slab then
    let (partialHead, m) := listRemove m c.partialHead slab
    let (fullHead, m) := listPush m c.fullHead slab
    ({ c with partialHead := partialHead, fullHead := fullHead }, m)
  else (c, m)

/-- The second part of `alloc`: the first free slot of the first slab of the partial list. -/
def take (c : Cache) (m : Mem) : Nat × Cache × Mem :=
  let slab := c.partialHead
  let slot := freeHead m slab
  let nextFree := m.load slot 8
  let m := setFreeHead m slab nextFree
  let m := setInUse m slab (inUse m slab + 1)
  let (c, m) := c.moveFull m slab
  let m := canaryWrite (m.store slot 8 0) slot c.objSize
  (slotUserPtr slot, c, m)

def alloc (c : Cache) (m : Mem) (classIdx : Nat) (frame : Option Nat) : Option Nat × Cache × Mem :=
  match c.refill m classIdx frame with
  | (false, c, m) => (none, c, m)
  | (true, c, m) =>
    let (user, c, m) := c.take m
    (some user, c, m)

/-- The end of `free`: the slab changes lists. -/
def moveFreed (c : Cache) (m : Mem) (slab : Nat) (wasFull wasPartial : Bool) : Cache × Mem :=
  if wasFull then
    let (fullHead, m) := listRemove m c.fullHead slab
    let (partialHead, m) := listPush m c.partialHead slab
    ({ c with partialHead := partialHead, fullHead := fullHead }, m)
  else if wasPartial ∧ inUse m slab = 0 then
    let (partialHead, m) := listRemove m c.partialHead slab
    let (emptyHead, m) := listPush m c.emptyHead slab
    ({ c with partialHead := partialHead, emptyHead := emptyHead }, m)
  else (c, m)

/-- In `in_use -= 1` the subtraction wraps. -/
def free (c : Cache) (m : Mem) (userPtr : Nat) : Option (Cache × Mem) :=
  let ptr := userSlotPtr userPtr
  let slab := pageBase ptr
  let wasFull := inUse m slab = SlabHdr.capacity m slab
  let wasPartial := ¬wasFull ∧ 0 < inUse m slab
  if canaryCheck m ptr c.objSize then
    let m := m.fill ptr 0 c.objSize
    let m := m.store ptr 8 (freeHead m slab)
    let m := setFreeHead m slab ptr
    let m := setInUse m slab (inUse m slab + (2 ^ 16 - 1))
    some (c.moveFreed m slab wasFull wasPartial)
  else none

/-- The loop of `shrink`, with the pages it frees. More rounds than there are pages in the address space mean that it has met
    a page twice and never ends. -/
def freeLoop (m : Mem) : Nat → Nat → Option (List Nat)
  | fuel, slab =>
    if slab = 0 then some []
    else
      match fuel with
      | 0 => none
      | fuel + 1 => (freeLoop m fuel (next m slab)).map (slab :: ·)

def shrink (c : Cache) (m : Mem) : Option (List Nat × Cache) :=
  (freeLoop m (2 ^ 52) c.emptyHead).map fun pages => (pages, { c with emptyHead := 0 })

end Cache

/-! ### The allocator -/

/-- The first class with room for the canaries; `saturating_add` stops at `2 ^ 64 - 1`. -/
def sizeClass (size : Nat) : Option Nat :=
  if size = 0 then some 0
  else
    let needed := min (size + 2 * CANARY_SIZE) (2 ^ 64 - 1)
    SIZE_CLASSES.findIdx? fun s => needed ≤ s

/-- An object that `slab_alloc` has returned, with the size asked for. -/
structure Object where
  ptr : Nat
  size : Nat
  deriving DecidableEq, Repr

/-- No step reads `live`, the objects that have not been freed, and `pages`, the frames in use with their classes. -/
structure State where
  mem : Mem
  caches : List Cache
  live : List Object
  pages : List (Nat × Nat)

namespace State

def boot (m : Mem) : State := ⟨m, SIZE_CLASSES.map Cache.new, [], []⟩

def setCache (s : State) (idx : Nat) (c : Cache) (m : Mem) : State := { s with caches := s.caches.set idx c, mem := m }

def addPage (s : State) (taken : Bool) (frame : Option Nat) (idx : Nat) : State :=
  if taken then { s with pages := frame.toList.map (·, idx) ++ s.pages } else s

def initCache (s : State) (idx : Nat) (frame : Option Nat) : Option State :=
  s.caches[idx]?.map fun c =>
    if c.partialHead = 0 ∧ c.emptyHead = 0 then
      let (_, c, m) := c.grow s.mem idx frame
      (s.setCache idx c m).addPage true frame idx
    else s

/-- Objects too large for a slab come from the global heap, which returns `heap`. -/
def slabAlloc (s : State) (size : Nat) (frame heap : Option Nat) : Option (Option Nat × State) :=
  match sizeClass size with
  | some idx =>
    s.caches[idx]?.map fun c =>
      let taken := c.partialHead = 0 ∧ c.emptyHead = 0
      let (user, c, m) := c.alloc s.mem idx frame
      let s := (s.setCache idx c m).addPage taken frame idx
      (user, { s with live := user.toList.map (⟨·, size⟩) ++ s.live })
  | none => some (heap, s)

def slabFree (s : State) (ptr size : Nat) : Option State :=
  if ptr = 0 then some s
  else
    match sizeClass size with
    | some idx =>
      s.caches[idx]? >>= fun c =>
        (c.free s.mem ptr).map fun (c, m) => { s.setCache idx c m with live := s.live.erase ⟨ptr, size⟩ }
    | none => some s

def shrinkCache (s : State) (idx : Nat) : Option State :=
  s.caches[idx]? >>= fun c =>
    (c.shrink s.mem).map fun (freed, c) =>
      { s.setCache idx c s.mem with pages := s.pages.filter fun p => p.1 ∉ freed }

end State

/-- Calls, each on one cache under its lock, and a byte that somebody writes. -/
inductive Event where
  | init (idx : Nat) (frame : Option Nat)
  | alloc (size : Nat) (frame heap : Option Nat)
  | free (ptr size : Nat)
  | shrink (idx : Nat)
  | write (a : Nat) (b : UInt8)

def State.step (s : State) : Event → Option State
  | .init idx frame => s.initCache idx frame
  | .alloc size frame heap => (s.slabAlloc size frame heap).map (·.2)
  | .free ptr size => s.slabFree ptr size
  | .shrink idx => s.shrinkCache idx
  | .write a b => some { s with mem := Function.update s.mem a b }

end Moxide.Slab
