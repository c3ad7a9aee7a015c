import Moxide.Lib.Chain
import Moxide.Lib.Dyadic

/-! The physical memory manager of `mm/pmm.rs`. Calls run one after another, so that each compare-and-swap succeeds. A
    page-aligned address is given by its frame number; the contents of frames are left out. `none` is a panic, or a loop that
    does not end. -/

namespace Moxide.Pmm
open Lib
open Function (update)

def PAGE_SIZE : Nat := 4096
def MAX_ORDER : Nat := 11
def MAX_NODES : Nat := 8
def MAX_FRAMES : Nat := 4194304
def POOL_PAGES : Nat := 16384
def EMERGENCY_FRAMES : Nat := 262144

def PAGE_INFO_SIZE : Nat := 16

/-- The length of the array `popped` of `buddy_remove`. -/
def POPPED_LEN : Nat := 256

/-- Where the linker has put the kernel, in bytes, and the frame at which `POOL` begins. It is a part of the kernel. -/
structure Layout where
  kernelStart : Nat
  kernelEnd : Nat
  poolBase : Nat
  pool_start : kernelStart ≤ poolBase * PAGE_SIZE
  pool_end : (poolBase + POOL_PAGES) * PAGE_SIZE ≤ kernelEnd

def Layout.isKernelPage (lay : Layout) (f : Nat) : Bool :=
  lay.kernelStart ≤ f * PAGE_SIZE ∧ f * PAGE_SIZE < lay.kernelEnd

def Layout.poolIndex (lay : Layout) (f : Nat) : Option Nat :=
  if lay.poolBase ≤ f ∧ f < lay.poolBase + POOL_PAGES then some (f - lay.poolBase) else none

/-- `FLAG_FREE` and `FLAG_BUDDY`; nothing here sets the two other bits. -/
structure Flags where
  free : Bool
  buddy : Bool
  deriving DecidableEq, Repr

structure PageInfo where
  refcount : UInt32
  flags : Flags
  order : Nat
  numaNode : Nat
  freeNext : Option Nat
  deriving DecidableEq, Repr

def PageInfo.zero : PageInfo := ⟨0, ⟨false, false⟩, 0, 0, none⟩

/-- `len` is `PAGE_INFO_LEN`, which is 0 while there is no table, and `ready` says that the table has been set up. The
    free list of node `n` and order `k` begins at `heads n k`. -/
structure State where
  info : Nat → PageInfo
  len : Nat
  ready : Bool
  heads : Nat → Nat → Option Nat
  freePages : Nat → Nat
  nodeCount : Nat
  live : Bool
  bump : Nat
  poolFree : Nat → Bool
  bootFree : List Nat

def State.boot : State :=
  ⟨fun _ => .zero, 0, false, fun _ _ => none, fun _ => 0, 0, false, 0, fun _ => false, []⟩

namespace State

/-- Whether `page_info` finds an entry. -/
def known (s : State) (f : Nat) : Bool := f ≠ 0 ∧ f < s.len

def setInfo (s : State) (f : Nat) (pi : PageInfo) : State := { s with info := update s.info f pi }

def setHead (s : State) (n k : Nat) (h : Option Nat) : State :=
  { s with heads := update s.heads n (update (s.heads n) k h) }

def setFreePages (s : State) (n c : Nat) : State := { s with freePages := update s.freePages n c }

/-! ### Free lists -/

def link (s : State) (n f k : Nat) : State :=
  let pi := s.info f
  ((s.setInfo f { pi with flags := { pi.flags with free := true }, freeNext := s.heads n k }).setHead n k
    (some f)).setFreePages n (s.freePages n + 2 ^ k)

def buddyPush (s : State) (n f k : Nat) : State :=
  if s.known f then (s.setInfo f { s.info f with order := k }).link n f k else s

def buddyPop (s : State) (n k : Nat) : Option (Nat × State) :=
  match s.heads n k with
  | none => none
  | some f =>
    let pi := s.info f
    some (f, ((s.setInfo f { pi with flags := { pi.flags with free := false } }).setHead n k
      pi.freeNext).setFreePages n (s.freePages n - 2 ^ k))

/-- The blocks of `popped` are put back, the first one first. -/
def pushBack (s : State) (n k : Nat) (popped : List Nat) : State := popped.foldl (fun s f => s.link n f k) s

/-- What becomes of the block that finds no room in `popped`: it is free and counted, but on no list. -/
def keepAside (s : State) (n f k : Nat) : State :=
  let pi := s.info f
  (s.setInfo f { pi with flags := { pi.flags with free := true } }).setFreePages n (s.freePages n + 2 ^ k)

/-- The loop of `buddy_remove`, with `room` entries of `popped` left. -/
def removeLoop (n k target : Nat) (room : Nat) (popped : List Nat) (s : State) : Bool × State :=
  match s.buddyPop n k with
  | none => (false, s.pushBack n k popped)
  | some (f, s') =>
    if f = target then (true, s'.pushBack n k popped)
    else
      match room with
      | room + 1 => removeLoop n k target room (popped ++ [f]) s'
      | 0 => (false, (s'.keepAside n f k).pushBack n k popped)

def buddyRemove (s : State) (n f k : Nat) : Bool × State :=
  if s.known f then removeLoop n k f POPPED_LEN [] s else (false, s)

/-! ### Allocation of blocks -/

/-- Splits a block of order `cur` down to `order`. The upper halves go to the free lists. -/
def split (n f order : Nat) : Nat → State → State
  | 0, s => s
  | cur + 1, s =>
    if order ≤ cur then
      let half := f + 2 ^ cur
      let s := if s.known half then s.setInfo half { s.info half with numaNode := n } else s
      split n f order cur (s.buddyPush n half cur)
    else s

def mark (s : State) (n f order : Nat) : State :=
  { s with info := fun g =>
      if InBlock f order g ∧ s.known g then
        { s.info g with refcount := 1, order := order, flags := ⟨false, true⟩, numaNode := n }
      else s.info g }

def tryOrders (n order : Nat) : List Nat → State → Option (Nat × State)
  | [], _ => none
  | t :: ts, s =>
    match s.buddyPop n t with
    | none => tryOrders n order ts s
    | some (f, s') => some (f, (split n f order t s').mark n f order)

def buddyAllocOrderNode (s : State) (n order : Nat) : Option (Nat × State) :=
  if MAX_ORDER ≤ order then none else tryOrders n order (List.range' order (MAX_ORDER - order)) s

/-- `buddy_alloc_node` does for one page what `buddy_alloc_order_node` does for a block. -/
def buddyAllocNode (s : State) (n : Nat) : Option (Nat × State) := s.buddyAllocOrderNode n 0

/-- The loop of `buddy_free_page`: the block of order `k` at `f` is joined with its buddy as long as that is free as a
    whole. `left` counts the orders above. -/
def mergeLoop (n : Nat) : (left f k : Nat) → State → Nat × Nat × State
  | 0, f, k, s => (f, k, s)
  | left + 1, f, k, s =>
    let b := buddy f k
    let bpi := s.info b
    if b < MAX_FRAMES ∧ s.known b ∧ bpi.flags.free ∧ bpi.flags.buddy ∧ bpi.order = k ∧ bpi.numaNode = n ∧
        min f b % 2 ^ (k + 1) = 0 then
      match s.buddyRemove n b k with
      | (true, s') => mergeLoop n left (min f b) (k + 1) s'
      | (false, s') => (f, k, s')
    else (f, k, s)

def pushMerged (s : State) (n f k : Nat) : State :=
  let s := if s.known f then s.setInfo f { s.info f with flags := ⟨true, true⟩ } else s
  s.buddyPush n f k

def buddyFreePage (s : State) (f : Nat) : State :=
  if s.known f then
    let n := (s.info f).numaNode
    let s := s.setInfo f { s.info f with refcount := 0, flags := ⟨false, false⟩ }
    let (f', k, s') := mergeLoop n (MAX_ORDER - 1) f 0 s
    s'.pushMerged n f' k
  else s

def ensurePageInfoTable (s : State) (maxPfn : Nat) : Option State :=
  if s.ready then some s
  else
    let needed := maxPfn + 1
    let pages := (needed * PAGE_INFO_SIZE + PAGE_SIZE - 1) / PAGE_SIZE
    if s.bump + pages ≤ POOL_PAGES then
      some { s with
        info := fun _ => .zero
        len := needed
        ready := true
        poolFree := fun i => if s.bump ≤ i ∧ i < s.bump + pages then true else s.poolFree i
        bump := s.bump + pages }
    else if needed ≤ EMERGENCY_FRAMES then
      some { s with info := fun _ => .zero, len := EMERGENCY_FRAMES, ready := true }
    else none

/-- The last part of `alloc_page`: a page that was given back to the pool, or its next one. -/
def allocPool (lay : Layout) (s : State) : Option Nat × State :=
  match s.bootFree with
  | f :: rest =>
    let s := { s with bootFree := rest }
    (some f, match lay.poolIndex f with
      | some i => { s with poolFree := update s.poolFree i false }
      | none => s)
  | [] => if POOL_PAGES ≤ s.bump then (none, s) else (some (lay.poolBase + s.bump), { s with bump := s.bump + 1 })

/-! ### The calls -/

/-- The nodes in the order in which an allocation tries them. -/
def nodesFrom (s : State) (preferred : Nat) : List Nat :=
  let nodes := max s.nodeCount 1
  (List.range nodes).map fun i => (preferred + i) % nodes

def allocFrom (s : State) (order : Nat) : List Nat → Option (Nat × State)
  | [] => none
  | n :: ns =>
    match s.buddyAllocOrderNode n order with
    | some r => some r
    | none => allocFrom s order ns

/-- `preferred` is the node of the processor that runs the call. -/
def allocPage (lay : Layout) (s : State) (preferred : Nat) : Option Nat × State :=
  match if s.live then s.allocFrom 0 (s.nodesFrom preferred) else none with
  | some (f, s') => (some f, s')
  | none => s.allocPool lay

def allocPageOnNode (lay : Layout) (s : State) (n preferred : Nat) : Option (Option Nat × State) :=
  if s.live then
    if n < MAX_NODES then
      match s.buddyAllocNode n with
      | some (f, s') => some (some f, s')
      | none => some (s.allocPage lay preferred)
    else none
  else some (s.allocPage lay preferred)

/-- The loop that takes single pages before the first region is added. It gives up at the first page missing and
    otherwise returns the first page. -/
def allocSingly (lay : Layout) (preferred : Nat) : Nat → Option Nat → State → Option Nat × State
  | 0, first, s => (first, s)
  | n + 1, first, s =>
    match s.allocPage lay preferred with
    | (none, s') => (none, s')
    | (some f, s') => allocSingly lay preferred n (first.or (some f)) s'

/-- The smallest order whose blocks hold `n` pages; the loop does not end when `n` exceeds the largest power of two. -/
def orderFor (n : Nat) : Option Nat := (List.range 64).find? fun k => n ≤ 2 ^ k

/-- Gives back the pages from `n` on of the block at `f`. -/
def trim (s : State) (f n size : Nat) : State := (List.range' n (size - n)).foldl (fun s j => s.buddyFreePage (f + j)) s

def allocPagesContig (lay : Layout) (s : State) (n preferred : Nat) : Option (Option Nat × State) :=
  if n = 0 then some (none, s)
  else if n = 1 then some (s.allocPage lay preferred)
  else if s.live = false then some (allocSingly lay preferred (min n 1024) none s)
  else
    (orderFor n).map fun order =>
      if MAX_ORDER ≤ order then (none, s)
      else
        match s.allocFrom order (s.nodesFrom preferred) with
        | some (f, s') => (some f, s'.trim f n (2 ^ order))
        | none => (none, s)

def getPage (s : State) (pa : Nat) : State :=
  let f := pa / PAGE_SIZE
  if pa % PAGE_SIZE = 0 ∧ s.known f then s.setInfo f { s.info f with refcount := (s.info f).refcount + 1 } else s

def freePage (lay : Layout) (s : State) (pa : Nat) : Option State :=
  let f := pa / PAGE_SIZE
  if pa = 0 then some s
  else if pa % PAGE_SIZE ≠ 0 then none
  else if lay.isKernelPage f then none
  else
    match lay.poolIndex f with
    | some i =>
      if s.poolFree i then none
      else some { s with poolFree := update s.poolFree i true, bootFree := f :: s.bootFree }
    | none =>
      if s.known f then
        let old := (s.info f).refcount
        if old = 0 then none
        else
          let s := s.setInfo f { s.info f with refcount := old - 1 }
          some (if old = 1 then s.buddyFreePage f else s)
      else some s

/-- Whether `pmm_add_region_node` adds a frame of the region. -/
def usable (lay : Layout) (s : State) (f : Nat) : Bool := lay.isKernelPage f = false ∧ s.known f

def addFrame (s : State) (n f : Nat) : State :=
  (s.setInfo f { s.info f with refcount := 0, flags := ⟨true, true⟩, order := 0, numaNode := n }).buddyPush n f 0

def framesOf (base size : Nat) : List Nat :=
  let start := (base + PAGE_SIZE - 1) / PAGE_SIZE
  List.range' start ((base + size) / PAGE_SIZE - start)

def pmmAddRegionNode (lay : Layout) (s : State) (base size n : Nat) : Option State :=
  let start := (base + PAGE_SIZE - 1) / PAGE_SIZE * PAGE_SIZE
  if base + size ≤ start then some s
  else
    let maxPfn := (base + size - 1) / PAGE_SIZE
    (if maxPfn < MAX_FRAMES then s.ensurePageInfoTable maxPfn else some s) >>= fun s =>
      let s := { s with nodeCount := if n < MAX_NODES then max s.nodeCount (n + 1) else s.nodeCount, live := true }
      let frames := (framesOf base size).filter (s.usable lay)
      if frames = [] ∨ n < MAX_NODES then some (frames.foldl (fun s f => s.addFrame n f) s) else none

inductive Call where
  | addRegion (base size n : Nat)
  | allocPage (preferred : Nat)
  | allocPageOnNode (n preferred : Nat)
  | allocPagesContig (n preferred : Nat)
  | getPage (pa : Nat)
  | freePage (pa : Nat)
  deriving DecidableEq, Repr

def exec (lay : Layout) (s : State) : Call → Option (Option Nat × State)
  | .addRegion base size n => (s.pmmAddRegionNode lay base size n).map (none, ·)
  | .allocPage preferred => some (s.allocPage lay preferred)
  | .allocPageOnNode n preferred => s.allocPageOnNode lay n preferred
  | .allocPagesContig n preferred => s.allocPagesContig lay n preferred
  | .getPage pa => some (none, s.getPage pa)
  | .freePage pa => (s.freePage lay pa).map (none, ·)

end State

end Moxide.Pmm
