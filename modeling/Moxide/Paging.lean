import Moxide.Lib.Radix
import Moxide.Mmap
import Moxide.Pmm

/-! The page tables of `arch/x86_64/paging.rs` and the copy-on-write faults of `mm/cow_fault.rs`. Memory is given in words,
    by frame and by place in the frame. `none` is a panic. Both files' views of physical memory are one memory here, and
    the TLB is left out. -/

namespace Moxide.Paging
open Lib

def PTE_PRESENT : UInt64 := 0x1
def PTE_WRITABLE : UInt64 := 0x2
def PTE_USER : UInt64 := 0x4
def PTE_COW : UInt64 := 0x200
def PTE_NX : UInt64 := 0x8000000000000000
def ADDR_MASK : UInt64 := 0x000FFFFFFFFFF000
def PAGE_SIZE_BIT : UInt64 := 0x80
def SENTINEL_PTE : UInt64 := 0

/-- A place in a table, out of `TABLE_ENTRIES`. -/
abbrev Index := Fin 512

instance neZero_index : NeZero 512 := ⟨by decide⟩

def frameOf (e : UInt64) : Nat := (e &&& ADDR_MASK).toNat / 4096

def addrOf (f : Nat) : UInt64 := UInt64.ofNat (f * 4096)

def nextTable (e : UInt64) : Option Nat := if e &&& PTE_PRESENT = 0 then none else some (frameOf e)

def tableEntry (f : Nat) : UInt64 := addrOf f ||| PTE_PRESENT ||| PTE_WRITABLE ||| PTE_USER

/-- A present entry as the clone leaves it in both tables. -/
def cowEntry (e : UInt64) : UInt64 := if e &&& PTE_WRITABLE ≠ 0 then (e &&& ~~~PTE_WRITABLE) ||| PTE_COW else e

def index (va shift : UInt64) : Index := Fin.ofNat 512 ((va >>> shift) &&& 0x1FF).toNat

def upper (va : UInt64) : List Index := [index va 39, index va 30, index va 21]

structure Machine where
  pmm : Pmm.State
  mem : Nat → Index → UInt64

namespace Machine

def set (m : Machine) (t : Nat) (i : Index) (e : UInt64) : Machine := { m with mem := Radix.set m.mem t i e }

def allocPage (lay : Pmm.Layout) (node : Nat) (m : Machine) : Option Nat × Machine :=
  let (r, pmm) := m.pmm.allocPage lay node
  (r, { m with pmm := pmm })

def freePage (lay : Pmm.Layout) (m : Machine) (pa : UInt64) : Option Machine :=
  (m.pmm.freePage lay pa.toNat).map fun pmm => { m with pmm := pmm }

def allocTable (lay : Pmm.Layout) (node : Nat) (m : Machine) : Option (Nat × Machine) :=
  match m.allocPage lay node with
  | (none, _) => none
  | (some f, m) => some (f, { m with mem := Function.update m.mem f fun _ => 0 })

/-! ### `paging.rs` -/

def walkMut (lay : Pmm.Layout) (node : Nat) : Machine → Nat → List Index → Option (Nat × Machine)
  | m, t, [] => some (t, m)
  | m, t, i :: is =>
    (if m.mem t i &&& PTE_PRESENT = 0 then
      (m.allocTable lay node).map fun (f, m) => m.set t i (tableEntry f)
    else some m) >>= fun m => walkMut lay node m (frameOf (m.mem t i)) is

def walkRo (m : Machine) (cr3 va : UInt64) : Option (Nat × Index) :=
  (Radix.walk nextTable m.mem (cr3.toNat / 4096) (upper va)).map (·, index va 12)

def mapPage (lay : Pmm.Layout) (node : Nat) (m : Machine) (cr3 va pa flags : UInt64) : Option Machine :=
  (walkMut lay node m (cr3.toNat / 4096) (upper va)).map fun (pt, m) =>
    m.set pt (index va 12) ((pa &&& ADDR_MASK) ||| (flags &&& ~~~ADDR_MASK) ||| PTE_PRESENT)

/-- `cr3` is the current address space. -/
def unmapPage (m : Machine) (cr3 va : UInt64) : Option UInt64 × Machine :=
  match m.walkRo cr3 va with
  | none => (none, m)
  | some (pt, i) =>
    if m.mem pt i &&& PTE_PRESENT = 0 then (none, m) else (some (m.mem pt i &&& ADDR_MASK), m.set pt i 0)

def virtToPhys (m : Machine) (cr3 va : UInt64) : Option UInt64 :=
  match m.walkRo cr3 va with
  | none => none
  | some (pt, i) => if m.mem pt i &&& PTE_PRESENT = 0 then none else some (m.mem pt i &&& ADDR_MASK)

def cloneLeaf (parent child : Nat) (m : Machine) (i : Index) : Machine :=
  let e := m.mem parent i
  if e &&& PTE_PRESENT = 0 then m
  else
    let m := if e &&& PTE_WRITABLE ≠ 0 then m.set parent i (cowEntry e) else m
    m.set child i (cowEntry e)

/-- The body of the other loops, around the loop `inner` for the next tables. -/
def cloneEntry (lay : Pmm.Layout) (node : Nat) (inner : Nat → Nat → Machine → Option Machine) (parent child : Nat)
    (m : Machine) (i : Index) : Option Machine :=
  if m.mem parent i &&& PTE_PRESENT = 0 then some m
  else
    m.allocTable lay node >>= fun (f, m) =>
      let m := m.set child i (tableEntry f)
      inner (frameOf (m.mem parent i)) f m

/-- The loop over a table that has `level` levels of tables below. -/
def cloneLevel (lay : Pmm.Layout) (node : Nat) : Nat → Nat → Nat → Machine → Option Machine
  | 0, parent, child, m => some ((List.finRange 512).foldl (cloneLeaf parent child) m)
  | level + 1, parent, child, m =>
    (List.finRange 512).foldlM (cloneEntry lay node (cloneLevel lay node level) parent child) m

def clonePml4Cow (lay : Pmm.Layout) (node : Nat) (m : Machine) (parentCr3 : UInt64) : Option (UInt64 × Machine) :=
  m.allocTable lay node >>= fun (f, m) =>
    (cloneLevel lay node 3 (parentCr3.toNat / 4096) f m).map (addrOf f, ·)

end Machine

def COW : Mmap.PageFlags := 16

def pteFlags (flags : Mmap.PageFlags) : UInt64 :=
  PTE_PRESENT ||| (if flags &&& Mmap.PageFlags.WRITE ≠ 0 then PTE_WRITABLE else 0) |||
    (if flags &&& Mmap.PageFlags.USER ≠ 0 then PTE_USER else 0) |||
    (if flags &&& Mmap.PageFlags.NX ≠ 0 then PTE_NX else 0) ||| (if flags &&& COW ≠ 0 then PTE_COW else 0)

/-- The memory under the system calls, on a processor of node `node`. -/
def memory (lay : Pmm.Layout) (node : Nat) : Mmap.Memory Machine where
  allocPage m := some ((m.allocPage lay node).1.map addrOf, (m.allocPage lay node).2)
  freePage m pa := m.freePage lay pa
  mapPage m cr3 va pa flags := m.mapPage lay node cr3 va pa (pteFlags flags)
  unmapPage m cr3 va := (m.unmapPage cr3 va).2
  virtToPhys m cr3 va := m.virtToPhys cr3 va

namespace Machine

def pteAddr (m : Machine) (cr3 va : UInt64) : Option (Nat × Index) :=
  let pml4e := m.mem (cr3.toNat / 4096) (index va 39)
  let pdpte := m.mem (frameOf pml4e) (index va 30)
  let pde := m.mem (frameOf pdpte) (index va 21)
  if pml4e &&& PTE_PRESENT = 0 then none
  else if pdpte &&& PTE_PRESENT = 0 then none
  else if pdpte &&& PAGE_SIZE_BIT ≠ 0 then none
  else if pde &&& PTE_PRESENT = 0 then none
  else if pde &&& PAGE_SIZE_BIT ≠ 0 then none
  else some (frameOf pde, index va 12)

/-- The part of `handle_cow_fault` that follows the exchange of the entry `old` at `pt` and `i` for the sentinel. -/
def resolve (lay : Pmm.Layout) (node : Nat) (m : Machine) (cr3 va : UInt64) (pt : Nat) (i : Index) (old : UInt64) :
    Option (Bool × Machine) :=
  match m.virtToPhys cr3 va with
  | none => some (false, m.set pt i old)
  | some oldPa =>
    match m.allocPage lay node with
    | (none, m) => some (false, m.set pt i old)
    | (some f, m) =>
      let m := { m with mem := Function.update m.mem f (m.mem (oldPa.toNat / 4096)) }
      let flags := Mmap.PageFlags.PRESENT ||| Mmap.PageFlags.WRITE ||| Mmap.PageFlags.USER
      (m.mapPage lay node cr3 (va &&& ~~~0xFFF) (addrOf f) (pteFlags flags) >>= fun m => m.freePage lay oldPa).map (true, ·)

/-- The exchange succeeds at once, as nobody else changes the entry. -/
def handleCowFault (lay : Pmm.Layout) (node : Nat) (m : Machine) (cr3 va errorCode : UInt64) : Option (Bool × Machine) :=
  if errorCode &&& 7 ≠ 7 then some (false, m)
  else if cr3 = 0 then some (false, m)
  else
    match m.pteAddr cr3 va with
    | none => some (false, m)
    | some (pt, i) =>
      let cur := m.mem pt i
      if cur &&& PTE_COW = 0 then some (true, m) else (m.set pt i SENTINEL_PTE).resolve lay node cr3 va pt i cur

/-- The word at place `i` of the page of `va`. -/
def load (m : Machine) (cr3 va : UInt64) (i : Index) : Option UInt64 :=
  (m.virtToPhys cr3 va).map fun pa => m.mem (pa.toNat / 4096) i

/-- A store takes place if the entry of the page allows it. -/
def store (m : Machine) (cr3 va : UInt64) (i : Index) (w : UInt64) : Machine :=
  match m.walkRo cr3 va with
  | none => m
  | some (pt, j) =>
    let e := m.mem pt j
    if e &&& PTE_PRESENT = 0 ∨ e &&& PTE_WRITABLE = 0 then m else m.set (frameOf e) i w

end Machine

/-- A process is given by its number in `procs`. No step reads `user`, the frames that processes have been given and that
    have not been handed out again since. -/
structure System where
  mach : Machine
  procs : List Mmap.Pcb
  user : Nat → Bool

inductive Event where
  /-- A new process with an empty address space. -/
  | spawn (node : Nat) (pcb : Mmap.Pcb)
  /-- A new frame is mapped for a process. -/
  | map (node pid : Nat) (va flags : UInt64)
  | fork (node pid : Nat)
  | fault (node pid : Nat) (va errorCode : UInt64)
  /-- `unmap_page` and `free_page`. -/
  | unmap (pid : Nat) (va : UInt64)
  | munmap (node pid : Nat) (addr length : UInt64)
  | mprotect (node pid : Nat) (addr length : UInt64) (prot : UInt32)
  | store (pid : Nat) (va : UInt64) (i : Index) (w : UInt64)

namespace System

/-- After a step to `m`: frames that were free and are not any more are not those of a process. -/
def setMach (s : System) (m : Machine) : System :=
  { s with
    mach := m
    user := fun f => s.user f && ((s.mach.pmm.info f).refcount ≠ 0 || (m.pmm.info f).refcount = 0) }

def setProc (s : System) (pid : Nat) (p : Mmap.Pcb) : System := { s with procs := s.procs.set pid p }

def addProc (s : System) (p : Mmap.Pcb) : System := { s with procs := s.procs ++ [p] }

def step (lay : Pmm.Layout) (s : System) : Event → Option System
  | .spawn node pcb =>
    (s.mach.allocTable lay node).map fun (f, m) => (s.setMach m).addProc { pcb with userSatp := addrOf f }
  | .map node pid va flags =>
    s.procs[pid]? >>= fun p =>
      match s.mach.allocPage lay node with
      | (none, m) => some (s.setMach m)
      | (some f, m) =>
        (m.mapPage lay node p.userSatp va (addrOf f) flags).map fun m =>
          { s.setMach m with user := Function.update (s.setMach m).user f true }
  | .fork node pid =>
    s.procs[pid]? >>= fun p =>
      (s.mach.clonePml4Cow lay node p.userSatp).map fun (cr3, m) => (s.setMach m).addProc { p with userSatp := cr3 }
  | .fault node pid va errorCode =>
    s.procs[pid]? >>= fun p => (s.mach.handleCowFault lay node p.userSatp va errorCode).map fun (_, m) => s.setMach m
  | .unmap pid va =>
    s.procs[pid]? >>= fun p =>
      match s.mach.unmapPage p.userSatp va with
      | (none, m) => some (s.setMach m)
      | (some pa, m) => (m.freePage lay pa).map s.setMach
  | .munmap node pid addr length =>
    s.procs[pid]? >>= fun p =>
      (Mmap.sysMunmap (memory lay node) ⟨p, s.mach⟩ addr length).map fun (_, t) => (s.setMach t.mem).setProc pid t.pcb
  | .mprotect node pid addr length prot =>
    s.procs[pid]? >>= fun p =>
      (Mmap.sysMprotect (memory lay node) ⟨p, s.mach⟩ addr length prot).map fun (_, t) => (s.setMach t.mem).setProc pid t.pcb
  | .store pid va i w => s.procs[pid]?.map fun p => s.setMach (s.mach.store p.userSatp va i w)

end System

end Moxide.Paging
