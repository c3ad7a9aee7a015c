import Moxide.Lib.Partition

/-! The VMA lists of `mm/mmap` and the calls that change them. The memory below, page tables and frames, is any
    implementation of `Memory`. Sums of addresses wrap, as in a release build, and `none` is a panic. Calls run one after
    another; `check_rlimit_as` reads the list although it takes the lock a second time to do so. -/

namespace Moxide.Mmap

def PAGE : UInt64 := 4096

def PROT_READ : UInt32 := 1
def PROT_WRITE : UInt32 := 2
def PROT_EXEC : UInt32 := 4

def MAP_FIXED : UInt32 := 0x10
def MAP_ANON : UInt32 := 0x20
def MAP_GROWSDOWN : UInt32 := 0x0100
def MAP_FIXED_NOREPLACE : UInt32 := 0x100000

def USIZE_MAX : UInt64 := 0xFFFFFFFFFFFFFFFF

def pageAlignUp (n : UInt64) : UInt64 := (n + PAGE - 1) &&& ~~~(PAGE - 1)

def saturatingAdd (a b : UInt64) : UInt64 := if a.toNat + b.toNat < 2 ^ 64 then a + b else USIZE_MAX

def saturatingSub (a b : UInt64) : UInt64 := if b ≤ a then a - b else 0

/-- The iterator `(a..b).step_by(PAGE)`. -/
def pagesOf (a b : UInt64) : List UInt64 :=
  (List.range ((b.toNat - a.toNat + 4095) / 4096)).map fun i => a + UInt64.ofNat (i * 4096)

/-! ### VMAs -/

inductive VmaKind where
  | anonymous
  | fileBacked (fd off : UInt64)
  | physMap (off : UInt64)
  | stack
  | heap
  deriving DecidableEq, Repr

/-- The field `end` of the source is `stop`. -/
structure Vma where
  start : UInt64
  stop : UInt64
  prot : UInt32
  flags : UInt32
  kind : VmaKind
  fileOffset : UInt64
  locked : Bool
  deriving DecidableEq, Repr

namespace Vma

def isHeap (v : Vma) : Bool := v.kind = .heap

def isPhysMap (v : Vma) : Bool :=
  match v.kind with
  | .physMap _ => true
  | _ => false

def contains (v : Vma) (addr : UInt64) : Bool := v.start ≤ addr ∧ addr < v.stop

/-- What is left of a VMA from `stop` on, with its file position moved along. -/
def tail (v : Vma) (stop : UInt64) : Vma :=
  { v with
    start := stop
    kind := match v.kind with
      | .fileBacked fd off => .fileBacked fd (off + (stop - v.start))
      | k => k
    fileOffset := v.fileOffset + (stop - v.start) }

end Vma

def insertVma (vmas : List Vma) (vma : Vma) : List Vma :=
  vmas.insertIdx (Lib.partitionPoint (fun v => v.start < vma.start) vmas) vma

def removeVma (vmas : List Vma) (addr len : UInt64) : List Vma :=
  vmas.filter fun v => v.stop ≤ addr ∨ saturatingAdd addr len ≤ v.start

/-- The second loop of `remove_vma_inner`, at the index where `rest` begins; `done` is what it has passed. -/
def carveLoop (addr stop : UInt64) (done : List Vma) : List Vma → List Vma
  | [] => done
  | v :: rest =>
    if v.stop ≤ addr ∨ stop ≤ v.start then carveLoop addr stop (done ++ [v]) rest
    else if addr ≤ v.start ∧ v.stop ≤ stop then carveLoop addr stop done rest
    else if v.start < addr ∧ stop < v.stop then
      carveLoop addr stop (done ++ [{ v with stop := addr }, v.tail stop]) rest
    else if v.start < addr then carveLoop addr stop (done ++ [{ v with stop := addr }]) rest
    else carveLoop addr stop (done ++ [v.tail stop]) rest

/-- The heap VMA that `sys_brk` looks for. -/
def isHeapAt (brkBase : UInt64) (v : Vma) : Bool := v.isHeap ∧ v.start = brkBase

def setHeapEnd (brkBase newBrk : UInt64) : List Vma → Option (List Vma)
  | [] => none
  | v :: vs =>
    if isHeapAt brkBase v then some ({ v with stop := newBrk } :: vs)
    else (setHeapEnd brkBase newBrk vs).map (v :: ·)

def heapVma (brkBase newBrk : UInt64) : Vma :=
  ⟨brkBase, newBrk, PROT_READ ||| PROT_WRITE, MAP_ANON, .heap, 0, false⟩

def coalesceOrInsertHeapVma (vmas : List Vma) (brkBase newBrk : UInt64) : List Vma :=
  match setHeapEnd brkBase newBrk vmas with
  | some vmas' => vmas'
  | none => insertVma vmas (heapVma brkBase newBrk)

def trimHeapVma (vmas : List Vma) (brkBase newBrk : UInt64) : List Vma :=
  (setHeapEnd brkBase newBrk vmas).getD vmas

def RLIMIT_STACK : Nat := 3
def RLIMIT_AS : Nat := 9
def RLIM_INFINITY : UInt64 := 0xFFFFFFFFFFFFFFFF

/-- The pairs of a soft and a hard limit, by resource. -/
structure RlimitSet where
  limits : Nat → UInt64 × UInt64

namespace RlimitSet

def exceedsAs (r : RlimitSet) (currentAs extraBytes : UInt64) : Bool :=
  let soft := (r.limits RLIMIT_AS).1
  if soft = RLIM_INFINITY then false else soft < saturatingAdd currentAs extraBytes

def exceedsStack (r : RlimitSet) (requestedBytes : UInt64) : Bool :=
  let soft := (r.limits RLIMIT_STACK).1
  if soft = RLIM_INFINITY then false else soft < requestedBytes

end RlimitSet

/-! ### Processes and the memory below -/

/-- The fields of a process that the calls read and change. -/
structure Pcb where
  vmas : List Vma
  nextVa : UInt64
  brk : UInt64
  brkBase : UInt64
  userSatp : UInt64
  rlimits : RlimitSet

namespace Pcb

def currentAsBytes (p : Pcb) : UInt64 := p.vmas.foldl (fun n v => n + (v.stop - v.start)) 0

def checkRlimitAs (p : Pcb) (extra : UInt64) : Int64 :=
  if p.rlimits.exceedsAs p.currentAsBytes extra then -12 else 0

def setBrkBase (p : Pcb) (endOfBss : UInt64) : Pcb :=
  { p with brkBase := pageAlignUp endOfBss, brk := pageAlignUp endOfBss }

/-- Takes a region of `len` bytes at `next_va`. -/
def bump (p : Pcb) (len : UInt64) : UInt64 × Pcb :=
  (p.nextVa, { p with nextVa := pageAlignUp (p.nextVa + len + PAGE) })

end Pcb

abbrev PageFlags := UInt32

def PageFlags.PRESENT : PageFlags := 1
def PageFlags.WRITE : PageFlags := 2
def PageFlags.USER : PageFlags := 4
def PageFlags.NX : PageFlags := 8

def protToFlags (prot : UInt32) : PageFlags :=
  PageFlags.PRESENT ||| PageFlags.USER ||| (if prot &&& PROT_WRITE ≠ 0 then PageFlags.WRITE else 0) |||
    (if prot &&& PROT_EXEC = 0 then PageFlags.NX else 0)

/-- `Paging` and the frame allocator on a memory `μ`. Mapping a page may take frames for page tables and panics when
    there are none; freeing a frame that is not allocated panics. -/
structure Memory (μ : Type) where
  allocPage : μ → Option (Option UInt64 × μ)
  freePage : μ → UInt64 → Option μ
  mapPage : (m : μ) → (cr3 va pa : UInt64) → PageFlags → Option μ
  unmapPage : (m : μ) → (cr3 va : UInt64) → μ
  virtToPhys : (m : μ) → (cr3 va : UInt64) → Option UInt64

/-- The framebuffer driver: which descriptors are its own, and its base and size once it is set up. -/
structure Gop where
  isFbFd : UInt64 → Bool
  info : Option (UInt64 × UInt64)

structure State (μ : Type) where
  pcb : Pcb
  mem : μ

namespace State
variable {μ : Type}

def setVmas (s : State μ) (vmas : List Vma) : State μ := { s with pcb := { s.pcb with vmas := vmas } }

def setMem (s : State μ) (m : μ) : State μ := { s with mem := m }

def setBrk (s : State μ) (brk : UInt64) : State μ := { s with pcb := { s.pcb with brk := brk } }

end State

section Calls
variable {μ : Type} (M : Memory μ)

/-- Unmaps pages and collects their frames, except those of physical mappings. -/
def unmapPages (cr3 : UInt64) (isPhys : UInt64 → Bool) : μ → List UInt64 → μ × List UInt64
  | m, [] => (m, [])
  | m, va :: rest =>
    match M.virtToPhys m cr3 va with
    | none => unmapPages cr3 isPhys m rest
    | some pa =>
      let (m', toFree) := unmapPages cr3 isPhys (M.unmapPage m cr3 va) rest
      (m', if isPhys va then toFree else pa :: toFree)

def freePages (m : μ) (toFree : List UInt64) : Option μ := toFree.foldlM M.freePage m

/-- Maps pages to fresh frames. When there is no frame left it returns how many pages it has mapped, and the page
    that it could not map. -/
def mapFresh (cr3 : UInt64) (flags : PageFlags) : μ → List UInt64 → Nat → Option (μ × Option (Nat × UInt64))
  | m, [], _ => some (m, none)
  | m, va :: rest, mapped =>
    match M.allocPage m with
    | none => none
    | some (none, m') => some (m', some (mapped, va))
    | some (some pa, m') =>
      match M.mapPage m' cr3 va pa flags with
      | none => none
      | some m'' => mapFresh cr3 flags m'' rest (mapped + 1)

/-- Unmaps and frees the pages that a failed `sys_mmap` has mapped. -/
def rollback (cr3 : UInt64) : μ → List UInt64 → Option μ
  | m, [] => some m
  | m, va :: rest =>
    match M.virtToPhys m cr3 va with
    | none => rollback cr3 m rest
    | some pa => M.freePage (M.unmapPage m cr3 va) pa >>= fun m' => rollback cr3 m' rest

def mapPhysPages (cr3 : UInt64) (flags : PageFlags) : μ → List UInt64 → UInt64 → Option μ
  | m, [], _ => some m
  | m, va :: rest, pa => M.mapPage m cr3 va pa flags >>= fun m' => mapPhysPages cr3 flags m' rest (pa + PAGE)

def remapPages (cr3 : UInt64) (flags : PageFlags) : μ → List UInt64 → Option μ
  | m, [] => some m
  | m, va :: rest =>
    match M.virtToPhys m cr3 va with
    | none => remapPages cr3 flags m rest
    | some pa => M.mapPage m cr3 va pa flags >>= fun m' => remapPages cr3 flags m' rest

/-! ### `sys_mmap` -/

structure MmapArgs where
  addr : UInt64
  length : UInt64
  prot : UInt32
  flags : UInt32
  fd : UInt64
  offset : UInt64
  deriving DecidableEq, Repr

namespace MmapArgs

def isFixed (c : MmapArgs) : Bool := c.flags &&& MAP_FIXED ≠ 0

def isFixedNoreplace (c : MmapArgs) : Bool := c.flags &&& MAP_FIXED_NOREPLACE ≠ 0

def isGrowsdown (c : MmapArgs) : Bool := c.flags &&& MAP_GROWSDOWN ≠ 0

def isAnon (c : MmapArgs) : Bool := c.flags &&& MAP_ANON ≠ 0 ∨ c.fd = USIZE_MAX

/-- The base and the size of the framebuffer, if the call maps it. -/
def framebuffer (g : Gop) (c : MmapArgs) : Option (UInt64 × UInt64) :=
  if c.flags &&& MAP_ANON = 0 ∧ g.isFbFd c.fd then g.info else none

def safeLen (c : MmapArgs) (fbSize : UInt64) : UInt64 := min (pageAlignUp c.length) (saturatingSub fbSize c.offset)

def anonVma (c : MmapArgs) (va len : UInt64) : Vma :=
  ⟨va, va + len, c.prot, c.flags, if c.isGrowsdown then .stack else .anonymous, 0, false⟩

def fileVma (c : MmapArgs) (va len : UInt64) : Vma :=
  ⟨va, va + len, c.prot, c.flags, .fileBacked c.fd c.offset, c.offset, false⟩

def physVma (c : MmapArgs) (va len pa : UInt64) : Vma :=
  ⟨va, va + len, c.prot &&& ~~~PROT_EXEC, c.flags, .physMap pa, pa, false⟩

end MmapArgs

def removeVmaInner (s : State μ) (addr stop : UInt64) : Option (State μ) :=
  let isPhys := fun va => s.pcb.vmas.any fun v => v.contains va && v.isPhysMap
  let (m, toFree) := unmapPages M s.pcb.userSatp isPhys s.mem (pagesOf addr stop)
  (freePages M m toFree).map fun m => (s.setMem m).setVmas (carveLoop addr stop [] s.pcb.vmas)

/-- The region of `mmap_phys`. It has no case for `MAP_FIXED_NOREPLACE`. -/
def placePhys (s : State μ) (c : MmapArgs) (len : UInt64) : Option (UInt64 × State μ) :=
  if c.isFixed then
    if c.addr = 0 then some (0, s)
    else (removeVmaInner M s c.addr (saturatingAdd c.addr len)).map (c.addr, ·)
  else some ((s.pcb.bump len).1, { s with pcb := (s.pcb.bump len).2 })

def mmapPhys (s : State μ) (c : MmapArgs) (len pa : UInt64) : Option (Int64 × State μ) :=
  placePhys M s c len >>= fun (va, s) =>
    if va = 0 ∨ s.pcb.userSatp = 0 then some (-22, s)
    else
      (mapPhysPages M s.pcb.userSatp (protToFlags (c.prot &&& ~~~PROT_EXEC)) s.mem (pagesOf va (va + len)) pa).map
        fun m => (va.toInt64, (s.setMem m).setVmas (insertVma s.pcb.vmas (c.physVma va len pa)))

/-- The region of `sys_mmap`: the address given, cleared first unless the call is `MAP_FIXED_NOREPLACE`, or the next
    free one. -/
def place (s : State μ) (c : MmapArgs) (len : UInt64) : Option (UInt64 × State μ) :=
  if c.isFixed ∨ c.isFixedNoreplace then
    if c.isFixedNoreplace then some (c.addr, s)
    else (removeVmaInner M s c.addr (saturatingAdd c.addr len)).map (c.addr, ·)
  else some ((s.pcb.bump len).1, { s with pcb := (s.pcb.bump len).2 })

/-- The anonymous branch of `sys_mmap`: the VMA is entered first and taken out again if frames run out. -/
def mmapAnon (s : State μ) (c : MmapArgs) (va len : UInt64) : Option (Int64 × State μ) :=
  let cr3 := s.pcb.userSatp
  let vmas := insertVma s.pcb.vmas (c.anonVma va len)
  mapFresh M cr3 (protToFlags c.prot) s.mem (pagesOf va (va + len)) 0 >>= fun
    | (m, none) => some (va.toInt64, (s.setMem m).setVmas vmas)
    | (m, some (mapped, _)) =>
      (rollback M cr3 m (pagesOf va (va + UInt64.ofNat mapped * PAGE))).map fun m =>
        (-12, (s.setMem m).setVmas (removeVma vmas va len))

def mmapPlain (s : State μ) (c : MmapArgs) (len : UInt64) : Option (Int64 × State μ) :=
  place M s c len >>= fun (va, s) =>
    if va = 0 then some (-22, s)
    else if s.pcb.userSatp = 0 then some (-12, s)
    else if c.isAnon then mmapAnon M s c va len
    else some (va.toInt64, s.setVmas (insertVma s.pcb.vmas (c.fileVma va len)))

/-- Whether a VMA is in the way of a `MAP_FIXED_NOREPLACE` call. -/
def Pcb.collision (p : Pcb) (addr len : UInt64) : Bool := p.vmas.any fun v => v.start < addr + len ∧ addr < v.stop

def sysMmap (g : Gop) (s : State μ) (c : MmapArgs) : Option (Int64 × State μ) :=
  let len := pageAlignUp c.length
  if c.length = 0 then some (-22, s)
  else if c.isGrowsdown ∧ s.pcb.rlimits.exceedsStack len then some (-12, s)
  else if s.pcb.checkRlimitAs len < 0 then some (s.pcb.checkRlimitAs len, s)
  else if (c.isFixed ∨ c.isFixedNoreplace) ∧ (c.addr = 0 ∨ c.addr &&& (PAGE - 1) ≠ 0) then some (-22, s)
  else if c.isFixedNoreplace ∧ s.pcb.collision c.addr len then some (-17, s)
  else
    match c.framebuffer g with
    | some (fbPhys, fbSize) =>
      if c.safeLen fbSize = 0 then some (-22, s) else mmapPhys M s c (c.safeLen fbSize) (fbPhys + c.offset)
    | none => mmapPlain M s c len

/-! ### The other calls -/

def sysMunmap (s : State μ) (addr length : UInt64) : Option (Int64 × State μ) :=
  let len := pageAlignUp length
  if addr &&& (PAGE - 1) ≠ 0 ∨ length = 0 then some (-22, s)
  else if s.pcb.userSatp = 0 then some (-14, s)
  else
    let isPhys := fun va => s.pcb.vmas.any fun v => v.contains va && v.isPhysMap
    let (m, toFree) := unmapPages M s.pcb.userSatp isPhys s.mem (pagesOf addr (addr + len))
    (freePages M m toFree).map fun m => (0, (s.setMem m).setVmas (removeVma s.pcb.vmas addr len))

def Vma.protect (addr len : UInt64) (prot : UInt32) (v : Vma) : Vma :=
  if v.stop ≤ addr ∨ addr + len ≤ v.start then v else { v with prot := prot }

def sysMprotect (s : State μ) (addr length : UInt64) (prot : UInt32) : Option (Int64 × State μ) :=
  let len := pageAlignUp length
  if addr &&& (PAGE - 1) ≠ 0 then some (-22, s)
  else if length = 0 then some (0, s)
  else if s.pcb.userSatp = 0 then some (-14, s)
  else
    (remapPages M s.pcb.userSatp (protToFlags prot) s.mem (pagesOf addr (addr + len))).map fun m =>
      (0, (s.setMem m).setVmas (s.pcb.vmas.map (Vma.protect addr len prot)))

/-- The growing branch of `sys_brk`. When frames run out the heap ends at the page that could not be mapped. -/
def brkGrow (s : State μ) (newBrk : UInt64) : Option (Int64 × State μ) :=
  let p := s.pcb
  if p.rlimits.exceedsStack (newBrk - p.brk) then some (p.brk.toInt64, s)
  else
    let flags := PageFlags.PRESENT ||| PageFlags.WRITE ||| PageFlags.USER ||| PageFlags.NX
    (mapFresh M p.userSatp flags s.mem (pagesOf p.brk newBrk) 0).map fun (m, out) =>
      let reached := match out with
        | none => newBrk
        | some (_, pageVa) => pageVa
      (reached.toInt64, ((s.setMem m).setVmas (coalesceOrInsertHeapVma p.vmas p.brkBase reached)).setBrk reached)

def brkShrink (s : State μ) (newBrk : UInt64) : Option (Int64 × State μ) :=
  let p := s.pcb
  let (m, toFree) := unmapPages M p.userSatp (fun _ => false) s.mem (pagesOf newBrk p.brk)
  (freePages M m toFree).map fun m =>
    (newBrk.toInt64, ((s.setMem m).setVmas (trimHeapVma p.vmas p.brkBase newBrk)).setBrk newBrk)

def sysBrk (s : State μ) (addr : UInt64) : Option (Int64 × State μ) :=
  let p := s.pcb
  let newBrk := pageAlignUp addr
  if p.brkBase = 0 ∨ addr = 0 ∨ addr < p.brkBase ∨ p.userSatp = 0 then some (p.brk.toInt64, s)
  else if p.brk < newBrk then brkGrow M s newBrk
  else if newBrk < p.brk then brkShrink M s newBrk
  else some (newBrk.toInt64, s.setBrk newBrk)

/-- A call of the process, or a change that others make to the memory between its calls. -/
inductive Event (μ : Type) where
  | mmap (c : MmapArgs)
  | munmap (addr length : UInt64)
  | mprotect (addr length : UInt64) (prot : UInt32)
  | brk (addr : UInt64)
  | elsewhere (m : μ)

def State.step (g : Gop) (s : State μ) : Event μ → Option (State μ)
  | .mmap c => (sysMmap M g s c).map (·.2)
  | .munmap addr length => (sysMunmap M s addr length).map (·.2)
  | .mprotect addr length prot => (sysMprotect M s addr length prot).map (·.2)
  | .brk addr => (sysBrk M s addr).map (·.2)
  | .elsewhere m => some (s.setMem m)

end Calls

end Moxide.Mmap
