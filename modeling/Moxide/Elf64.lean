import Moxide.Lib.Bytes

/-! The ELF loader (`init/loader/elf64.rs`). The page table is a map from page addresses to frames and flags; a load that
    fails is `none`, and what it has allocated by then is not followed. -/

namespace Moxide.Elf64
open Lib

def ELFMAG : List UInt8 := [0x7f, 0x45, 0x4c, 0x46]
def ELFCLASS64 : UInt8 := 2
def ET_EXEC : Nat := 2
def ET_DYN : Nat := 3
def EM_X86_64 : Nat := 62
def EM_RISCV : Nat := 243
def PT_LOAD : Nat := 1
def PT_PHDR : Nat := 6
def PAGE : Nat := 4096
def ASLR_BASE : Nat := 0x1000_0000_0000
def ASLR_RANGE : Nat := 0x6000_0000_0000
def ALIGN_2MB : Nat := 2 * 1024 * 1024

inductive Arch
  | x86_64
  | riscv64
  | aarch64

def usize (n : Nat) : Nat := n % 2 ^ 64

def word (image : List UInt8) (off n : Nat) : Nat := LittleEndian.ofBytes ((image.drop off).take n)

structure Elf64Ehdr where
  eIdent : List UInt8
  eType : Nat
  eMachine : Nat
  eEntry : Nat
  ePhoff : Nat
  ePhentsize : Nat
  ePhnum : Nat

def ehdr (image : List UInt8) : Elf64Ehdr where
  eIdent := image.take 16
  eType := word image 16 2
  eMachine := word image 18 2
  eEntry := word image 24 8
  ePhoff := word image 32 8
  ePhentsize := word image 54 2
  ePhnum := word image 56 2

structure Elf64Phdr where
  pType : Nat
  pFlags : Nat
  pOffset : Nat
  pVaddr : Nat
  pFilesz : Nat
  pMemsz : Nat
  deriving DecidableEq

def phdrAt (image : List UInt8) (off : Nat) : Elf64Phdr where
  pType := word image off 4
  pFlags := word image (off + 4) 4
  pOffset := word image (off + 8) 8
  pVaddr := word image (off + 16) 8
  pFilesz := word image (off + 32) 8
  pMemsz := word image (off + 40) 8

/-- Physical memory, the free frames and the address space. -/
structure Machine where
  mem : Mem
  free : List Nat
  table : Nat → Option (Nat × Nat)

/-- `write_bytes(pa, 0, PAGE)` -/
def zeroPage (mem : Mem) (pa : Nat) : Mem := fun a => if pa ≤ a ∧ a < pa + PAGE then 0 else mem a

/-- `copy_nonoverlapping` -/
def copyTo (mem : Mem) (pa : Nat) (bs : List UInt8) : Mem :=
  fun a => if pa ≤ a ∧ a < pa + bs.length then bs.getD (a - pa) 0 else mem a

def mapPageArch (m : Machine) (va pa flags : Nat) : Machine :=
  { m with table := Function.update m.table va (some (pa, flags)) }

/-- A round of the page loop: a zeroed frame with the page's part of the file. -/
def loadPage (image : List UInt8) (ph : Elf64Phdr) (bias va : Nat) (m : Machine) : Option (Nat × Machine) :=
  match m.free with
  | [] => none
  | pa :: free =>
    let vaddr := usize (ph.pVaddr + bias)
    let mem := zeroPage m.mem pa
    let pgFileStart := max va vaddr
    let pgFileEnd := min (va + PAGE) (usize (vaddr + ph.pFilesz))
    let mem :=
      if pgFileStart < pgFileEnd then
        copyTo mem (pa + (pgFileStart - va))
          ((image.drop (ph.pOffset + (pgFileStart - vaddr))).take (pgFileEnd - pgFileStart))
      else mem
    some (pa, mapPageArch { m with mem, free } va pa ph.pFlags)

/-- `n` rounds of the page loop from `va` on, with the frames they have taken. -/
def loadPages (image : List UInt8) (ph : Elf64Phdr) (bias : Nat) : Nat → Nat → Machine → Option (List Nat × Machine)
  | 0, _, m => some ([], m)
  | n + 1, va, m => do
    let (pa, m) ← loadPage image ph bias va m
    let (pages, m) ← loadPages image ph bias n (va + PAGE) m
    return (pa :: pages, m)

/-- The variables of the loop over the program headers. -/
structure Loop where
  machine : Machine
  pages : List Nat
  brk : Nat
  phdrVa : Nat
  firstLoadVaddrBase : Option Nat

def vpageStart (ph : Elf64Phdr) (bias : Nat) : Nat := usize (ph.pVaddr + bias) / PAGE * PAGE

def vpageEnd (ph : Elf64Phdr) (bias : Nat) : Nat := usize (usize (ph.pVaddr + bias) + ph.pMemsz + PAGE - 1) / PAGE * PAGE

def loadPhdr (image : List UInt8) (bias : Nat) (s : Loop) (ph : Elf64Phdr) : Option Loop := do
  let vaddr := usize (ph.pVaddr + bias)
  let s := if ph.pType = PT_PHDR then { s with phdrVa := vaddr } else s
  if ph.pType ≠ PT_LOAD then return s
  let s := { s with firstLoadVaddrBase := s.firstLoadVaddrBase.or (some (usize (vaddr + 2 ^ 64 - ph.pOffset))) }
  if image.length < ph.pFilesz ∨ image.length < usize (ph.pOffset + ph.pFilesz) then none
  else if ph.pMemsz = 0 then return s
  else
    let start := vpageStart ph bias
    let (pages, machine) ← loadPages image ph bias ((vpageEnd ph bias - start) / PAGE) start s.machine
    return { s with machine, pages := s.pages ++ pages, brk := max s.brk (usize (vaddr + ph.pMemsz)) }

structure LoadedElf where
  entry : Nat
  brk : Nat
  isDyn : Bool
  base : Nat
  pages : List Nat
  phdrVa : Nat
  phdrCount : Nat
  phdrSize : Nat
  deriving DecidableEq

def machineOk (arch : Arch) (machine : Nat) : Bool :=
  match arch with
  | .x86_64 => machine = EM_X86_64
  | .riscv64 => machine = EM_RISCV
  | .aarch64 => true

def phdrs (image : List UInt8) : List Elf64Phdr :=
  (List.range (ehdr image).ePhnum).map fun i => phdrAt image ((ehdr image).ePhoff + i * (ehdr image).ePhentsize)

/-- The address of the program headers in the image, unless a header has given it. -/
def phdrVaOf (h : Elf64Ehdr) (s : Loop) : Nat :=
  if s.phdrVa = 0 ∧ h.ePhoff ≠ 0 then
    match s.firstLoadVaddrBase with
    | some base => if base + h.ePhoff < 2 ^ 64 then base + h.ePhoff else 0
    | none => 0
  else s.phdrVa

/-- `rand` is what `next_u64` returns. -/
def load (arch : Arch) (image : List UInt8) (rand : Nat) (m : Machine) : Option (LoadedElf × Machine) :=
  let h := ehdr image
  if image.length < 64 then none
  else if h.eIdent.take 4 ≠ ELFMAG then none
  else if h.eIdent.getD 4 0 ≠ ELFCLASS64 then none
  else if machineOk arch h.eMachine = false then none
  else if h.eType ≠ ET_EXEC ∧ h.eType ≠ ET_DYN then none
  else
    let isDyn := h.eType = ET_DYN
    let bias := if isDyn then ASLR_BASE + rand % (ASLR_RANGE / ALIGN_2MB) * ALIGN_2MB else 0
    if image.length < usize (h.ePhoff + h.ePhnum * h.ePhentsize) then none
    else do
      let s ← (phdrs image).foldlM (loadPhdr image bias) ⟨m, [], 0, 0, none⟩
      return ({ entry := usize (h.eEntry + bias), brk := usize (s.brk + PAGE - 1) / PAGE * PAGE, isDyn, base := bias,
                pages := s.pages, phdrVa := phdrVaOf h s, phdrCount := h.ePhnum, phdrSize := h.ePhentsize }, s.machine)

end Moxide.Elf64
