import Moxide.Lib.Bytes

/-! The first walk over the device tree (`arch/riscv64/fdt.rs`). Its calls of the allocator, the interrupt controller and the
    processor table are recorded. -/

namespace Moxide.Fdt
open Lib

abbrev Bytes := List UInt8

def FDT_MAGIC : Nat := 0xD00DFEED
def FDT_BEGIN_NODE : Nat := 1
def FDT_END_NODE : Nat := 2
def FDT_PROP : Nat := 3
def FDT_NOP : Nat := 4

def U32_MAX : Nat := 2 ^ 32 - 1

def str (s : String) : Bytes := s.toByteArray.data.toList

/-- A number of `n` bytes at `off`, high byte first: `be32` and `be64`. -/
def be (b : Bytes) (off n : Nat) : Option Nat :=
  if off + n ≤ b.length then some (LittleEndian.ofBytes ((b.drop off).take n).reverse) else none

/-- `core::str::from_utf8(..).unwrap_or("")` -/
def utf8 (b : Bytes) : Bytes := if ByteArray.validateUTF8 ⟨b.toArray⟩ then b else []

def cstr (b : Bytes) (off : Nat) : Bytes := utf8 ((b.drop off).takeWhile (· ≠ 0))

/-- The length, the struct section and the string section of the blob in memory from `fdt_ptr` on. -/
def openFdt (fdtPtr : Nat) (mem : Bytes) : Option (Nat × Bytes × Bytes) := do
  let total ← be mem 4 4
  let sOff ← be mem 8 4
  let strOff ← be mem 12 4
  let strSize ← be mem 32 4
  let sSize ← be mem 36 4
  if fdtPtr = 0 ∨ be mem 0 4 ≠ some FDT_MAGIC ∨ total < 40 ∨ sOff % 4 ≠ 0 ∨ total < sOff + sSize ∨ total < strOff + strSize ∨
      sSize < 4 then none
  else some (total, (mem.drop sOff).take sSize, (mem.drop strOff).take strSize)

inductive Token
  | beginNode (name : Bytes)
  | endNode
  | prop (name data : Bytes)
  | nop
  deriving DecidableEq

/-- The token at `pos` and where the next one is; `none` where the walk ends. -/
def nextToken (structs strings : Bytes) (pos : Nat) : Option (Token × Nat) := do
  let token ← be structs pos 4
  let pos := pos + 4
  if token = FDT_BEGIN_NODE then
    let rel ← (structs.drop pos).findIdx? (· = 0)
    return (.beginNode (utf8 ((structs.drop pos).take rel)), (pos + rel + 1 + 3) / 4 * 4)
  else if token = FDT_END_NODE then return (.endNode, pos)
  else if token = FDT_PROP then
    let propLen ← be structs pos 4
    let nameOff ← be structs (pos + 4) 4
    if strings.length ≤ nameOff then none
    else
      let pos := pos + 8
      let propData := if pos + propLen ≤ structs.length then (structs.drop pos).take propLen else []
      return (.prop (cstr strings nameOff) propData, (pos + propLen + 3) / 4 * 4)
  else if token = FDT_NOP then return (.nop, pos)
  else none

/-- The tokens that `n` rounds of the loop come to. A token has four bytes or more, so the length of the section is
    enough. -/
def tokensFrom (structs strings : Bytes) : Nat → Nat → List Token
  | 0, _ => []
  | n + 1, pos =>
    match nextToken structs strings pos with
    | none => []
    | some (token, pos) => token :: tokensFrom structs strings n pos

def regEntries (data : Bytes) : List (Nat × Nat) :=
  (List.range (data.length / 16)).map fun i => ((be data (16 * i) 8).getD 0, (be data (16 * i + 8) 8).getD 0)

/-- Where the kernel ends and the blob is, as physical addresses (far below `2 ^ 64`), and the hart that boots. -/
structure Layout where
  kernelEnd : Nat
  fdtPtr : Nat
  total : Nat
  bootHart : Nat

namespace Layout

def kernelEndPa (l : Layout) : Nat := (l.kernelEnd + 0xFFF) / 4096 * 4096

def fdtStart (l : Layout) : Nat := l.fdtPtr / 4096 * 4096

def fdtEnd (l : Layout) : Nat := (l.fdtPtr + l.total + 0xFFF) / 4096 * 4096

def freeStart (l : Layout) (base : Nat) : Nat := if base < l.kernelEndPa then l.kernelEndPa else base

/-- The regions that are added for an entry, as start and length. -/
def carve (l : Layout) (entry : Nat × Nat) : List (Nat × Nat) :=
  if entry.2 = 0 then []
  else
    let freeStart := l.freeStart entry.1
    let regionEnd := (entry.1 + entry.2) % 2 ^ 64
    (if freeStart < l.fdtStart ∧ l.fdtStart ≤ regionEnd then [(freeStart, l.fdtStart - freeStart)] else []) ++
      (if l.fdtEnd < regionEnd then [(l.fdtEnd, regionEnd - l.fdtEnd)] else []) ++
      if (l.fdtEnd ≤ freeStart ∨ regionEnd ≤ l.fdtStart) ∧ freeStart < regionEnd
      then [(freeStart, regionEnd - freeStart)] else []

end Layout

inductive SocChild
  | none
  | plic
  | other
  deriving DecidableEq

/-- The variables of the walk, and the calls it has made. -/
structure Walk where
  depth : Nat := 0
  inMemory : Bool := false
  inChosen : Bool := false
  inSoc : Bool := false
  socChild : SocChild := .none
  plicBase : Nat := 0
  inCpus : Bool := false
  cpusChild : Bool := false
  cpuReg : Nat := U32_MAX
  cpuStatusOk : Bool := false
  initrdStart : Nat := 0
  initrdEnd : Nat := 0
  regions : List (Nat × Nat) := []
  plicBases : List Nat := []
  cpus : List (Nat × Bool) := []

def isNamed (name : Bytes) (s : String) : Bool := name = str s || (str s ++ [64]).isPrefixOf name

def Walk.beginNode (w : Walk) (name : Bytes) : Walk :=
  let w' :=
    if w.depth = 1 then
      { w with
        inMemory := isNamed name "memory", inChosen := name = str "chosen", inSoc := name = str "soc",
        inCpus := name = str "cpus" }
    else if w.depth = 2 ∧ w.inSoc then { w with socChild := if isNamed name "plic" then .plic else .other }
    else if w.depth = 2 ∧ w.inCpus then
      if isNamed name "cpu" then { w with cpusChild := true, cpuReg := U32_MAX, cpuStatusOk := true }
      else { w with cpusChild := false }
    else w
  { w' with depth := w.depth + 1 }

def Walk.endNode (l : Layout) (w : Walk) : Walk :=
  let w := { w with depth := w.depth - 1 }
  if w.depth = 1 then { w with inMemory := false, inChosen := false, inSoc := false, inCpus := false }
  else if w.depth = 2 ∧ w.inSoc then
    { w with
      plicBases := if w.socChild = .plic ∧ w.plicBase ≠ 0 then w.plicBases ++ [w.plicBase] else w.plicBases,
      socChild := .none }
  else if w.depth = 2 ∧ w.inCpus then
    { w with
      cpus :=
        if w.cpusChild ∧ w.cpuReg ≠ U32_MAX ∧ w.cpuStatusOk
        then w.cpus ++ [(w.cpuReg, decide (w.cpuReg = l.bootHart % 2 ^ 32))] else w.cpus
      cpusChild := false, cpuReg := U32_MAX, cpuStatusOk := true }
  else w

def bound (data : Bytes) : Nat := if data.length = 8 ∨ data.length = 4 then (be data 0 data.length).getD 0 else 0

def plicAddr (data : Bytes) : Nat :=
  if 8 ≤ data.length then (be data 0 8).getD 0 else if 4 ≤ data.length then (be data 0 4).getD 0 else 0

def Walk.prop (l : Layout) (w : Walk) (name data : Bytes) : Walk :=
  let w := if w.inMemory ∧ name = str "reg" then { w with regions := w.regions ++ (regEntries data).flatMap l.carve } else w
  let w := if w.inChosen ∧ name = str "linux,initrd-start" then { w with initrdStart := bound data } else w
  let w := if w.inChosen ∧ name = str "linux,initrd-end" then { w with initrdEnd := bound data } else w
  let w := if w.socChild = .plic ∧ name = str "reg" ∧ plicAddr data ≠ 0 then { w with plicBase := plicAddr data } else w
  let w := if w.cpusChild ∧ name = str "reg" then { w with cpuReg := (be data 0 4).getD w.cpuReg } else w
  if w.cpusChild ∧ name = str "status" then
    let s := utf8 (data.takeWhile (· ≠ 0))
    { w with cpuStatusOk := s = str "okay" || s = str "ok" }
  else w

def Walk.token (l : Layout) (w : Walk) : Token → Walk
  | .beginNode name => w.beginNode name
  | .endNode => w.endNode l
  | .prop name data => w.prop l name data
  | .nop => w

end Moxide.Fdt
