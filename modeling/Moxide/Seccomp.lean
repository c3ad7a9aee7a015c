import Moxide.Lib.Cbpf

/-! The seccomp filter interpreter (`src/security/seccomp.rs`).

    A Rust expression that can `return` from `bpf_run` is a computation in `Except UInt32`, where `throw v`
    is the function's `return v`. -/

namespace Moxide.Seccomp

def SECCOMP_RET_KILL_PROCESS : UInt32 := 0x80000000

structure SockFilter where
  code : UInt16
  jt : UInt8
  jf : UInt8
  k : UInt32
  deriving DecidableEq, Repr

/-! ### Opcode bits -/

def BPF_LD : UInt16 := 0x00
def BPF_LDX : UInt16 := 0x01
def BPF_ST : UInt16 := 0x02
def BPF_STX : UInt16 := 0x03
def BPF_ALU : UInt16 := 0x04
def BPF_JMP : UInt16 := 0x05
def BPF_RET : UInt16 := 0x06
def BPF_MISC : UInt16 := 0x07

def BPF_W : UInt16 := 0x00
def BPF_H : UInt16 := 0x08
def BPF_B : UInt16 := 0x10

def BPF_IMM : UInt16 := 0x00
def BPF_ABS : UInt16 := 0x20
def BPF_IND : UInt16 := 0x40
def BPF_MEM : UInt16 := 0x60
def BPF_K : UInt16 := 0x00
def BPF_X : UInt16 := 0x08
def BPF_A : UInt16 := 0x10

def BPF_ADD : UInt16 := 0x00
def BPF_SUB : UInt16 := 0x10
def BPF_MUL : UInt16 := 0x20
def BPF_DIV : UInt16 := 0x30
def BPF_OR : UInt16 := 0x40
def BPF_AND : UInt16 := 0x50
def BPF_LSH : UInt16 := 0x60
def BPF_RSH : UInt16 := 0x70
def BPF_NEG : UInt16 := 0x80
def BPF_MOD : UInt16 := 0x90
def BPF_XOR : UInt16 := 0xa0

def BPF_JA : UInt16 := 0x00
def BPF_JEQ : UInt16 := 0x10
def BPF_JGT : UInt16 := 0x20
def BPF_JGE : UInt16 := 0x30
def BPF_JSET : UInt16 := 0x40

def BPF_RETK : UInt16 := BPF_RET ||| BPF_K
def BPF_RETA : UInt16 := BPF_RET ||| BPF_A
def BPF_TAX : UInt16 := BPF_MISC ||| 0x00
def BPF_TXA : UInt16 := BPF_MISC ||| 0x80

def BPF_MAXINSNS : Nat := 4096
def BPF_MAX_STEPS : Nat := 65536
def BPF_MEMWORDS : Nat := 16

def loadU32 (data : List UInt8) (off : Nat) : Option UInt32 :=
  match (data.drop off).take 4 with
  | [s0, s1, s2, s3] =>
    some (s0.toUInt32 ||| (s1.toUInt32 <<< 8) ||| (s2.toUInt32 <<< 16) ||| (s3.toUInt32 <<< 24))
  | _ => none

def loadU16 (data : List UInt8) (off : Nat) : Option UInt16 :=
  match (data.drop off).take 2 with
  | [s0, s1] => some (s0.toUInt16 ||| (s1.toUInt16 <<< 8))
  | _ => none

def loadU8 (data : List UInt8) (off : Nat) : Option UInt8 := data[off]?

/-! ### The interpreter -/

/-- The registers of `bpf_run`, its scratch memory and its program counter. -/
structure Regs where
  a : UInt32
  x : UInt32
  m : Vector UInt32 BPF_MEMWORDS
  pc : Nat

def Regs.init : Regs := ⟨0, 0, Vector.replicate BPF_MEMWORDS 0, 0⟩

/-- `o.unwrap_or(arg)`: a method call evaluates its argument before it looks at the receiver, so an
    argument that returns from the caller does so whatever `o` is. -/
def unwrapOr {α : Type} (o : Option α) (arg : Except UInt32 α) : Except UInt32 α := do
  let d ← arg
  return o.getD d

/-- `return SECCOMP_RET_KILL_PROCESS`, at any type. -/
def kill {α : Type} : Except UInt32 α := throw SECCOMP_RET_KILL_PROCESS

/-- `m.get_mut(k)`: the scratch word `k`, if there is one. -/
def getMut (k : UInt32) : Option (Fin BPF_MEMWORDS) :=
  if h : k.toNat < BPF_MEMWORDS then some ⟨k.toNat, h⟩ else none

/-- `pc += if taken { jt } else { jf }`. -/
def Regs.jump (r : Regs) (ins : SockFilter) (taken : Bool) : Regs :=
  { r with pc := r.pc + if taken then ins.jt.toNat else ins.jf.toNat }

/-- The `match code` of `bpf_run`, with the `pc += 1` that follows it (`continue` skips that). -/
def bpfStep (insns : List SockFilter) (data : List UInt8) (ins : SockFilter) (r : Regs) : Except UInt32 Regs :=
  let c := ins.code
  let k := ins.k
  let next : Regs → Except UInt32 Regs := fun r => pure { r with pc := r.pc + 1 }
  if c = BPF_LD ||| BPF_W ||| BPF_ABS then do
    let a ← unwrapOr (loadU32 data k.toNat) kill
    next { r with a := a }
  else if c = BPF_LD ||| BPF_H ||| BPF_ABS then do
    let a ← unwrapOr (loadU16 data k.toNat) kill
    next { r with a := a.toUInt32 }
  else if c = BPF_LD ||| BPF_B ||| BPF_ABS then do
    let a ← unwrapOr (loadU8 data k.toNat) kill
    next { r with a := a.toUInt32 }
  else if c = BPF_LD ||| BPF_W ||| BPF_IND then do
    let off := (r.x + k).toNat
    let a ← unwrapOr (loadU32 data off) kill
    next { r with a := a }
  else if c = BPF_LD ||| BPF_IMM then next { r with a := k }
  else if c = BPF_LDX ||| BPF_W ||| BPF_IMM then next { r with x := k }
  else if c = BPF_LD ||| BPF_MEM then do
    let a ← unwrapOr r.m[k.toNat]? kill
    next { r with a := a }
  else if c = BPF_LDX ||| BPF_MEM then do
    let x ← unwrapOr r.m[k.toNat]? kill
    next { r with x := x }
  else if c = BPF_ST then do
    let slot ← unwrapOr (getMut k) kill
    next { r with m := r.m.set slot r.a }
  else if c = BPF_STX then do
    let slot ← unwrapOr (getMut k) kill
    next { r with m := r.m.set slot r.x }
  else if c = BPF_ALU ||| BPF_ADD ||| BPF_K then next { r with a := r.a + k }
  else if c = BPF_ALU ||| BPF_ADD ||| BPF_X then next { r with a := r.a + r.x }
  else if c = BPF_ALU ||| BPF_SUB ||| BPF_K then next { r with a := r.a - k }
  else if c = BPF_ALU ||| BPF_SUB ||| BPF_X then next { r with a := r.a - r.x }
  else if c = BPF_ALU ||| BPF_MUL ||| BPF_K then next { r with a := r.a * k }
  else if c = BPF_ALU ||| BPF_MUL ||| BPF_X then next { r with a := r.a * r.x }
  else if c = BPF_ALU ||| BPF_DIV ||| BPF_K then
    if k = 0 then kill else next { r with a := r.a / k }
  else if c = BPF_ALU ||| BPF_DIV ||| BPF_X then
    if r.x = 0 then kill else next { r with a := r.a / r.x }
  else if c = BPF_ALU ||| BPF_MOD ||| BPF_K then
    if k = 0 then kill else next { r with a := r.a % k }
  else if c = BPF_ALU ||| BPF_MOD ||| BPF_X then
    if r.x = 0 then kill else next { r with a := r.a % r.x }
  else if c = BPF_ALU ||| BPF_OR ||| BPF_K then next { r with a := r.a ||| k }
  else if c = BPF_ALU ||| BPF_OR ||| BPF_X then next { r with a := r.a ||| r.x }
  else if c = BPF_ALU ||| BPF_AND ||| BPF_K then next { r with a := r.a &&& k }
  else if c = BPF_ALU ||| BPF_AND ||| BPF_X then next { r with a := r.a &&& r.x }
  else if c = BPF_ALU ||| BPF_LSH ||| BPF_K then next { r with a := r.a <<< (k &&& 31) }
  else if c = BPF_ALU ||| BPF_LSH ||| BPF_X then next { r with a := r.a <<< (r.x &&& 31) }
  else if c = BPF_ALU ||| BPF_RSH ||| BPF_K then next { r with a := r.a >>> (k &&& 31) }
  else if c = BPF_ALU ||| BPF_RSH ||| BPF_X then next { r with a := r.a >>> (r.x &&& 31) }
  else if c = BPF_ALU ||| BPF_XOR ||| BPF_K then next { r with a := r.a ^^^ k }
  else if c = BPF_ALU ||| BPF_XOR ||| BPF_X then next { r with a := r.a ^^^ r.x }
  else if c = BPF_ALU ||| BPF_NEG then next { r with a := ~~~r.a + 1 }
  else if c = BPF_TAX then next { r with x := r.a }
  else if c = BPF_TXA then next { r with a := r.x }
  else if c = BPF_JMP ||| BPF_JA then
    -- The sums saturate at `usize::MAX`; `pc` and `k` are far below it.
    let newPc := r.pc + k.toNat + 1
    if insns.length ≤ newPc then kill else pure { r with pc := newPc }
  else if c = BPF_JMP ||| BPF_JEQ ||| BPF_K then next (r.jump ins (r.a == k))
  else if c = BPF_JMP ||| BPF_JEQ ||| BPF_X then next (r.jump ins (r.a == r.x))
  else if c = BPF_JMP ||| BPF_JGT ||| BPF_K then next (r.jump ins (r.a > k))
  else if c = BPF_JMP ||| BPF_JGT ||| BPF_X then next (r.jump ins (r.a > r.x))
  else if c = BPF_JMP ||| BPF_JGE ||| BPF_K then next (r.jump ins (r.a ≥ k))
  else if c = BPF_JMP ||| BPF_JGE ||| BPF_X then next (r.jump ins (r.a ≥ r.x))
  else if c = BPF_JMP ||| BPF_JSET ||| BPF_K then next (r.jump ins ((r.a &&& k) != 0))
  else if c = BPF_JMP ||| BPF_JSET ||| BPF_X then next (r.jump ins ((r.a &&& r.x) != 0))
  else if c = BPF_RETK then throw k
  else if c = BPF_RETA then throw r.a
  else kill

/-- The `loop` of `bpf_run`, with `left` steps left before the limit `BPF_MAX_STEPS`. -/
def bpfLoop (insns : List SockFilter) (data : List UInt8) : Nat → Regs → UInt32
  | 0, _ => SECCOMP_RET_KILL_PROCESS
  | left + 1, r =>
    match insns[r.pc]? with
    | none => SECCOMP_RET_KILL_PROCESS
    | some ins =>
      match bpfStep insns data ins r with
      | .error v => v
      | .ok r' => bpfLoop insns data left r'

def bpfRun (insns : List SockFilter) (data : List UInt8) : UInt32 :=
  if insns.length > BPF_MAXINSNS then SECCOMP_RET_KILL_PROCESS else bpfLoop insns data BPF_MAX_STEPS Regs.init

open Lib.Cbpf in
/-- The classic BPF instruction that `ins` encodes, for the opcodes that `bpf_run` lists. -/
def SockFilter.decode (ins : SockFilter) : Option Insn :=
  match ins.code.toNat with
  | 0x20 => some (.ldAbs .word ins.k)
  | 0x28 => some (.ldAbs .half ins.k)
  | 0x30 => some (.ldAbs .byte ins.k)
  | 0x40 => some (.ldInd ins.k)
  | 0x00 => some (.ldImm ins.k)
  | 0x01 => some (.ldxImm ins.k)
  | 0x60 => some (.ldMem ins.k)
  | 0x61 => some (.ldxMem ins.k)
  | 0x02 => some (.st ins.k)
  | 0x03 => some (.stx ins.k)
  | 0x04 => some (.alu .add .k ins.k)
  | 0x0c => some (.alu .add .x ins.k)
  | 0x14 => some (.alu .sub .k ins.k)
  | 0x1c => some (.alu .sub .x ins.k)
  | 0x24 => some (.alu .mul .k ins.k)
  | 0x2c => some (.alu .mul .x ins.k)
  | 0x34 => some (.alu .div .k ins.k)
  | 0x3c => some (.alu .div .x ins.k)
  | 0x44 => some (.alu .or .k ins.k)
  | 0x4c => some (.alu .or .x ins.k)
  | 0x54 => some (.alu .and .k ins.k)
  | 0x5c => some (.alu .and .x ins.k)
  | 0x64 => some (.alu .lsh .k ins.k)
  | 0x6c => some (.alu .lsh .x ins.k)
  | 0x74 => some (.alu .rsh .k ins.k)
  | 0x7c => some (.alu .rsh .x ins.k)
  | 0x84 => some .neg
  | 0x94 => some (.alu .mod .k ins.k)
  | 0x9c => some (.alu .mod .x ins.k)
  | 0xa4 => some (.alu .xor .k ins.k)
  | 0xac => some (.alu .xor .x ins.k)
  | 0x07 => some .tax
  | 0x87 => some .txa
  | 0x05 => some (.ja ins.k)
  | 0x15 => some (.jmp .eq .k ins.k ins.jt ins.jf)
  | 0x1d => some (.jmp .eq .x ins.k ins.jt ins.jf)
  | 0x25 => some (.jmp .gt .k ins.k ins.jt ins.jf)
  | 0x2d => some (.jmp .gt .x ins.k ins.jt ins.jf)
  | 0x35 => some (.jmp .ge .k ins.k ins.jt ins.jf)
  | 0x3d => some (.jmp .ge .x ins.k ins.jt ins.jf)
  | 0x45 => some (.jmp .set .k ins.k ins.jt ins.jf)
  | 0x4d => some (.jmp .set .x ins.k ins.jt ins.jf)
  | 0x06 => some (.retK ins.k)
  | 0x16 => some .retA
  | _ => none

end Moxide.Seccomp
