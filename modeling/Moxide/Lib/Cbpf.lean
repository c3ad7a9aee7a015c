import Mathlib

/-! The classic BPF machine. A program is run on the suffix still ahead of it, so every run ends. An aborted run is
    `none`. -/

namespace Moxide.Lib.Cbpf

inductive Width where
  | word | half | byte
  deriving DecidableEq, Repr

def Width.bytes : Width → Nat
  | .word => 4
  | .half => 2
  | .byte => 1

/-- The second operand of an instruction: its constant or the index register. -/
inductive Src where
  | k | x
  deriving DecidableEq, Repr

inductive AluOp where
  | add | sub | mul | div | or | and | lsh | rsh | mod | xor
  deriving DecidableEq, Repr

inductive Test where
  | eq | gt | ge | set
  deriving DecidableEq, Repr

inductive Insn where
  | ldAbs (w : Width) (k : UInt32)
  | ldInd (k : UInt32)
  | ldImm (k : UInt32)
  | ldxImm (k : UInt32)
  | ldMem (k : UInt32)
  | ldxMem (k : UInt32)
  | st (k : UInt32)
  | stx (k : UInt32)
  | alu (op : AluOp) (src : Src) (k : UInt32)
  | neg
  | tax
  | txa
  | ja (k : UInt32)
  | jmp (t : Test) (src : Src) (k : UInt32) (jt jf : UInt8)
  | retK (k : UInt32)
  | retA
  deriving DecidableEq, Repr

/-- An instruction that reads the buffer or the scratch memory, or writes the scratch memory. -/
def Insn.access : Insn → Bool
  | .ldAbs .. | .ldInd _ | .ldMem _ | .ldxMem _ | .st _ | .stx _ => true
  | _ => false

structure Machine where
  a : UInt32
  x : UInt32
  m : Vector UInt32 16
  deriving DecidableEq, Repr

def Machine.init : Machine := ⟨0, 0, Vector.replicate 16 0⟩

def Machine.operand (s : Machine) (src : Src) (k : UInt32) : UInt32 :=
  match src with
  | .k => k
  | .x => s.x

/-- The little-endian number in the `w.bytes` bytes from `off` on, if the buffer has them. -/
def loadLE (w : Width) (data : List UInt8) (off : Nat) : Option UInt32 :=
  let s := (data.drop off).take w.bytes
  if s.length = w.bytes then some (s.foldr (fun b acc => (acc <<< 8) ||| b.toUInt32) 0) else none

/-- The value of an arithmetic instruction; a division by zero has none. Shift counts are taken
    modulo 32. -/
def AluOp.eval (op : AluOp) (a v : UInt32) : Option UInt32 :=
  match op with
  | .add => some (a + v)
  | .sub => some (a - v)
  | .mul => some (a * v)
  | .div => if v = 0 then none else some (a / v)
  | .mod => if v = 0 then none else some (a % v)
  | .or => some (a ||| v)
  | .and => some (a &&& v)
  | .xor => some (a ^^^ v)
  | .lsh => some (a <<< (v &&& 31))
  | .rsh => some (a >>> (v &&& 31))

def Test.holds (t : Test) (a v : UInt32) : Bool :=
  match t with
  | .eq => a == v
  | .gt => decide (v < a)
  | .ge => decide (v ≤ a)
  | .set => (a &&& v) != 0

/-- What one instruction does: go on after skipping `skip` instructions, end with a value, or abort. -/
inductive Outcome where
  | next (s : Machine) (skip : Nat)
  | ret (v : UInt32)
  | abort

def Machine.store (s : Machine) (k v : UInt32) : Outcome :=
  if h : k.toNat < 16 then .next { s with m := s.m.set k.toNat v } 0 else .abort

def Outcome.ofOption (v? : Option UInt32) (f : UInt32 → Machine) : Outcome :=
  match v? with
  | some v => .next (f v) 0
  | none => .abort

def exec (data : List UInt8) (i : Insn) (s : Machine) : Outcome :=
  match i with
  | .ldAbs w k => .ofOption (loadLE w data k.toNat) fun v => { s with a := v }
  | .ldInd k => .ofOption (loadLE .word data (s.x + k).toNat) fun v => { s with a := v }
  | .ldImm k => .next { s with a := k } 0
  | .ldxImm k => .next { s with x := k } 0
  | .ldMem k => .ofOption s.m[k.toNat]? fun v => { s with a := v }
  | .ldxMem k => .ofOption s.m[k.toNat]? fun v => { s with x := v }
  | .st k => s.store k s.a
  | .stx k => s.store k s.x
  | .alu op src k => .ofOption (op.eval s.a (s.operand src k)) fun v => { s with a := v }
  | .neg => .next { s with a := 0 - s.a } 0
  | .tax => .next { s with x := s.a } 0
  | .txa => .next { s with a := s.x } 0
  | .ja k => .next s k.toNat
  | .jmp t src k jt jf => .next s (if t.holds s.a (s.operand src k) then jt.toNat else jf.toNat)
  | .retK k => .ret k
  | .retA => .ret s.a

/-- Run the program `prog` after skipping its first `skip` instructions. -/
def run (data : List UInt8) : List Insn → Nat → Machine → Option UInt32
  | [], _, _ => none
  | _ :: rest, skip + 1, s => run data rest skip s
  | i :: rest, 0, s =>
    match exec data i s with
    | .next s' skip => run data rest skip s'
    | .ret v => some v
    | .abort => none

def executed (data : List UInt8) : List Insn → Nat → Machine → List Insn
  | [], _, _ => []
  | _ :: rest, skip + 1, s => executed data rest skip s
  | i :: rest, 0, s =>
    i :: match exec data i s with
      | .next s' skip => executed data rest skip s'
      | _ => []

section
variable {data : List UInt8}

variable (prog : List Insn) (n : Nat) (s : Machine)

theorem run_skip : run data prog n s = run data (prog.drop n) 0 s := by
  induction prog generalizing n with
  | nil => simp [run]
  | cons i rest ih =>
    cases n with
    | zero => rfl
    | succ n => exact ih n

theorem executed_skip : executed data prog n s = executed data (prog.drop n) 0 s := by
  induction prog generalizing n with
  | nil => simp [executed]
  | cons i rest ih =>
    cases n with
    | zero => rfl
    | succ n => exact ih n

end

end Moxide.Lib.Cbpf
