import Moxide.Lib.Bytes
import Moxide.Scheduler
import Moxide.User

/-! Signals (`proc/signal.rs`): the two queues of pending signals, the masks, the delivery at the return from a system call,
    and `rt_sigreturn`. `current_pid` is an argument. Of `do_exit` only the call is recorded. -/

namespace Moxide.Signal
open Lib.LittleEndian
open Scheduler (ProcState)
open User (Mem USER_SPACE_END copyFromUser copyToUser)
open Function (update)

structure SigInfo where
  sig : UInt32
  code : Int32
  pid : UInt32
  uid : UInt32
  status : Int32
  addr : UInt64
  value : Int64
  deriving DecidableEq

def SIG_IGN_DEFAULT : UInt64 := ((1 : UInt64) <<< 17) ||| ((1 : UInt64) <<< 23) ||| ((1 : UInt64) <<< 28)
def SIG_STOP_DEFAULT : UInt64 :=
  ((1 : UInt64) <<< 19) ||| ((1 : UInt64) <<< 20) ||| ((1 : UInt64) <<< 21) ||| ((1 : UInt64) <<< 22)
def SS_DISABLE : UInt32 := 2

/-- An action that has not been set has handler 0, and the handler 1 stands for `SIG_IGN`. -/
structure SigAction where
  handler : UInt64 := 0
  flags : UInt32 := 0
  restorer : UInt64 := 0
  mask : UInt64 := 0
  deriving DecidableEq

structure Proc where
  tgid : Nat
  state : ProcState
  deriving DecidableEq

/-- A queue that does not exist is empty, a mask that does not exist is 0. `exits` records the calls of `do_exit`; no
    function reads it. -/
structure State where
  pending : Nat → List SigInfo
  groupPending : Nat → List SigInfo
  sigmask : Nat → UInt64
  sigactions : Nat → UInt32 → SigAction
  procs : Nat → Option Proc
  mem : Mem
  exits : List (Nat × Int32)

/-! ### Frames -/

structure SyscallFrame where
  r15 : UInt64
  r14 : UInt64
  r13 : UInt64
  r12 : UInt64
  rbp : UInt64
  rbx : UInt64
  rax : UInt64
  rdi : UInt64
  rsi : UInt64
  rdx : UInt64
  r10 : UInt64
  r8 : UInt64
  r9 : UInt64
  rip : UInt64
  rflags : UInt64
  rsp : UInt64
  deriving DecidableEq

structure ExceptionFrame where
  x : List UInt64
  spEl0 : UInt64
  elrEl1 : UInt64
  spsrEl1 : UInt64
  deriving DecidableEq

/-- The size of `SigFrameX86`; there are four bytes of padding after `uc_stack_ss_flags` and after `si_code`. -/
def SIGFRAME_X86_SIZE : Nat := 240
def SIGFRAME_AARCH64_SIZE : Nat := 312
def SIGFRAME_AARCH64_MAGIC : UInt64 := 0xDEADBEEFCAFE0000

def word (v : UInt64) : List UInt8 := toBytes 8 v.toNat

def field (bytes : List UInt8) (off : Nat) : UInt64 := UInt64.ofNat (ofBytes ((bytes.drop off).take 8))

def sigFrameX86 (frame : SyscallFrame) (sa : SigAction) (info : SigInfo) (sigMask : UInt64) : List UInt8 :=
  -- pretcode, and the ucontext up to the registers
  word sa.restorer ++ word 0 ++ word 0 ++ word 0 ++ toBytes 8 SS_DISABLE.toNat ++ word 0 ++
  -- r8 to r15
  word 0 ++ word 0 ++ word 0 ++ word frame.rflags ++ word frame.r12 ++ word frame.r13 ++ word frame.r14 ++ word frame.r15 ++
  -- rdi, rsi, rbp, rbx, rdx, rax, rcx, rsp, rip, eflags
  word frame.rdi ++ word frame.rsi ++ word frame.rbp ++ word frame.rbx ++ word frame.rdx ++ word frame.rax ++
  word frame.rip ++ word frame.rsp ++ word frame.rip ++ word frame.rflags ++
  -- cs and ss with their padding, siginfo, the mask
  toBytes 8 0x1b ++ toBytes 8 0x23 ++ toBytes 4 info.sig.toNat ++ toBytes 4 0 ++
  toBytes 8 info.code.toUInt32.toNat ++ word info.addr ++ word sigMask

def sigFrameAarch64 (frame : ExceptionFrame) (sa : SigAction) (info : SigInfo) (sigMask : UInt64) : List UInt8 :=
  word SIGFRAME_AARCH64_MAGIC ++ frame.x.flatMap word ++ word frame.spEl0 ++ word frame.elrEl1 ++ word frame.spsrEl1 ++
  toBytes 4 info.sig.toNat ++ toBytes 4 info.code.toUInt32.toNat ++ word info.addr ++ word sigMask ++ word sa.restorer

namespace State

def pushSigframeX86 (s : State) (tid : Nat) (frame : SyscallFrame) (sa : SigAction) (info : SigInfo) :
    Option (SyscallFrame × Mem) :=
  let userRsp := (frame.rsp - UInt64.ofNat SIGFRAME_X86_SIZE) &&& ~~~15
  if userRsp.toNat < 0x1000 ∨ USER_SPACE_END ≤ userRsp.toNat then none
  else (copyToUser s.mem userRsp.toNat (sigFrameX86 frame sa info (s.sigmask tid))).map fun mem =>
    ({ frame with rsp := userRsp, rip := sa.handler, rdi := info.sig.toUInt64, rsi := userRsp + 16, rdx := userRsp }, mem)

def pushSigframeAarch64 (s : State) (tid : Nat) (frame : ExceptionFrame) (sa : SigAction) (info : SigInfo) :
    Option (ExceptionFrame × Mem) :=
  let sp := (frame.spEl0 - UInt64.ofNat SIGFRAME_AARCH64_SIZE) &&& ~~~15
  if sp.toNat < 0x1000 ∨ USER_SPACE_END ≤ sp.toNat then none
  else (copyToUser s.mem sp.toNat (sigFrameAarch64 frame sa info (s.sigmask tid))).map fun mem =>
    (⟨(((frame.x.set 0 info.sig.toUInt64).set 1 (sp + 8)).set 2 sp).set 30 sa.restorer, sp, sa.handler,
      frame.spsrEl1 &&& ~~~0xf⟩, mem)

/-! ### Delivery -/

def popPending (s : State) (tid : Nat) : Option (SigInfo × State) :=
  match s.pending tid with
  | [] => none
  | info :: rest => some (info, { s with pending := update s.pending tid rest })

def popGroupPending (s : State) (tgid : Nat) : Option (SigInfo × State) :=
  match s.groupPending tgid with
  | [] => none
  | info :: rest => some (info, { s with groupPending := update s.groupPending tgid rest })

def putBackPending (s : State) (tid : Nat) (info : SigInfo) : State :=
  { s with pending := update s.pending tid (info :: s.pending tid) }

def isMasked (s : State) (tid : Nat) (sig : UInt32) : Bool :=
  if sig = 0 ∨ 64 < sig then true else (s.sigmask tid >>> (sig - 1).toUInt64) &&& 1 ≠ 0

def setState (s : State) (pid : Nat) (state : ProcState) : State :=
  { s with procs := update s.procs pid ((s.procs pid).map fun p => { p with state := state }) }

def applyDefault (s : State) (pid : Nat) (info : SigInfo) : State :=
  let bit : UInt64 := 1 <<< (if info.sig = 0 then 0 else info.sig - 1).toUInt64
  if SIG_IGN_DEFAULT &&& bit ≠ 0 then s
  else if SIG_STOP_DEFAULT &&& bit ≠ 0 then s.setState pid .stopped
  else { s with exits := s.exits ++ [(pid, info.sig.toInt32 <<< 8)] }

def tgidOf (s : State) (tid : Nat) : Nat := ((s.procs tid).map (·.tgid)).getD tid

/-- The two functions that deliver differ in the frame and in how a signal frame is pushed. -/
def deliver {F : Type} (push : State → Nat → F → SigAction → SigInfo → Option (F × Mem)) (s : State)
    (tid : Nat) (frame : F) : State × F :=
  match (s.popPending tid).or (s.popGroupPending (s.tgidOf tid)) with
  | none => (s, frame)
  | some (info, s) =>
    if s.isMasked tid info.sig then (s.putBackPending tid info, frame)
    else
      let sa := s.sigactions (s.tgidOf tid) info.sig
      if sa.handler = 0 then (s.applyDefault tid info, frame)
      else if sa.handler = 1 then (s, frame)
      else match push s tid frame sa info with
        | none => (s.applyDefault tid info, frame)
        | some (frame, mem) => ({ s with mem := mem }, frame)

def checkAndDeliver (s : State) (tid : Nat) (frame : SyscallFrame) : State × SyscallFrame :=
  s.deliver pushSigframeX86 tid frame

def checkAndDeliverAarch64 (s : State) (tid : Nat) (frame : ExceptionFrame) : State × ExceptionFrame :=
  s.deliver pushSigframeAarch64 tid frame

def setMask (s : State) (tid : Nat) (mask : UInt64) : State := { s with sigmask := update s.sigmask tid mask }

def sysRtSigreturn (s : State) (tid : Nat) (frame : SyscallFrame) : State × SyscallFrame :=
  match copyFromUser s.mem frame.rsp.toNat SIGFRAME_X86_SIZE with
  | none => (s, frame)
  | some sf =>
    (s.setMask tid (field sf 232),
      { frame with
        rip := field sf 176, rflags := field sf 184, rsp := field sf 168, rax := field sf 152, rbx := field sf 136,
        rbp := field sf 128, rdi := field sf 112, rsi := field sf 120, rdx := field sf 144, r12 := field sf 80,
        r13 := field sf 88, r14 := field sf 96, r15 := field sf 104 })

def sysRtSigreturnAarch64 (s : State) (tid : Nat) (frame : ExceptionFrame) : State × ExceptionFrame :=
  match copyFromUser s.mem frame.spEl0.toNat SIGFRAME_AARCH64_SIZE with
  | none => (s, frame)
  | some sf =>
    if field sf 0 ≠ SIGFRAME_AARCH64_MAGIC then (s, frame)
    else
      (s.setMask tid (field sf 296),
        ⟨(List.range 31).map fun i => field sf (8 + 8 * i), field sf 256, field sf 264, field sf 272⟩)

def UNMASKABLE : UInt64 := ((1 : UInt64) <<< 8) ||| ((1 : UInt64) <<< 18)

def SIG_BLOCK : UInt32 := 0
def SIG_UNBLOCK : UInt32 := 1
def SIG_SETMASK : UInt32 := 2

/-- The result and the value stored through `oldset`. -/
def sysRtSigprocmask (s : State) (how : UInt32) (set : Option UInt64) (pid : Nat) : State × Int × UInt64 :=
  let old := s.sigmask pid
  match set with
  | none => (s, 0, old)
  | some v =>
    if how = SIG_BLOCK then (s.setMask pid ((old ||| v) &&& ~~~UNMASKABLE), 0, old)
    else if how = SIG_UNBLOCK then (s.setMask pid ((old &&& ~~~v) &&& ~~~UNMASKABLE), 0, old)
    else if how = SIG_SETMASK then (s.setMask pid (v &&& ~~~UNMASKABLE), 0, old)
    else (s, -22, old)

end State

end Moxide.Signal
