import Mathlib

/-! `io_uring_enter` (`io_uring/syscall.rs`, `io_uring/ring.rs`). The arrays of the two shared pages are functions of the
    slot. What an operation does to the rest of the kernel is a state of any type. -/

namespace Moxide.IoUring

/-- `ops` is asked for this flag but does not define it; the value is the one of the system call's interface. -/
def IORING_ENTER_GETEVENTS : UInt32 := 1

structure IoUringSqe where
  opcode : UInt8 := 0
  flags : UInt8 := 0
  ioprio : UInt16 := 0
  fd : Int32 := 0
  offOrAddr2 : UInt64 := 0
  addrOrSpliceFdIn : UInt64 := 0
  len : UInt32 := 0
  opFlags : UInt32 := 0
  userData : UInt64 := 0
  bufIndex : UInt16 := 0
  personality : UInt16 := 0
  spliceFdIn : Int32 := 0
  pad : UInt64 × UInt64 := (0, 0)
  deriving DecidableEq

structure IoUringCqe where
  userData : UInt64 := 0
  res : Int32 := 0
  flags : UInt32 := 0
  deriving DecidableEq

structure SqRing where
  head : UInt32
  tail : UInt32
  dropped : UInt32
  array : Nat → UInt32
  sqes : Nat → IoUringSqe

structure CqRing where
  head : UInt32
  tail : UInt32
  overflow : UInt32
  cqes : Nat → IoUringCqe

structure IoUringRing where
  entries : UInt32
  sq : SqRing
  cq : CqRing

namespace IoUringRing

def mask (r : IoUringRing) : UInt32 := r.entries - 1

def cqAvailable (r : IoUringRing) : UInt32 := r.cq.tail - r.cq.head

def sqCount (r : IoUringRing) : Nat := (r.sq.tail - r.sq.head).toNat

/-- The slot that the `i`-th queued entry names. -/
def sqSlot (r : IoUringRing) (i : Nat) : UInt32 := r.sq.array ((r.sq.head + i.toUInt32) &&& r.mask).toNat

def drainSq (r : IoUringRing) : IoUringRing × List IoUringSqe :=
  let count := r.sqCount
  if count = 0 then (r, [])
  else if r.entries.toNat < count then
    ({ r with sq := { r.sq with dropped := r.sq.dropped + 1, head := r.sq.tail } }, [])
  else
    let out := (List.range count).map fun i =>
      if r.sqSlot i < r.entries then r.sq.sqes (r.sqSlot i).toNat else { opcode := 0 }
    let bad := (List.range count).countP fun i => ¬r.sqSlot i < r.entries
    ({ r with sq := { r.sq with dropped := r.sq.dropped + bad.toUInt32, head := r.sq.tail } }, out)

def pushSqe (r : IoUringRing) (sqe : IoUringSqe) : IoUringRing × Bool :=
  if r.entries ≤ r.sq.tail - r.sq.head then ({ r with sq := { r.sq with dropped := r.sq.dropped + 1 } }, false)
  else
    let slot := (r.sq.tail &&& r.mask).toNat
    let sqes := Function.update r.sq.sqes slot sqe
    let array := Function.update r.sq.array slot slot.toUInt32
    ({ r with sq := { r.sq with sqes := sqes, array := array, tail := r.sq.tail + 1 } }, true)

def postCqe (r : IoUringRing) (userData : UInt64) (res : Int32) (flags : UInt32) : IoUringRing × Bool :=
  if r.entries ≤ r.cq.tail - r.cq.head then ({ r with cq := { r.cq with overflow := r.cq.overflow + 1 } }, false)
  else
    let slot := (r.cq.tail &&& r.mask).toNat
    ({ r with cq := { r.cq with
        cqes := Function.update r.cq.cqes slot ⟨userData, res, flags⟩
        tail := r.cq.tail + 1 } }, true)

end IoUringRing

inductive WakeReason
  | cancelled
  | timeout
  | ready

/-- The wait for completions: the ring as each round finds it and how the sleep ends; `none` while it still sleeps. -/
def waitForCqes (minComplete : UInt32) (submitted : Int) : List (IoUringRing × WakeReason) → Option Int
  | [] => none
  | (r, reason) :: rounds =>
    if minComplete ≤ r.cqAvailable then some submitted
    else
      match reason with
      | .cancelled => some (-4)
      | .timeout => some submitted
      | .ready => waitForCqes minComplete submitted rounds

/-- What a call leaves behind: the ring, the rest of the kernel, and the submissions it has carried out. -/
structure Outcome (σ : Type) where
  ring : IoUringRing
  world : σ
  dispatched : List IoUringSqe

variable {σ : Type} (dispatch : IoUringSqe → σ → (Int32 × UInt32) × σ)

def submitOne (o : Outcome σ) (sqe : IoUringSqe) : Outcome σ :=
  let ((res, cqeFlags), world) := dispatch sqe o.world
  ⟨(o.ring.postCqe sqe.userData res cqeFlags).1, world, o.dispatched ++ [sqe]⟩

def submit (r : IoUringRing) (world : σ) (toSubmit : UInt32) : Outcome σ :=
  let (r, sqes) := r.drainSq
  let submitCount := min toSubmit.toNat sqes.length
  (sqes.take submitCount).foldl (submitOne dispatch) ⟨r, world, []⟩

/-- `sys_io_uring_enter` on a ring that exists; `rounds` is what the second phase meets. -/
def sysIoUringEnter (r : IoUringRing) (world : σ) (toSubmit minComplete flags : UInt32)
    (rounds : List (IoUringRing × WakeReason)) : Outcome σ × Option Int :=
  let o := submit dispatch r world toSubmit
  let submitted : Int := o.dispatched.length
  if flags &&& IORING_ENTER_GETEVENTS ≠ 0 ∧ 0 < minComplete then (o, waitForCqes minComplete submitted rounds)
  else (o, some submitted)

end Moxide.IoUring
