import Mathlib

/-! Remote TLB shootdown of `smp/ipi.rs`: any number of `tlb_shootdown` calls beside each other, and `dispatch` on every
    CPU. A step is one atomic access; the steps of a call may also come between those of an interrupt on its CPU. The
    number of online CPUs does not change. -/

namespace Moxide.Ipi
open Function (update)

inductive IpiKind where
  | tlbShootdown
  | reschedule
  | funcCall
  | panicHalt
  deriving DecidableEq, Repr

/-- The bit `1 << kind` of `ipi_pending`. -/
def IpiKind.bit : IpiKind → UInt32
  | .tlbShootdown => 1
  | .reschedule => 2
  | .funcCall => 4
  | .panicHalt => 8

/-- The field `end` of the source is `stop`. -/
structure ShootdownReq where
  start : UInt64
  stop : UInt64
  asid : UInt16
  done : Bool
  deriving DecidableEq, Repr

/-- The pages that the loop invalidates from `va` on. At the last page of the address space `va += 0x1000` wraps to 0,
    and the loop never ends. -/
def flushLoop (stop va : UInt64) : Option (List UInt64) :=
  if va < stop then
    if va.toNat + 0x1000 < 2 ^ 64 then (flushLoop stop (va + 0x1000)).map (va :: ·) else none
  else some []
termination_by 2 ^ 64 - va.toNat
decreasing_by
  have hsum : (va + 0x1000).toNat = va.toNat + 0x1000 := by
    rw [UInt64.toNat_add]
    exact Nat.mod_eq_of_lt (by change va.toNat + 4096 < 2 ^ 64; omega)
  have := va.toNat_lt
  omega

def pageOf (va : UInt64) : UInt64 := va &&& ~~~0xFFF

def localTlbFlush (start stop : UInt64) : Option (List UInt64) := flushLoop stop (pageOf start)

/-- A flush that a CPU has executed, with the pages it invalidated. -/
structure Flush where
  cpu : Nat
  pages : List UInt64
  deriving DecidableEq, Repr

/-! ### Calls and interrupts in progress -/

/-- Where a `tlb_shootdown` stands: in the loop that writes the requests, at this CPU and with this `ack_mask`, in
    `broadcast_except_self` at this CPU, at the final loop, or at its end. -/
inductive Pc where
  | request (cpu : Nat) (ackMask : UInt64)
  | send (cpu : Nat)
  | wait
  | returned
  deriving DecidableEq, Repr

/-- No step reads `began`: how many flushes there were when the call began. -/
structure Call where
  me : Nat
  start : UInt64
  stop : UInt64
  asid : UInt16
  pc : Pc
  began : Nat
  deriving DecidableEq, Repr

/-- Where a CPU's `dispatch` stands, with the bits that it has taken: before it reads the request, before the flush of
    what it has read, before `done` is set, before the ack bit is cleared, or behind `handle_tlb_shootdown`. -/
inductive Handler where
  | idle
  | read (pending : UInt32)
  | flush (pending : UInt32) (start stop : UInt64)
  | done (pending : UInt32)
  | clear (pending : UInt32)
  | rest (pending : UInt32)
  | halted
  deriving DecidableEq, Repr

/-- In `suspended` are the bits of the dispatches that `schedule()` has left behind on a CPU. No step reads `flushes`. -/
structure State where
  reqs : Nat → ShootdownReq
  ack : UInt64
  pending : Nat → UInt32
  handlers : Nat → Handler
  suspended : Nat → List UInt32
  calls : List Call
  flushes : List Flush

namespace State

def boot : State :=
  ⟨fun _ => ⟨0, 0, 0, false⟩, 0, fun _ => 0, fun _ => .idle, fun _ => [], [], []⟩

def setPending (s : State) (cpu : Nat) (kind : IpiKind) : State :=
  { s with pending := update s.pending cpu (s.pending cpu ||| kind.bit) }

def setReq (s : State) (cpu : Nat) (req : ShootdownReq) : State :=
  { s with reqs := update s.reqs cpu req }

def setHandler (s : State) (cpu : Nat) (h : Handler) : State :=
  { s with handlers := update s.handlers cpu h }

def setPc (s : State) (i : Nat) (pc : Pc) : State :=
  { s with calls := s.calls.modify i fun c => { c with pc := pc } }

def flushed (s : State) (cpu : Nat) (pages : List UInt64) : State :=
  { s with flushes := s.flushes ++ [⟨cpu, pages⟩] }

def shootdown (n : Nat) (s : State) (me : Nat) (start stop : UInt64) (asid : UInt16) : State :=
  { s with calls := s.calls ++ [⟨me, start, stop, asid, if n ≤ 1 then .returned else .request 0 0, s.flushes.length⟩] }

def callStep (n : Nat) (s : State) (i : Nat) (c : Call) : Option State :=
  match c.pc with
  | .request cpu ackMask =>
    if cpu < n then
      if cpu ≠ c.me then
        some ((s.setReq cpu ⟨c.start, c.stop, c.asid, false⟩).setPc i
          (.request (cpu + 1) (ackMask ||| 1 <<< UInt64.ofNat cpu)))
      else some (s.setPc i (.request (cpu + 1) ackMask))
    else some ({ s with ack := ackMask }.setPc i (.send 0))
  | .send cpu =>
    if cpu < n then
      if cpu ≠ c.me then some ((s.setPending cpu .tlbShootdown).setPc i (.send (cpu + 1)))
      else some (s.setPc i (.send (cpu + 1)))
    else (localTlbFlush c.start c.stop).map fun pages => (s.flushed c.me pages).setPc i .wait
  | .wait => some (if s.ack ≠ 0 then s else s.setPc i .returned)
  | .returned => none

def dispatch (s : State) (cpu : Nat) : Option State :=
  match s.handlers cpu with
  | .idle =>
    let pending := s.pending cpu
    let s := { s with pending := update s.pending cpu 0 }
    some (if pending = 0 then s
      else if pending &&& IpiKind.tlbShootdown.bit ≠ 0 then s.setHandler cpu (.read pending)
      else s.setHandler cpu (.rest pending))
  | _ => none

/-- What is left of a dispatch behind `schedule()`. -/
def afterSchedule (s : State) (cpu : Nat) (pending : UInt32) : State :=
  if pending &&& IpiKind.panicHalt.bit ≠ 0 then s.setHandler cpu .halted else s.setHandler cpu .idle

/-- One step of the handler. `schedule()` leaves it for another task, which takes interrupts again. -/
def handlerStep (s : State) (cpu : Nat) : Option State :=
  match s.handlers cpu with
  | .idle => none
  | .read pending => some (s.setHandler cpu (.flush pending (s.reqs cpu).start (s.reqs cpu).stop))
  | .flush pending start stop =>
    (localTlbFlush start stop).map fun pages => (s.flushed cpu pages).setHandler cpu (.done pending)
  | .done pending => some ((s.setReq cpu { s.reqs cpu with done := true }).setHandler cpu (.clear pending))
  | .clear pending =>
    some ({ s with ack := s.ack &&& ~~~(1 <<< UInt64.ofNat cpu) }.setHandler cpu (.rest pending))
  | .rest pending =>
    if pending &&& IpiKind.reschedule.bit ≠ 0 then
      some { s.setHandler cpu .idle with
        suspended := update s.suspended cpu (pending :: s.suspended cpu) }
    else some (s.afterSchedule cpu pending)
  | .halted => none

/-- `schedule()` comes back to a dispatch it has left. -/
def resume (s : State) (cpu : Nat) (k : Nat) : Option State :=
  match s.handlers cpu, (s.suspended cpu)[k]? with
  | .idle, some pending =>
    some ({ s with suspended := update s.suspended cpu ((s.suspended cpu).eraseIdx k) }.afterSchedule cpu pending)
  | _, _ => none

end State

/-- A call begins on a CPU, a call takes a step, a CPU takes an interrupt, its handler takes a step, a suspended dispatch
    goes on, and an IPI of another kind is sent. -/
inductive Event where
  | shootdown (me : Nat) (start stop : UInt64) (asid : UInt16)
  | call (i : Nat)
  | interrupt (cpu : Nat)
  | handler (cpu : Nat)
  | resume (cpu k : Nat)
  | send (cpu : Nat) (kind : IpiKind)
  deriving DecidableEq, Repr

def State.step (n : Nat) (s : State) : Event → Option State
  | .shootdown me start stop asid => if me < n then some (s.shootdown n me start stop asid) else none
  | .call i => s.calls[i]? >>= s.callStep n i
  | .interrupt cpu => if cpu < n then s.dispatch cpu else none
  | .handler cpu => if cpu < n then s.handlerStep cpu else none
  | .resume cpu k => if cpu < n then s.resume cpu k else none
  | .send cpu kind => if cpu < n ∧ kind ≠ .tlbShootdown then some (s.setPending cpu kind) else none

end Moxide.Ipi
