import Moxide.IoUring

/-! `io_uring_enter` on any two rings, and the rings as two queues over any sequence of operations. -/

namespace Moxide.IoUring
open List

/-! ### The rings as queues -/

namespace IoUringRing

def queued (r : IoUringRing) : List IoUringSqe := (List.range r.sqCount).map fun i => r.sq.sqes (r.sqSlot i).toNat

def cqSlot (r : IoUringRing) (i : Nat) : Nat := ((r.cq.head + i.toUInt32) &&& r.mask).toNat

def completions (r : IoUringRing) : List IoUringCqe := (List.range r.cqAvailable.toNat).map fun i => r.cq.cqes (r.cqSlot i)

structure Valid (r : IoUringRing) : Prop where
  size : ∃ k ≤ 12, r.entries.toNat = 2 ^ k
  sqFits : r.sqCount ≤ r.entries.toNat
  slots : ∀ i < r.sqCount, r.sqSlot i < r.entries

/-- The `n` elements from a position on, read round an array. -/
def window {α : Type} (r : IoUringRing) (head : UInt32) (f : Nat → α) (n : Nat) : List α :=
  (List.range n).map fun i => f ((head + i.toUInt32) &&& r.mask).toNat

variable {r : IoUringRing}

section
variable (h : ∃ k, r.entries.toNat = 2 ^ k)
include h

theorem toNat_and_mask (x : UInt32) : (x &&& r.mask).toNat = x.toNat % r.entries.toNat := by
  obtain ⟨k, hsize⟩ := h
  have hpos : 1 ≤ r.entries.toNat := hsize ▸ Nat.one_le_two_pow
  have hmask : r.mask.toNat = 2 ^ k - 1 := by
    have hle : (1 : UInt32) ≤ r.entries := UInt32.le_iff_toNat_le.mpr hpos
    rw [mask, UInt32.toNat_sub_of_le _ _ hle, hsize, UInt32.toNat_one]
  rw [UInt32.toNat_and, hmask, hsize, Nat.and_two_pow_sub_one_eq_mod]

theorem slot_ne (x : UInt32) {i j : Nat} (hij : i < j) (hj : j < i + r.entries.toNat) :
    ((x + i.toUInt32) &&& r.mask).toNat ≠ ((x + j.toUInt32) &&& r.mask).toNat := by
  rw [toNat_and_mask h, toNat_and_mask h]
  obtain ⟨k, hsize⟩ := h
  have hk : k < 32 := (Nat.pow_lt_pow_iff_right Nat.one_lt_two).mp (hsize ▸ r.entries.toNat_lt)
  have hdvd : 2 ^ k ∣ 2 ^ 32 := Nat.pow_dvd_pow 2 hk.le
  have hplace : ∀ n : Nat, (x + n.toUInt32).toNat % 2 ^ k = (x.toNat + n) % 2 ^ k := by
    intro n
    rw [UInt32.toNat_add, Nat.mod_mod_of_dvd _ hdvd, Nat.toUInt32_eq, UInt32.toNat_ofNat', Nat.add_mod,
      Nat.mod_mod_of_dvd _ hdvd, ← Nat.add_mod]
  rw [hsize] at hj ⊢
  rw [hplace, hplace]
  intro heq
  have hzero := Nat.sub_mod_eq_zero_of_mod_eq heq.symm
  have hle := Nat.le_of_dvd (by omega) (Nat.dvd_of_mod_eq_zero hzero)
  omega

end

theorem tail_eq (head tail : UInt32) : tail = head + (tail - head).toNat.toUInt32 := by
  rw [Nat.toUInt32_eq, UInt32.ofNat_toNat]
  exact (add_sub_cancel _ _).symm

section
variable {head tail : UInt32} (hroom : (tail - head).toNat < r.entries.toNat)
include hroom

theorem count_succ : (tail + 1 - head).toNat = (tail - head).toNat + 1 := by
  have hassoc : tail + 1 - head = tail - head + 1 := add_sub_right_comm _ _ _
  have hlt := r.entries.toNat_lt
  rw [hassoc, UInt32.toNat_add, UInt32.toNat_one, Nat.mod_eq_of_lt (by omega)]

/-- An element stored at the tail comes behind those between the head and the tail. -/
theorem window_push {α : Type} (h : ∃ k, r.entries.toNat = 2 ^ k) (f : Nat → α) (a : α) :
    r.window head (Function.update f (tail &&& r.mask).toNat a) (tail + 1 - head).toNat =
      r.window head f (tail - head).toNat ++ [a] := by
  rw [count_succ hroom, window, range_succ, map_append, map_singleton]
  congr 1
  · refine map_congr_left fun i hi => Function.update_of_ne ?_ _ _
    have hi := mem_range.mp hi
    rw [tail_eq head tail]
    exact slot_ne h _ hi (by omega)
  · rw [← tail_eq, Function.update_self]

end

theorem window_empty {α : Type} (head : UInt32) (f : Nat → α) : r.window head f (head - head).toNat = [] := by
  rw [sub_self]
  rfl

theorem drainSq_eq (hfits : r.sqCount ≤ r.entries.toNat) (hslots : ∀ i < r.sqCount, r.sqSlot i < r.entries) :
    r.drainSq = ({ r with sq := { r.sq with head := r.sq.tail } }, r.queued) := by
  rw [IoUringRing.drainSq]
  by_cases hzero : r.sqCount = 0
  · have hsame : r.sq.tail = r.sq.head := by
      have hdiff : r.sq.tail - r.sq.head = 0 := UInt32.toNat_inj.mp hzero
      exact sub_eq_zero.mp hdiff
    rw [if_pos hzero, queued, hzero, hsame]
    exact Prod.ext rfl rfl
  rw [if_neg hzero, if_neg (Nat.not_lt.mpr hfits)]
  have hbad : ((List.range r.sqCount).countP fun i => ¬r.sqSlot i < r.entries) = 0 := by
    rw [countP_eq_zero]
    intro i hi
    rw [decide_eq_true_iff, not_not]
    exact hslots i (mem_range.mp hi)
  have hout : ((List.range r.sqCount).map fun i =>
      if r.sqSlot i < r.entries then r.sq.sqes (r.sqSlot i).toNat else { opcode := 0 }) = r.queued := by
    refine map_congr_left fun i hi => ?_
    exact if_pos (hslots i (mem_range.mp hi))
  have hadd : r.sq.dropped + (0 : Nat).toUInt32 = r.sq.dropped := add_zero _
  dsimp only
  rw [hbad, hout, hadd]

theorem queued_empty (h : r.sq.head = r.sq.tail) : r.queued = [] := by
  rw [queued, sqCount, h, sub_self]
  rfl

theorem postCqe_of_room (hroom : r.cqAvailable.toNat < r.entries.toNat) (c : IoUringCqe) :
    r.postCqe c.userData c.res c.flags = ({ r with cq := { r.cq with
      cqes := Function.update r.cq.cqes (r.cq.tail &&& r.mask).toNat c, tail := r.cq.tail + 1 } }, true) := by
  have hnot : ¬r.entries ≤ r.cq.tail - r.cq.head := fun hle => Nat.not_le.mpr hroom (UInt32.le_iff_toNat_le.mp hle)
  rw [postCqe, if_neg hnot]

theorem completions_postCqe (hsize : ∃ k, r.entries.toNat = 2 ^ k) (hroom : r.cqAvailable.toNat < r.entries.toNat)
    (c : IoUringCqe) : (r.postCqe c.userData c.res c.flags).1.completions = r.completions ++ [c] ∧
      (r.postCqe c.userData c.res c.flags).1.cqAvailable.toNat = r.cqAvailable.toNat + 1 := by
  rw [postCqe_of_room hroom]
  exact ⟨window_push hroom hsize r.cq.cqes c, count_succ hroom⟩

theorem postCqe_sq (r : IoUringRing) (userData : UInt64) (res : Int32) (flags : UInt32) :
    (r.postCqe userData res flags).1.sq = r.sq ∧ (r.postCqe userData res flags).1.entries = r.entries := by
  rw [postCqe]
  split_ifs
  · exact ⟨rfl, rfl⟩
  · exact ⟨rfl, rfl⟩

end IoUringRing

/-! ### The call -/

section
variable {σ : Type} (dispatch : IoUringSqe → σ → (Int32 × UInt32) × σ)

def answers : List IoUringSqe → σ → List IoUringCqe
  | [], _ => []
  | sqe :: sqes, world =>
    let ((res, flags), world) := dispatch sqe world
    ⟨sqe.userData, res, flags⟩ :: answers sqes world

theorem userData_answers (sqes : List IoUringSqe) (world : σ) :
    (answers dispatch sqes world).map (·.userData) = sqes.map (·.userData) := by
  induction sqes generalizing world with
  | nil => rfl
  | cons sqe sqes ih => exact congrArg (sqe.userData :: ·) (ih _)

theorem foldl_submitOne_sq (sqes : List IoUringSqe) (o : Outcome σ) :
    (sqes.foldl (submitOne dispatch) o).ring.sq = o.ring.sq := by
  induction sqes generalizing o with
  | nil => rfl
  | cons sqe sqes ih => exact (ih _).trans (o.ring.postCqe_sq ..).1

theorem foldl_submitOne (sqes : List IoUringSqe) (o : Outcome σ) (hsize : ∃ k, o.ring.entries.toNat = 2 ^ k)
    (hroom : sqes.length ≤ o.ring.entries.toNat - o.ring.cqAvailable.toNat) :
    (sqes.foldl (submitOne dispatch) o).dispatched = o.dispatched ++ sqes ∧
      (sqes.foldl (submitOne dispatch) o).ring.completions = o.ring.completions ++ answers dispatch sqes o.world := by
  induction sqes generalizing o with
  | nil => exact ⟨(append_nil _).symm, (append_nil _).symm⟩
  | cons sqe sqes ih =>
    rw [length_cons] at hroom
    have hpost :=
      o.ring.completions_postCqe hsize (by omega) ⟨sqe.userData, (dispatch sqe o.world).1.1, (dispatch sqe o.world).1.2⟩
    have hkeep := o.ring.postCqe_sq sqe.userData (dispatch sqe o.world).1.1 (dispatch sqe o.world).1.2
    have hone : submitOne dispatch o sqe =
        ⟨(o.ring.postCqe sqe.userData (dispatch sqe o.world).1.1 (dispatch sqe o.world).1.2).1, (dispatch sqe o.world).2,
          o.dispatched ++ [sqe]⟩ := rfl
    rw [foldl_cons, hone]
    obtain ⟨hdisp, hcqes⟩ := ih ⟨(o.ring.postCqe sqe.userData (dispatch sqe o.world).1.1 (dispatch sqe o.world).1.2).1,
      (dispatch sqe o.world).2, o.dispatched ++ [sqe]⟩ (by rw [hkeep.2]; exact hsize) (by rw [hkeep.2, hpost.2]; omega)
    refine ⟨?_, ?_⟩
    · rw [hdisp, append_assoc]
      rfl
    · rw [hcqes, hpost.1, append_assoc]
      rfl

/-- The submissions that a call should carry out: those asked for, as far as there is room for their completions. -/
def IoUringRing.due (r : IoUringRing) (toSubmit : UInt32) : Nat :=
  min (min toSubmit.toNat r.sqCount) (r.entries.toNat - r.cqAvailable.toNat)

/-- What a call should do: it carries out the submissions that are due in order and leaves the others queued, and the user
    reads one completion for each behind the old ones. -/
structure Enters (r : IoUringRing) (world : σ) (toSubmit : UInt32) (o : Outcome σ) : Prop where
  dispatched : o.dispatched = r.queued.take (r.due toSubmit)
  queued : o.ring.queued = r.queued.drop (r.due toSubmit)
  completions : o.ring.completions = r.completions ++ answers dispatch o.dispatched world
  userData : (answers dispatch o.dispatched world).map (·.userData) = o.dispatched.map (·.userData)

/-- A call does what it should if and only if it is asked for every queued submission and there is room for a completion of
    each: it takes all of them off the queue. -/
theorem enter_iff {r : IoUringRing} (h : r.Valid) (world : σ) (toSubmit minComplete flags : UInt32)
    (rounds : List (IoUringRing × WakeReason)) :
    Enters dispatch r world toSubmit (sysIoUringEnter dispatch r world toSubmit minComplete flags rounds).1 ↔
      r.sqCount ≤ toSubmit.toNat ∧ r.sqCount ≤ r.entries.toNat - r.cqAvailable.toNat := by
  have hlen : r.queued.length = r.sqCount := by rw [IoUringRing.queued, length_map, length_range]
  have hsubmit : submit dispatch r world toSubmit = (r.queued.take (min toSubmit.toNat r.sqCount)).foldl (submitOne dispatch)
      ⟨{ r with sq := { r.sq with head := r.sq.tail } }, world, []⟩ := by
    rw [submit, IoUringRing.drainSq_eq h.sqFits h.slots]
    dsimp only
    rw [hlen]
  have henter :
    (sysIoUringEnter dispatch r world toSubmit minComplete flags rounds).1 = submit dispatch r world toSubmit := by
    rw [sysIoUringEnter]
    split_ifs
    · rfl
    · rfl
  have hempty : (submit dispatch r world toSubmit).ring.queued = [] :=
    IoUringRing.queued_empty (by rw [hsubmit, foldl_submitOne_sq])
  rw [henter]
  constructor
  · intro henters
    have hrest := henters.queued
    rw [hempty, eq_comm, drop_eq_nil_iff, hlen, IoUringRing.due] at hrest
    omega
  · rintro ⟨hall, hroom⟩
    have hdue : r.due toSubmit = r.queued.length := by
      rw [IoUringRing.due, hlen]
      omega
    obtain ⟨hdisp, hcqes⟩ := foldl_submitOne dispatch r.queued
      ⟨{ r with sq := { r.sq with head := r.sq.tail } }, world, []⟩ (h.size.imp fun _ hk => hk.2) (by rw [hlen]; exact hroom)
    rw [Nat.min_eq_right hall, ← hlen, take_length] at hsubmit
    rw [← hsubmit, nil_append] at hdisp
    rw [← hsubmit] at hcqes
    refine ⟨?_, ?_, ?_, userData_answers dispatch _ _⟩
    · rw [hdisp, hdue, take_length]
    · rw [hempty, hdue, drop_length]
    · rw [hdisp]
      exact hcqes

end

/-- A ring of `entries` slots with the first `queued` submissions of a list queued and `done` completions unread. -/
def ringOf (entries queued done : UInt32) (sqes : List IoUringSqe) : IoUringRing :=
  ⟨entries, ⟨0, queued, 0, (·.toUInt32), fun i => sqes.getD i {}⟩, ⟨0, done, 0, fun _ => {}⟩⟩

def nop (_ : IoUringSqe) (world : Unit) : (Int32 × UInt32) × Unit := ((0, 0), world)

theorem enter_iff_two :
    Enters nop (ringOf 2 2 0 [{ userData := 7 }, { userData := 8 }]) () 2
      (sysIoUringEnter nop (ringOf 2 2 0 [{ userData := 7 }, { userData := 8 }]) () 2 0 0 []).1 := by
  have hvalid : (ringOf 2 2 0 [{ userData := 7 }, { userData := 8 }]).Valid := ⟨⟨1, by decide, rfl⟩, by decide, by decide⟩
  exact (enter_iff nop hvalid () 2 0 0 []).mpr (by decide)

/-- Asked for one of two submissions, the call takes both off the queue; and with a full completion ring it carries a
    submission out whose completion the user never sees. -/
theorem enter_loses :
    (let r := ringOf 2 2 0 [{ userData := 7 }, { userData := 8 }]
     let o := (sysIoUringEnter nop r () 1 0 0 []).1
     r.queued = [{ userData := 7 }, { userData := 8 }] ∧ o.dispatched = [{ userData := 7 }] ∧ o.ring.queued = []) ∧
    (let r := ringOf 1 1 1 [{ userData := 7 }]
     let o := (sysIoUringEnter nop r () 1 0 0 []).1
     o.dispatched = [{ userData := 7 }] ∧ o.ring.queued = [] ∧ o.ring.completions = r.completions) := by
  decide

/-! ### Whole runs of the rings -/

inductive Op
  | pushSqe (sqe : IoUringSqe)
  | drainSq
  | postCqe (c : IoUringCqe)
  | consume (n : Nat)
  | cqAvailable

inductive Answer
  | done (ok : Bool)
  | sqes (l : List IoUringSqe)
  | cqes (l : List IoUringCqe)
  | count (n : Nat)

/-- The user reads `n` completions, or all there are, and moves the head past them. -/
def IoUringRing.consume (r : IoUringRing) (n : Nat) : IoUringRing × List IoUringCqe :=
  let n := min n r.cqAvailable.toNat
  ({ r with cq := { r.cq with head := r.cq.head + n.toUInt32 } }, r.window r.cq.head r.cq.cqes n)

def IoUringRing.step (r : IoUringRing) : Op → IoUringRing × Answer
  | .pushSqe sqe => (r.pushSqe sqe).map id .done
  | .drainSq => r.drainSq.map id .sqes
  | .postCqe c => (r.postCqe c.userData c.res c.flags).map id .done
  | .consume n => (r.consume n).map id .cqes
  | .cqAvailable => (r, .count r.cqAvailable.toNat)

structure Queues where
  sq : List IoUringSqe
  cq : List IoUringCqe

def Queues.step (entries : Nat) (q : Queues) : Op → Queues × Answer
  | .pushSqe sqe => if q.sq.length < entries then ({ q with sq := q.sq ++ [sqe] }, .done true) else (q, .done false)
  | .drainSq => ({ q with sq := [] }, .sqes q.sq)
  | .postCqe c => if q.cq.length < entries then ({ q with cq := q.cq ++ [c] }, .done true) else (q, .done false)
  | .consume n => ({ q with cq := q.cq.drop n }, .cqes (q.cq.take n))
  | .cqAvailable => (q, .count q.cq.length)

def answersOf {σ : Type} (step : σ → Op → σ × Answer) : σ → List Op → List Answer
  | _, [] => []
  | s, op :: ops => (step s op).2 :: answersOf step (step s op).1 ops

/-- A ring holds two queues; each queued submission is in the slot of its own position. -/
structure Represents (e : UInt32) (r : IoUringRing) (q : Queues) : Prop where
  entries : r.entries = e
  size : ∃ k, r.entries.toNat = 2 ^ k
  sq : r.window r.sq.head r.sq.sqes r.sqCount = q.sq
  slots : r.window r.sq.head r.sq.array r.sqCount = r.window r.sq.head Nat.toUInt32 r.sqCount
  cq : r.completions = q.cq
  sqFits : r.sqCount ≤ r.entries.toNat
  cqFits : r.cqAvailable.toNat ≤ r.entries.toNat

def Agrees (e : UInt32) (x : IoUringRing × Answer) (y : Queues × Answer) : Prop := x.2 = y.2 ∧ Represents e x.1 y.1

open IoUringRing

namespace Represents
variable {e : UInt32} {r : IoUringRing} {q : Queues} (h : Represents e r q)
include h

theorem length_sq : q.sq.length = r.sqCount := by
  rw [← h.sq, window, length_map, length_range]

theorem length_cq : q.cq.length = r.cqAvailable.toNat := by
  rw [← h.cq, completions, length_map, length_range]

theorem slot_eq {i : Nat} (hi : i < r.sqCount) : r.sqSlot i = (r.sq.head + i.toUInt32) &&& r.mask := by
  have hslot := map_inj_left.mp h.slots i (mem_range.mpr hi)
  exact hslot.trans UInt32.ofNat_toNat

theorem pushSqe (sqe : IoUringSqe) : Agrees e (r.step (.pushSqe sqe)) (q.step e.toNat (.pushSqe sqe)) := by
  obtain rfl := h.entries
  rw [IoUringRing.step, Queues.step, h.length_sq, IoUringRing.pushSqe]
  by_cases hroom : r.sqCount < r.entries.toNat
  · have hnot : ¬r.entries ≤ r.sq.tail - r.sq.head := fun hle => Nat.not_le.mpr hroom (UInt32.le_iff_toNat_le.mp hle)
    rw [if_neg hnot, if_pos hroom]
    refine ⟨rfl, rfl, h.size, ?_, ?_, h.cq, (count_succ hroom).trans_le hroom, h.cqFits⟩
    · rw [← h.sq]
      exact window_push hroom h.size r.sq.sqes sqe
    · have hid := window_push hroom h.size Nat.toUInt32 (r.sq.tail &&& r.mask).toNat.toUInt32
      rw [Function.update_eq_self] at hid
      refine (window_push hroom h.size r.sq.array _).trans (.trans ?_ hid.symm)
      exact congrArg (· ++ _) h.slots
  · rw [if_pos (UInt32.le_iff_toNat_le.mpr (Nat.not_lt.mp hroom)), if_neg hroom]
    exact ⟨rfl, rfl, h.size, h.sq, h.slots, h.cq, h.sqFits, h.cqFits⟩

theorem drainSq : Agrees e (r.step .drainSq) (q.step e.toNat .drainSq) := by
  have hslots : ∀ i < r.sqCount, r.sqSlot i < r.entries := by
    intro i hi
    rw [h.slot_eq hi, UInt32.lt_iff_toNat_lt, toNat_and_mask h.size]
    exact Nat.mod_lt _ (by have := h.sqFits; omega)
  have hqueued : r.queued = q.sq := by
    rw [← h.sq]
    exact map_congr_left fun i hi => by rw [h.slot_eq (mem_range.mp hi)]
  rw [IoUringRing.step, Queues.step, drainSq_eq h.sqFits hslots, hqueued]
  refine ⟨rfl, h.entries, h.size, window_empty _ _, ?_, h.cq, ?_, h.cqFits⟩
  · exact (window_empty _ _).trans (window_empty _ _).symm
  · exact (congrArg UInt32.toNat (sub_self r.sq.tail)).trans_le (Nat.zero_le _)

theorem postCqe (c : IoUringCqe) : Agrees e (r.step (.postCqe c)) (q.step e.toNat (.postCqe c)) := by
  obtain rfl := h.entries
  rw [IoUringRing.step, Queues.step, h.length_cq]
  by_cases hroom : r.cqAvailable.toNat < r.entries.toNat
  · rw [postCqe_of_room hroom, if_pos hroom]
    refine ⟨rfl, rfl, h.size, h.sq, h.slots, ?_, h.sqFits, (count_succ hroom).trans_le hroom⟩
    rw [← h.cq]
    exact window_push hroom h.size r.cq.cqes c
  · have hle : r.entries ≤ r.cq.tail - r.cq.head := UInt32.le_iff_toNat_le.mpr (Nat.not_lt.mp hroom)
    rw [IoUringRing.postCqe, if_pos hle, if_neg hroom]
    exact ⟨rfl, rfl, h.size, h.sq, h.slots, h.cq, h.sqFits, h.cqFits⟩

theorem consume (n : Nat) : Agrees e (r.step (.consume n)) (q.step e.toNat (.consume n)) := by
  obtain ⟨m, hm⟩ : ∃ m, m = min n r.cqAvailable.toNat := ⟨_, rfl⟩
  have hlt : m < 2 ^ 32 := (hm.trans_le (min_le_right _ _)).trans_lt r.cqAvailable.toNat_lt
  have htoNat : m.toUInt32.toNat = m := UInt32.toNat_ofNat_of_lt' hlt
  have hle : m.toUInt32 ≤ r.cqAvailable := UInt32.le_iff_toNat_le.mpr (by omega)
  have hleft : (r.cq.tail - (r.cq.head + m.toUInt32)).toNat = r.cqAvailable.toNat - n := by
    rw [← sub_sub, ← cqAvailable, UInt32.toNat_sub_of_le _ _ hle, htoNat]
    omega
  rw [IoUringRing.step, IoUringRing.consume, ← hm]
  refine ⟨congrArg Answer.cqes ?_, h.entries, h.size, h.sq, h.slots, ?_, h.sqFits,
    hleft.trans_le ((Nat.sub_le _ _).trans h.cqFits)⟩
  · rw [← h.cq, completions, ← map_take, take_range, ← hm]
    rfl
  · change r.window (r.cq.head + m.toUInt32) r.cq.cqes (r.cq.tail - (r.cq.head + m.toUInt32)).toNat = q.cq.drop n
    rw [hleft, ← h.cq, completions, ← map_drop, range_eq_range', drop_range', range'_eq_map_range, map_map]
    refine map_congr_left fun i hi => ?_
    have hi := mem_range.mp hi
    obtain rfl : m = n := by omega
    rw [Function.comp_apply, cqSlot, zero_add, mul_one, Nat.toUInt32_eq, Nat.toUInt32_eq, Nat.toUInt32_eq,
      UInt32.ofNat_add, add_assoc]

theorem step (op : Op) : Agrees e (r.step op) (q.step e.toNat op) := by
  cases op with
  | pushSqe sqe => exact h.pushSqe sqe
  | drainSq => exact h.drainSq
  | postCqe c => exact h.postCqe c
  | consume n => exact h.consume n
  | cqAvailable => exact ⟨congrArg Answer.count h.length_cq.symm, h⟩

theorem answersOf (ops : List Op) : answersOf IoUringRing.step r ops = answersOf (Queues.step e.toNat) q ops := by
  induction ops generalizing r q with
  | nil => rfl
  | cons op ops ih =>
    obtain ⟨hanswer, hnext⟩ := h.step op
    rw [IoUring.answersOf, IoUring.answersOf, hanswer, ih hnext]

end Represents

/-- From an empty start, whatever its position, the rings answer every run of calls as two queues of `entries` elements
    do. -/
theorem rings_are_queues {r : IoUringRing} (hsize : ∃ k, r.entries.toNat = 2 ^ k) (hsq : r.sq.head = r.sq.tail)
    (hcq : r.cq.head = r.cq.tail) (ops : List Op) :
    answersOf IoUringRing.step r ops = answersOf (Queues.step r.entries.toNat) ⟨[], []⟩ ops := by
  refine Represents.answersOf ⟨rfl, hsize, ?_, ?_, ?_, ?_, ?_⟩ ops
  · rw [sqCount, hsq, window_empty]
  · rw [sqCount, hsq, window_empty, window_empty]
  · change r.window r.cq.head r.cq.cqes (r.cq.tail - r.cq.head).toNat = []
    rw [hcq, window_empty]
  · rw [sqCount, hsq, sub_self]
    exact Nat.zero_le _
  · rw [cqAvailable, hcq, sub_self]
    exact Nat.zero_le _

theorem rings_are_queues_wrap :
    answersOf IoUringRing.step ⟨1, ⟨4294967295, 4294967295, 0, fun _ => 9, fun _ => {}⟩, ⟨7, 7, 0, fun _ => {}⟩⟩
    [.pushSqe { userData := 5 }, .pushSqe {}, .drainSq] = [.done true, .done false, .sqes [{ userData := 5 }]] :=
  rings_are_queues ⟨0, rfl⟩ rfl rfl _

end Moxide.IoUring
