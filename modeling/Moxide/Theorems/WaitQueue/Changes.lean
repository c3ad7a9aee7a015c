import Moxide.Lib.Reach
import Moxide.WaitQueue

/-! Wait queues: the invariant that no wakeup is lost, and what a step can change. -/

namespace Moxide.Sync
open Lib Sys List Option

theorem or_and (a b c : ReadyMask) : (a ||| b) &&& c = (a &&& c) ||| (b &&& c) := by
  rw [← UInt32.toBitVec_inj]
  exact BitVec.and_or_distrib_right

theorem fullInterest_and {c : WaitCall} {bits : ReadyMask} (h : c.interest &&& bits ≠ 0) : c.fullInterest &&& bits ≠ 0 := by
  intro h0
  unfold WaitCall.fullInterest at h0
  rw [or_and, or_and, UInt32.or_eq_zero_iff, UInt32.or_eq_zero_iff] at h0
  exact h h0.1.1

/-! ### The invariant -/

/-- The task has registered with its queue, or is about to under the lock, and is not woken yet. -/
def Proc.Listens (p : Proc) (c : WaitCall) : Prop :=
  p.wait = some (c, .push) ∨ p.wait = some (c, .cancelRecheck) ∨ p.wait = some (c, .block) ∨
    p.wait = some (c, .blocked) ∧ p.blocked = true

def Proc.Locks (p : Proc) (q : Nat) : Prop :=
  ∃ c : WaitCall, c.queue = q ∧ (p.wait = some (c, .recheck) ∨ p.wait = some (c, .push))

def WakeCall.Locks (k : WakeCall) (q : Nat) : Prop :=
  match k.point with
  | .scan _ => k.queue = q
  | .scanTarget target _ _ => target = q
  | _ => False

def WakeCall.Ahead (k : WakeCall) (q : Nat) (x : Waiter) : Prop :=
  match k.point with
  | .lock => k.queue = q
  | .scan rest => k.queue = q ∧ x ∈ rest
  | .lockTarget target _ => target = q
  | .scanTarget target ws _ => target = q ∧ x ∈ ws
  | _ => False

def Awaited (s : Sys) (t : Nat) (c : WaitCall) : Prop :=
  ∃ w k, s.wakes w = some k ∧ c.interest &&& k.bits ≠ 0 ∧ k.Ahead c.queue ⟨t, c.fullInterest⟩

structure Inv (s : Sys) : Prop where
  procLocks : ∀ t q, (s.procs t).Locks q → (s.queues q).waitersLock = some (.task t)
  wakeLocks : ∀ w k q, s.wakes w = some k → k.Locks q → (s.queues q).waitersLock = some (.wake w)
  recorded : ∀ t c, (s.procs t).Listens c → (s.procs t).wait ≠ some (c, .push) →
    ⟨t, c.fullInterest⟩ ∈ (s.queues c.queue).waiters
  awaited : ∀ t c, (s.procs t).Listens c → (s.queues c.queue).ready &&& c.interest ≠ 0 → Awaited s t c

section Points
variable {p : Proc} {c c' : WaitCall} {pt : WaitPoint} {q : Nat}

theorem listens_iff (hw : p.wait = some (c, pt)) : p.Listens c' ↔
    c' = c ∧ (pt = .push ∨ pt = .cancelRecheck ∨ pt = .block ∨ pt = .blocked ∧ p.blocked) := by
  unfold Proc.Listens
  rw [hw]
  constructor
  · rintro (⟨rfl, h⟩ | ⟨rfl, h⟩ | ⟨rfl, h⟩ | ⟨⟨rfl, h⟩, hb⟩) <;> simp_all
  · rintro ⟨rfl, h | h | h | ⟨h, hb⟩⟩ <;> simp_all

theorem locks_iff (hw : p.wait = some (c, pt)) : p.Locks q ↔ c.queue = q ∧ (pt = .recheck ∨ pt = .push) := by
  unfold Proc.Locks
  rw [hw]
  constructor
  · rintro ⟨c', rfl, h | h⟩ <;> cases h <;> simp
  · rintro ⟨rfl, rfl | rfl⟩
    · exact ⟨c, rfl, .inl rfl⟩
    · exact ⟨c, rfl, .inr rfl⟩

theorem not_listens (hw : p.wait = none) : ¬ p.Listens c := by
  unfold Proc.Listens
  rw [hw]
  simp

theorem not_locks (hw : p.wait = none) : ¬ p.Locks q := by
  unfold Proc.Locks
  rw [hw]
  simp

end Points

theorem inv_init : Inv .init where
  procLocks := by
    rintro t q ⟨c, -, h | h⟩ <;> cases h
  wakeLocks := by
    intro w k q h
    cases h
  recorded := by
    rintro t c (h | h | h | ⟨h, -⟩) <;> cases h
  awaited := by
    rintro t c (h | h | h | ⟨h, -⟩) <;> cases h

/-! ### The elementary updates -/

section Updates
variable {s : Sys} {x : Proc}

theorem procs_setProc (t t' : Nat) (x : Proc) :
    (s.setProc t x).procs t' = if t' = t then x else s.procs t' := Function.update_apply _ _ _ _

theorem wakes_setWake (w w' : Nat) (x : Option WakeCall) :
    (s.setWake w x).wakes w' = if w' = w then x else s.wakes w' := Function.update_apply _ _ _ _

theorem queues_setQueue (q q' : Nat) (x : WaitQueue) :
    (s.setQueue q x).queues q' = if q' = q then x else s.queues q' := Function.update_apply _ _ _ _

section
variable (h : Inv s)
include h

theorem Inv.setProc {t : Nat} (hl : ∀ q, x.Locks q → (s.queues q).waitersLock = some (.task t))
    (hr : ∀ c, x.Listens c → x.wait ≠ some (c, .push) → ⟨t, c.fullInterest⟩ ∈ (s.queues c.queue).waiters)
    (ha : ∀ c, x.Listens c → (s.queues c.queue).ready &&& c.interest ≠ 0 → Awaited s t c) :
    Inv (s.setProc t x) where
  procLocks t' q hq := by
    rw [procs_setProc] at hq
    split at hq
    · rename_i ht
      subst ht
      exact hl q hq
    · exact h.procLocks t' q hq
  wakeLocks := h.wakeLocks
  recorded t' c := by
    rw [procs_setProc]
    split
    · rename_i ht
      subst ht
      exact hr c
    · exact h.recorded t' c
  awaited t' c := by
    rw [procs_setProc]
    split
    · rename_i ht
      subst ht
      exact ha c
    · exact h.awaited t' c

theorem Inv.setProc_quiet {t : Nat} (hx : ∀ c, ¬ x.Listens c)
    (hl : ∀ q, x.Locks q → (s.queues q).waitersLock = some (.task t)) : Inv (s.setProc t x) :=
  h.setProc hl (fun c hc => absurd hc (hx c)) fun c hc => absurd hc (hx c)

theorem Inv.setProc_stays {t : Nat} {c : WaitCall} (hold : (s.procs t).Listens c)
    (hold' : (s.procs t).wait ≠ some (c, .push)) (hx : ∀ c', x.Listens c' → c' = c) (hl : ∀ q, ¬ x.Locks q) :
    Inv (s.setProc t x) := by
  refine h.setProc (fun q hq => absurd hq (hl q)) (fun c' hc' _ => ?_) fun c' hc' => ?_
  · obtain rfl := hx c' hc'
    exact h.recorded t c' hold hold'
  · obtain rfl := hx c' hc'
    exact h.awaited t c' hold

theorem Inv.setWake {w : Nat} {x : Option WakeCall}
    (hl : ∀ k q, x = some k → k.Locks q → (s.queues q).waitersLock = some (.wake w))
    (ha : ∀ k t c, s.wakes w = some k → (s.procs t).Listens c → c.interest &&& k.bits ≠ 0 →
      k.Ahead c.queue ⟨t, c.fullInterest⟩ →
      ∃ k', x = some k' ∧ k'.bits = k.bits ∧ k'.Ahead c.queue ⟨t, c.fullInterest⟩) :
    Inv (s.setWake w x) where
  procLocks := h.procLocks
  wakeLocks w' k q hk := by
    rw [wakes_setWake] at hk
    split at hk
    · rename_i hw
      subst hw
      exact hl k q hk
    · exact h.wakeLocks w' k q hk
  recorded := h.recorded
  awaited t c hc hready := by
    obtain ⟨w', k, hk, hbits, hahead⟩ := h.awaited t c hc hready
    by_cases hw : w' = w
    · subst hw
      obtain ⟨k', hx, hb, hahead'⟩ := ha k t c hk hc hbits hahead
      refine ⟨w', k', ?_, by rw [hb]; exact hbits, hahead'⟩
      rw [wakes_setWake, if_pos rfl, hx]
    · refine ⟨w', k, ?_, hbits, hahead⟩
      rw [wakes_setWake, if_neg hw]
      exact hk

/-- A queue changes: its lock only when it is not held, a record goes only when its task does not listen, and bits come only
    when a wake call for them has all waiters of the queue ahead. -/
theorem Inv.setQueue {q : Nat} {x : WaitQueue}
    (hl : x.waitersLock = (s.queues q).waitersLock ∨
      (∀ t, ¬ (s.procs t).Locks q) ∧ ∀ w k, s.wakes w = some k → ¬ k.Locks q)
    (hr : ∀ t c, c.queue = q → (s.procs t).Listens c → ⟨t, c.fullInterest⟩ ∈ (s.queues q).waiters →
      ⟨t, c.fullInterest⟩ ∈ x.waiters)
    (ha : ∀ t c, c.queue = q → x.ready &&& c.interest ≠ 0 →
      (s.queues q).ready &&& c.interest ≠ 0 ∨ Awaited s t c) : Inv (s.setQueue q x) where
  procLocks t q' hq := by
    have hold := h.procLocks t q' hq
    rw [queues_setQueue]
    split
    · rename_i hqq
      subst hqq
      rcases hl with hl | hl
      · rw [hl]
        exact hold
      · exact absurd hq (hl.1 t)
    · exact hold
  wakeLocks w k q' hk hq := by
    have hold := h.wakeLocks w k q' hk hq
    rw [queues_setQueue]
    split
    · rename_i hqq
      subst hqq
      rcases hl with hl | hl
      · rw [hl]
        exact hold
      · exact absurd hq (hl.2 w k hk)
    · exact hold
  recorded t c hc hp := by
    have hold := h.recorded t c hc hp
    rw [queues_setQueue]
    split
    · rename_i hqq
      rw [hqq] at hold
      exact hr t c hqq hc hold
    · exact hold
  awaited t c hc := by
    rw [queues_setQueue]
    split
    · rename_i hqq
      intro hready
      rcases ha t c hqq hready with hready | haw
      · exact h.awaited t c hc (by rw [hqq]; exact hready)
      · exact haw
    · exact h.awaited t c hc

theorem Inv.unlocked {q : Nat} (hq : (s.queues q).waitersLock = none) :
    (∀ t, ¬ (s.procs t).Locks q) ∧ ∀ w k, s.wakes w = some k → ¬ k.Locks q := by
  refine ⟨fun t ht => ?_, fun w k hk hl => ?_⟩
  · have := h.procLocks t q ht
    rw [hq] at this
    cases this
  · have := h.wakeLocks w k q hk hl
    rw [hq] at this
    cases this

theorem Inv.lockWaiters {q : Nat} (x : Option Holder)
    (hfree : (∀ t, ¬ (s.procs t).Locks q) ∧ ∀ w k, s.wakes w = some k → ¬ k.Locks q) :
    Inv (s.lockWaiters q x) :=
  h.setQueue (.inr hfree) (fun _ _ _ _ hx => hx) fun _ _ _ hready => .inl hready

theorem Inv.lockForwarders (q : Nat) (x : Option Holder) : Inv (s.lockForwarders q x) :=
  h.setQueue (.inl rfl) (fun _ _ _ _ hx => hx) fun _ _ _ hready => .inl hready

theorem Inv.retain {q t : Nat} (ht : ∀ c, ¬ (s.procs t).Listens c) : Inv (s.retain q t) := by
  refine h.setQueue (.inl rfl) (fun t' c _ hc hx => ?_) fun _ _ _ hready => .inl hready
  refine mem_filter.mpr ⟨hx, ?_⟩
  have hne : t' ≠ t := by
    rintro rfl
    exact ht c hc
  simpa using hne

theorem Inv.fetchOr {q w : Nat} {k : WakeCall} (hk : s.wakes w = some k)
    (hahead : ∀ x, k.Ahead q x) : Inv (s.fetchOr q k.bits) := by
  refine h.setQueue (.inl rfl) (fun _ _ _ _ hx => hx) fun t c hq hready => ?_
  by_cases hold : (s.queues q).ready &&& c.interest = 0
  · refine .inr ⟨w, k, hk, fun h0 => hready ?_, hq ▸ hahead _⟩
    rw [or_and, hold, UInt32.and_comm k.bits, h0]
    rfl
  · exact .inl hold

theorem Inv.wakePid (t : Nat) : Inv (s.wakePid t) := by
  unfold Sys.wakePid
  split
  · refine h.setProc (h.procLocks t) (fun c hc hp => h.recorded t c ?_ hp) fun c hc => h.awaited t c ?_
    all_goals
      rcases hc with hc | hc | hc | ⟨-, hb⟩
      · exact .inl hc
      · exact .inr (.inl hc)
      · exact .inr (.inr (.inl hc))
      · cases hb
  · exact h

end

end Updates

/-! ### What a step changes -/

def Sys.unblocks (s : Sys) : Event → Option Nat
  | .waker w =>
    match s.wakes w with
    | some ⟨_, bits, .scan (x :: _)⟩ => if x.interest &&& bits ≠ 0 then some x.taskId else none
    | some ⟨_, bits, .scanTarget _ (x :: _) _⟩ => if x.interest &&& bits ≠ 0 then some x.taskId else none
    | _ => none
  | .wakePid t => some t
  | _ => none

def Sys.publishes (s : Sys) : Event → Option (Nat × ReadyMask)
  | .waker w =>
    match s.wakes w with
    | some ⟨q, bits, .orReady⟩ => some (q, bits)
    | some ⟨_, bits, .forward (f :: _)⟩ => if f.interest &&& bits ≠ 0 then some (f.target, bits) else none
    | _ => none
  | _ => none

section Changes
variable {s s' : Sys} {now : UInt64} {e : Event}

theorem procs_wakePid (u t : Nat) : (s.wakePid u).procs t = s.procs t ∨
    u = t ∧ (s.procs t).blocked ∧ (s.wakePid u).procs t = { s.procs t with blocked := false } := by
  unfold Sys.wakePid
  split
  · rename_i hb
    by_cases ht : t = u
    · subst ht
      refine .inr ⟨rfl, hb, ?_⟩
      rw [procs_setProc, if_pos rfl]
    · refine .inl ?_
      rw [procs_setProc, if_neg ht]
  · exact .inl rfl

section
variable (q q' : Nat)

theorem ready_setQueue {x : WaitQueue} (hx : x.ready = (s.queues q).ready) :
    ((s.setQueue q x).queues q').ready = (s.queues q').ready := by
  rw [queues_setQueue]
  split
  · rename_i hq
    rw [hx, hq]
  · rfl

theorem ready_lockWaiters (h : Option Holder) :
    ((s.lockWaiters q h).queues q').ready = (s.queues q').ready := ready_setQueue q q' rfl

theorem ready_lockForwarders (h : Option Holder) :
    ((s.lockForwarders q h).queues q').ready = (s.queues q').ready := ready_setQueue q q' rfl

theorem ready_fetchOr (bits : ReadyMask) :
    ((s.fetchOr q bits).queues q').ready = (s.queues q').ready ∨
      q = q' ∧ ((s.fetchOr q bits).queues q').ready = (s.queues q').ready ||| bits := by
  unfold Sys.fetchOr
  rw [queues_setQueue]
  split
  · rename_i hq
    subst hq
    exact .inr ⟨rfl, rfl⟩
  · exact .inl rfl

end

theorem queues_wakePid (t : Nat) : (s.wakePid t).queues = s.queues := by
  unfold Sys.wakePid
  split <;> rfl

theorem wakes_wakePid (t : Nat) : (s.wakePid t).wakes = s.wakes := by
  unfold Sys.wakePid
  split <;> rfl

theorem queues_wakeMatching (x : Waiter) (bits : ReadyMask) : (s.wakeMatching x bits).queues = s.queues := by
  unfold wakeMatching
  split
  · exact queues_wakePid _
  · rfl

theorem wakes_wakeMatching (x : Waiter) (bits : ReadyMask) : (s.wakeMatching x bits).wakes = s.wakes := by
  unfold wakeMatching
  split
  · exact wakes_wakePid _
  · rfl

theorem waitStep_procs {t u : Nat} (hs : s.waitStep t now = some s') (hne : u ≠ t) : s'.procs u = s.procs u := by
  have hset : ∀ (r : Sys) x, (r.setProc t x).procs u = r.procs u := fun r x => by rw [procs_setProc, if_neg hne]
  unfold waitStep at hs
  split at hs
  all_goals
    repeat' split at hs
    all_goals
      cases hs
      all_goals exact hset _ _

theorem waitStep_ready {t : Nat} (hs : s.waitStep t now = some s') (q : Nat) : (s'.queues q).ready = (s.queues q).ready := by
  unfold waitStep at hs
  split at hs
  all_goals
    repeat' split at hs
    all_goals
      cases hs
      all_goals first
        | rfl
        | exact ready_setQueue _ _ rfl
        | exact (ready_lockWaiters _ _ _).trans (ready_setQueue (s := s) _ _ rfl)

theorem tokens_wakePid (t : Nat) : (s.wakePid t).tokens = s.tokens := by
  unfold Sys.wakePid
  split <;> rfl

theorem tokens_wakeMatching (x : Waiter) (bits : ReadyMask) : (s.wakeMatching x bits).tokens = s.tokens := by
  unfold wakeMatching
  split
  · exact tokens_wakePid _
  · rfl

theorem waitStep_tokens {t : Nat} (hs : s.waitStep t now = some s') : s'.tokens = s.tokens := by
  unfold waitStep at hs
  split at hs
  all_goals
    repeat' split at hs
    all_goals
      cases hs
      all_goals rfl

section
variable {w : Nat} (hs : s.wakeStep w = some s')
include hs

theorem wakeStep_tokens : s'.tokens = s.tokens := by
  unfold wakeStep at hs
  split at hs
  all_goals
    repeat' split at hs
    all_goals
      cases hs
      all_goals first
        | rfl
        | exact tokens_wakeMatching _ _

theorem wakeStep_procs (t : Nat) : s'.procs t = s.procs t ∨
    s.unblocks (.waker w) = some t ∧ (s.procs t).blocked ∧ s'.procs t = { s.procs t with blocked := false } := by
  have hmatch : ∀ x bits, (s.wakeMatching x bits).procs t = s.procs t ∨
      (if x.interest &&& bits ≠ 0 then some x.taskId else none) = some t ∧ (s.procs t).blocked = true ∧
        (s.wakeMatching x bits).procs t = { s.procs t with blocked := false } := by
    intro x bits
    unfold wakeMatching
    split
    · rcases procs_wakePid (s := s) x.taskId t with h | ⟨h1, h2, h3⟩
      · exact .inl h
      · exact .inr ⟨by rw [h1], h2, h3⟩
    · exact .inl rfl
  unfold wakeStep at hs
  unfold Sys.unblocks
  dsimp only
  split at hs
  · cases hs
  · cases hs
    exact .inl rfl
  · split at hs <;> cases hs
    exact .inl rfl
  · rename_i q bits x rest hk
    cases hs
    rw [hk]
    exact hmatch x bits
  · cases hs
    exact .inl rfl
  · split at hs <;> cases hs
    exact .inl rfl
  · split at hs <;> cases hs <;> exact .inl rfl
  · cases hs
    exact .inl rfl
  · split at hs <;> cases hs
    exact .inl rfl
  · rename_i q bits target x ws rest hk
    cases hs
    rw [hk]
    exact hmatch x bits
  · cases hs
    exact .inl rfl

theorem wakeStep_ready (q : Nat) :
    (s'.queues q).ready = (s.queues q).ready ∨
      ∃ bits, s.publishes (.waker w) = some (q, bits) ∧ (s'.queues q).ready = (s.queues q).ready ||| bits := by
  unfold wakeStep at hs
  unfold Sys.publishes
  dsimp only
  split at hs
  · cases hs
  · rename_i q' bits hk
    cases hs
    rw [hk]
    rcases ready_fetchOr (s := s.setWake w (some ⟨q', bits, .lock⟩)) q' q bits with h | ⟨rfl, h⟩
    · exact .inl h
    · exact .inr ⟨bits, rfl, h⟩
  · split at hs <;> cases hs
    exact .inl (ready_lockWaiters _ _ _)
  · cases hs
    refine .inl ?_
    show ((Sys.wakeMatching s _ _).queues q).ready = _
    rw [queues_wakeMatching]
  · cases hs
    exact .inl (ready_lockWaiters _ _ _)
  · split at hs <;> cases hs
    exact .inl (ready_lockForwarders _ _ _)
  · rename_i q' bits f rest hk
    rw [hk]
    split at hs <;> cases hs
    · rename_i hf
      dsimp only
      rw [if_pos hf]
      rcases ready_fetchOr (s := s.setWake w (some ⟨q', bits, .lockTarget f.target rest⟩)) f.target q bits with
        h | ⟨hq, h⟩
      · exact .inl h
      · exact .inr ⟨bits, by rw [hq], h⟩
    · exact .inl rfl
  · cases hs
    exact .inl (ready_lockForwarders _ _ _)
  · split at hs <;> cases hs
    exact .inl (ready_lockWaiters _ _ _)
  · cases hs
    refine .inl ?_
    show ((Sys.wakeMatching s _ _).queues q).ready = _
    rw [queues_wakeMatching]
  · cases hs
    exact .inl (ready_lockWaiters _ _ _)

end

/-- What a step does: a token is cancelled or reset, bits are published, and of task `t` nothing changes, it starts a call,
    the step is one of its own call, or it is woken. -/
theorem step_changes (hs : s.step e = some s') :
    (∀ token, s'.tokens token = s.tokens token ∨ (∃ reason w q, e = .cancel token reason w q ∧ s'.tokens token = reason) ∨
      e = .reset token) ∧
    (∀ q, (s'.queues q).ready = (s.queues q).ready ∨
      ∃ bits, s.publishes e = some (q, bits) ∧ (s'.queues q).ready = (s.queues q).ready ||| bits) ∧
    ∀ t, s'.procs t = s.procs t ∨ (∃ c, e = .wait t c ∧ (s.procs t).wait = none ∧ (s.procs t).blocked = false ∧
        s'.procs t = { s.procs t with wait := some (c, .load) }) ∨
      (∃ now, e = .task t now ∧ s.waitStep t now = some s') ∨
      (s.unblocks e = some t ∧ (s.procs t).blocked ∧ s'.procs t = { s.procs t with blocked := false }) := by
  unfold Sys.step at hs
  cases e with
  | wait u c =>
    dsimp only at hs
    split at hs <;> cases hs
    rename_i hfree
    refine ⟨fun _ => .inl rfl, fun _ => .inl rfl, fun t => ?_⟩
    rw [Sys.goto, procs_setProc]
    by_cases ht : t = u
    · subst ht
      exact .inr (.inl ⟨c, rfl, hfree.1, hfree.2, if_pos rfl⟩)
    · exact .inl (if_neg ht)
  | task u now =>
    refine ⟨fun _ => .inl (by rw [waitStep_tokens hs]), fun q => .inl (waitStep_ready hs q), fun t => ?_⟩
    by_cases ht : t = u
    · subst ht
      exact .inr (.inr (.inl ⟨now, rfl, hs⟩))
    · exact .inl (waitStep_procs hs ht)
  | wake w q bits =>
    dsimp only at hs
    split at hs <;> cases hs
    exact ⟨fun _ => .inl rfl, fun _ => .inl rfl, fun _ => .inl rfl⟩
  | waker w =>
    exact ⟨fun _ => .inl (by rw [wakeStep_tokens hs]), wakeStep_ready hs,
      fun t => (wakeStep_procs hs t).imp_right fun h => .inr (.inr h)⟩
  | cancel token' reason w q =>
    dsimp only at hs
    split at hs <;> cases hs
    refine ⟨fun token => ?_, fun _ => .inl rfl, fun _ => .inl rfl⟩
    by_cases ht : token = token'
    · subst ht
      exact .inr (.inl ⟨reason, w, q, rfl, Function.update_self ..⟩)
    · exact .inl (Function.update_of_ne ht ..)
  | reset token' =>
    cases hs
    refine ⟨fun token => ?_, fun _ => .inl rfl, fun _ => .inl rfl⟩
    by_cases ht : token = token'
    · exact .inr (.inr (ht ▸ rfl))
    · exact .inl (Function.update_of_ne ht ..)
  | registerForwarder q target interest =>
    dsimp only at hs
    split at hs
    · split at hs <;> cases hs
      · exact ⟨fun _ => .inl rfl, fun _ => .inl rfl, fun _ => .inl rfl⟩
      · exact ⟨fun _ => .inl rfl, fun _ => .inl (ready_setQueue _ _ rfl), fun _ => .inl rfl⟩
    · cases hs
  | removeForwarder q target =>
    dsimp only at hs
    split at hs <;> cases hs
    exact ⟨fun _ => .inl rfl, fun _ => .inl (ready_setQueue _ _ rfl), fun _ => .inl rfl⟩
  | wakePid u =>
    cases hs
    refine ⟨fun _ => .inl (by rw [tokens_wakePid]), fun _ => .inl (by rw [queues_wakePid]), fun t => ?_⟩
    rcases procs_wakePid (s := s) u t with h | ⟨rfl, h2, h3⟩
    · exact .inl h
    · exact .inr (.inr (.inr ⟨rfl, h2, h3⟩))

end Changes

end Moxide.Sync
