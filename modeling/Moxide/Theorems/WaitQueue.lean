import Moxide.Theorems.WaitQueue.Changes

/-! No wakeup is lost: the steps keep the invariant, in every run in which no `wake_pid` meets a waiter that is about to
    block. -/

namespace Moxide.Sync
open Lib Sys List Option

/-- No `wake_pid` of a wake call meets a waiter that wants the call's bits, has registered and has not yet executed
    `block_current`. -/
def WakeMeets (s : Sys) (q : Nat) (bits : ReadyMask) (x : Waiter) : Bool :=
  match (s.procs x.taskId).wait with
  | some (c, .cancelRecheck) => c.queue == q && c.interest &&& bits != 0
  | some (c, .block) => c.queue == q && c.interest &&& bits != 0
  | _ => false

def WakeOk (s : Sys) : Event → Bool
  | .waker w =>
    match s.wakes w with
    | some ⟨q, bits, .scan (x :: _)⟩ => !WakeMeets s q bits x
    | some ⟨_, bits, .scanTarget target (x :: _) _⟩ => !WakeMeets s target bits x
    | _ => true
  | _ => true

section Steps
variable {s s' : Sys}

variable {c : WaitCall} {t q w : Nat} {k k' : WakeCall}

theorem Inv.leave (h : Inv s) (t : Nat) (r : WakeReason) : Inv (s.leave t r) :=
  h.setProc_quiet (fun _ => not_listens rfl) fun _ hq => absurd hq (not_locks rfl)

theorem Inv.goto_quiet (h : Inv s) {pt : WaitPoint}
    (hpt : pt = .load ∨ pt = .cancelCheck ∨ pt = .lock ∨ pt = .withdraw ∨ pt = .remove ∨ pt = .finish) :
    Inv (s.goto t c pt) := by
  refine h.setProc_quiet (fun c' hc' => ?_) fun q hq => ?_
  · rw [listens_iff rfl] at hc'
    rcases hpt with rfl | rfl | rfl | rfl | rfl | rfl <;> simp at hc'
  · rw [locks_iff rfl] at hq
    rcases hpt with rfl | rfl | rfl | rfl | rfl | rfl <;> simp at hq

theorem procs_goto (t : Nat) (c : WaitCall) (pt : WaitPoint) : ((s.goto t c pt).procs t).wait = some (c, pt) := by
  unfold Sys.goto
  rw [procs_setProc, if_pos rfl]

theorem step_wait (h : s.step (.wait t c) = some s') : s' = s.goto t c .load := by
  unfold Sys.step at h
  dsimp only at h
  split at h <;> cases h
  rfl

theorem procs_leave (t : Nat) (r : WakeReason) : ((s.leave t r).procs t).wait = none := by
  unfold Sys.leave
  rw [procs_setProc, if_pos rfl]

section
variable (h : Inv s)
include h

theorem Inv.release_proc (hq : (s.queues q).waitersLock = some (.task t))
    (ht : ¬ (s.procs t).Locks q) : Inv (s.lockWaiters q none) := by
  refine h.lockWaiters none ⟨fun t' ht' => ?_, fun w k hk hl => ?_⟩
  · have := h.procLocks t' q ht'
    rw [hq] at this
    cases this
    exact ht ht'
  · have := h.wakeLocks w k q hk hl
    rw [hq] at this
    cases this

theorem Inv.release_wake (hq : (s.queues q).waitersLock = some (.wake w))
    (hw : ∀ k, s.wakes w = some k → ¬ k.Locks q) : Inv (s.lockWaiters q none) := by
  refine h.lockWaiters none ⟨fun t ht => ?_, fun w' k hk hl => ?_⟩
  · have := h.procLocks t q ht
    rw [hq] at this
    cases this
  · have := h.wakeLocks w' k q hk hl
    rw [hq] at this
    cases this
    exact hw k hk hl

theorem inv_push (hw : (s.procs t).wait = some (c, .push)) :
    Inv (((s.setQueue c.queue
      { s.queues c.queue with waiters := (s.queues c.queue).waiters ++ [⟨t, c.fullInterest⟩] }).goto t c
        .cancelRecheck).lockWaiters c.queue none) := by
  have hlistens : (s.procs t).Listens c := .inl hw
  have hlock := h.procLocks t c.queue ((locks_iff hw).mpr ⟨rfl, .inr rfl⟩)
  have hpushed : Inv (s.setQueue c.queue
      { s.queues c.queue with waiters := (s.queues c.queue).waiters ++ [⟨t, c.fullInterest⟩] }) :=
    h.setQueue (.inl rfl) (fun _ _ _ _ hx => mem_append_left _ hx) fun _ _ _ hready => .inl hready
  refine Inv.release_proc (t := t) ?_ ?_ ?_
  · refine hpushed.setProc (fun q hq => ?_) (fun c' hc' _ => ?_) fun c' hc' hready => ?_
    · rw [locks_iff rfl] at hq
      simp at hq
    · obtain ⟨rfl, -⟩ := (listens_iff rfl).mp hc'
      rw [queues_setQueue]
      simp
    · obtain ⟨rfl, -⟩ := (listens_iff rfl).mp hc'
      rw [queues_setQueue, if_pos rfl] at hready
      exact h.awaited t c' hlistens hready
  · show ((s.setQueue c.queue _).queues c.queue).waitersLock = _
    rw [queues_setQueue, if_pos rfl]
    exact hlock
  · rw [locks_iff (procs_goto t c .cancelRecheck)]
    simp

theorem waitStep_inv {now : UInt64} (hs : s.waitStep t now = some s') : Inv s' := by
  unfold waitStep at hs
  split at hs
  · cases hs
  · -- `load`
    split at hs <;> cases hs
    · exact h.leave t .ready
    · exact h.goto_quiet (by simp)
  · -- `cancelCheck`
    split at hs <;> cases hs
    · exact h.leave t .cancelled
    · exact h.goto_quiet (by simp)
  · -- `lock`
    split at hs
    · rename_i hfree
      cases hs
      refine (h.lockWaiters (some (.task t)) (h.unlocked hfree)).setProc_quiet (fun c' hc' => ?_) fun q hq => ?_
      · rw [listens_iff rfl] at hc'
        simp at hc'
      · obtain ⟨rfl, -⟩ := (locks_iff rfl).mp hq
        unfold Sys.lockWaiters
        rw [queues_setQueue, if_pos rfl]
    · cases hs
  · -- `recheck`
    rename_i c hw
    have hlock := h.procLocks t c.queue ((locks_iff hw).mpr ⟨rfl, .inl rfl⟩)
    split at hs <;> cases hs
    · exact (h.leave t .ready).release_proc hlock (not_locks (procs_leave t .ready))
    rename_i hready
    refine h.setProc (fun q hq => ?_) (fun c' hc' hp => ?_) fun c' hc' hready' => ?_
    · obtain ⟨rfl, -⟩ := (locks_iff rfl).mp hq
      exact hlock
    · obtain ⟨rfl, -⟩ := (listens_iff rfl).mp hc'
      exact absurd rfl hp
    · obtain ⟨rfl, -⟩ := (listens_iff rfl).mp hc'
      exact absurd hready' hready
  · -- `push`
    rename_i c hw
    cases hs
    exact inv_push h hw
  · -- `cancelRecheck`
    rename_i c hw
    split at hs <;> cases hs
    · exact h.goto_quiet (by simp)
    refine h.setProc_stays (.inr (.inl hw)) (by rw [hw]; simp) (fun c' hc' => ((listens_iff rfl).mp hc').1) ?_
    intro q hq
    rw [locks_iff rfl] at hq
    simp at hq
  · -- `withdraw`
    split at hs <;> cases hs
    exact (h.leave t .cancelled).retain fun c' => not_listens (procs_leave t .cancelled)
  · -- `block`
    rename_i c hw
    cases hs
    refine h.setProc_stays (.inr (.inr (.inl hw))) (by rw [hw]; simp)
      (fun c' hc' => ((listens_iff rfl).mp hc').1) ?_
    intro q hq
    rw [locks_iff rfl] at hq
    simp at hq
  · -- `blocked`
    split at hs <;> cases hs
    exact h.goto_quiet (by simp)
  · -- `remove`
    rename_i c hw
    split at hs <;> cases hs
    refine (h.goto_quiet (by simp)).retain fun c' hc' => ?_
    rw [listens_iff (procs_goto t c .finish)] at hc'
    simp at hc'
  · -- `finish`
    split at hs
    · cases hs
      exact h.leave t .cancelled
    split at hs
    · split at hs <;> cases hs
      · exact h.leave t .timeout
      · exact h.leave t .ready
    · cases hs
      exact h.leave t .ready

/-- Where a wake call that has the lock comes to the record of a waiter that wants its bits, the waiter does not listen after
    `wake_pid`, unless it is one that `WakeMeets` excludes. -/
theorem not_listens_wakeMatching (hk : s.wakes w = some k) (hl : k.Locks c.queue) (hbits : c.interest &&& k.bits ≠ 0)
    (hok : WakeMeets s c.queue k.bits ⟨t, c.fullInterest⟩ = false) :
    ¬ ((s.wakeMatching ⟨t, c.fullInterest⟩ k.bits).procs t).Listens c := by
  unfold wakeMatching
  rw [if_pos (fullInterest_and hbits)]
  intro hc
  have hwait : ((s.wakePid t).procs t).wait = (s.procs t).wait := by
    unfold Sys.wakePid
    split
    · rw [procs_setProc, if_pos rfl]
    · rfl
  have hblocked : ((s.wakePid t).procs t).blocked = false := by
    unfold Sys.wakePid
    split
    · rw [procs_setProc, if_pos rfl]
    · rename_i hb
      simpa using hb
  unfold WakeMeets at hok
  rcases hc with hc | hc | hc | ⟨-, hc⟩
  · -- The waiter would hold the lock that the wake call holds.
    rw [hwait] at hc
    have h1 := h.procLocks t c.queue ((locks_iff hc).mpr ⟨rfl, .inr rfl⟩)
    have h2 := h.wakeLocks w k c.queue hk hl
    rw [h1] at h2
    cases h2
  · rw [hwait] at hc
    simp [hc, hbits] at hok
  · rw [hwait] at hc
    simp [hc, hbits] at hok
  · rw [hblocked] at hc
    cases hc

theorem Inv.wakeMatching (x : Waiter) (bits : ReadyMask) : Inv (s.wakeMatching x bits) := by
  unfold Sys.wakeMatching
  split
  · exact h.wakePid x.taskId
  · exact h

theorem recorded_of_unlocked (hfree : (s.queues c.queue).waitersLock = none)
    (hc : (s.procs t).Listens c) : ⟨t, c.fullInterest⟩ ∈ (s.queues c.queue).waiters := by
  refine h.recorded t c hc fun hp => ?_
  have := h.procLocks t c.queue ((locks_iff hp).mpr ⟨rfl, .inr rfl⟩)
  rw [hfree] at this
  cases this

end

theorem queues_lockWaiters (q : Nat) (x : Option Holder) : ((s.lockWaiters q x).queues q).waitersLock = x := by
  unfold Sys.lockWaiters
  rw [queues_setQueue, if_pos rfl]

section
variable (h : Inv s)
include h

section
variable (hk : s.wakes w = some k)
include hk

theorem Inv.setWake_free {x : Option WakeCall}
    (hnone : ∀ q y, ¬ k.Ahead q y) (hx : ∀ k' q, x = some k' → ¬ k'.Locks q) : Inv (s.setWake w x) := by
  refine h.setWake (fun k' q hk' hl => absurd hl (hx k' q hk')) fun k' t c hk' _ _ hahead => ?_
  rw [hk] at hk'
  cases hk'
  exact absurd hahead (hnone _ _)

theorem inv_lock (hfree : (s.queues q).waitersLock = none) (hbits : k'.bits = k.bits) (hl : ∀ q', k'.Locks q' → q' = q)
    (hold : ∀ q' y, k.Ahead q' y → q' = q) (hnew : ∀ y ∈ (s.queues q).waiters, k'.Ahead q y) :
    Inv ((s.lockWaiters q (some (.wake w))).setWake w (some k')) := by
  refine (h.lockWaiters (some (.wake w)) (h.unlocked hfree)).setWake ?_ ?_
  · rintro k'' q' ⟨⟩ hl'
    obtain rfl := hl q' hl'
    exact queues_lockWaiters q' _
  · intro k'' t c hk'' hc _ hahead
    rw [show (s.lockWaiters q (some (.wake w))).wakes w = s.wakes w from rfl, hk] at hk''
    cases hk''
    obtain rfl := hold _ _ hahead
    exact ⟨k', rfl, hbits, hnew _ (recorded_of_unlocked h hfree hc)⟩

theorem inv_scan {x : Waiter} (hq : k.Locks q) (hok : WakeMeets s q k.bits x = false) (hbits : k'.bits = k.bits)
    (hl : ∀ q', k'.Locks q' → k.Locks q')
    (hold : ∀ q' y, k.Ahead q' y → q' = q ∧ (y = x ∨ k'.Ahead q' y)) :
    Inv ((s.wakeMatching x k.bits).setWake w (some k')) := by
  refine (h.wakeMatching x k.bits).setWake ?_ ?_
  · rintro k'' q' ⟨⟩ hl'
    rw [queues_wakeMatching]
    exact h.wakeLocks w k q' hk (hl q' hl')
  · intro k'' t c hk'' hc hwant hahead
    rw [wakes_wakeMatching, hk] at hk''
    cases hk''
    obtain ⟨rfl, rfl | hnew⟩ := hold _ _ hahead
    · exact absurd hc (not_listens_wakeMatching h hk hq hwant hok)
    · exact ⟨k', rfl, hbits, hnew⟩

theorem inv_unlock (hq : k.Locks q) (hnone : ∀ q' y, ¬ k.Ahead q' y) (hl : ∀ q', ¬ k'.Locks q') :
    Inv ((s.setWake w (some k')).lockWaiters q none) := by
  refine Inv.release_wake (w := w) (h.setWake_free hk hnone ?_) (h.wakeLocks w k q hk hq) ?_
  · rintro k'' q' ⟨⟩
    exact hl q'
  · intro k'' hk''
    rw [wakes_setWake, if_pos rfl] at hk''
    cases hk''
    exact hl q

theorem inv_fetchOr (hnone : ∀ q' y, ¬ k.Ahead q' y) (hl : ∀ q', ¬ k'.Locks q') (hnew : ∀ y, k'.Ahead q y) :
    Inv ((s.setWake w (some k')).fetchOr q k'.bits) := by
  refine Inv.fetchOr (w := w) (h.setWake_free hk hnone ?_) (by rw [wakes_setWake, if_pos rfl]) hnew
  rintro k'' q' ⟨⟩
  exact hl q'

end

theorem wakeStep_inv (hok : WakeOk s (.waker w)) (hs : s.wakeStep w = some s') : Inv s' := by
  unfold WakeOk at hok
  dsimp only at hok
  unfold wakeStep at hs
  split at hs
  · cases hs
  · -- `orReady`
    rename_i q bits hk
    cases hs
    exact inv_fetchOr h hk (fun _ _ => id) (fun _ => id) fun _ => rfl
  · -- `lock`
    rename_i q bits hk
    split at hs
    · rename_i hfree
      cases hs
      exact inv_lock h hk hfree rfl (fun _ hl => Eq.symm hl) (fun _ _ ha => Eq.symm ha) fun y hy => ⟨rfl, hy⟩
    · cases hs
  · -- `scan`, with a waiter left
    rename_i q bits x rest hk
    cases hs
    rw [hk] at hok
    refine inv_scan (k := ⟨q, bits, .scan (x :: rest)⟩) h hk rfl (by simpa using hok) rfl (fun _ => id) ?_
    rintro q' y ⟨rfl, hy⟩
    refine ⟨rfl, ?_⟩
    rcases mem_cons.mp hy with hy | hy
    · exact .inl hy
    · exact .inr ⟨rfl, hy⟩
  · -- `scan`, at the end
    rename_i q bits hk
    cases hs
    exact inv_unlock h hk rfl (fun _ _ ha => by cases ha.2) fun _ => id
  · -- `lockForwarders`
    rename_i q bits hk
    split at hs
    · cases hs
      exact (h.lockForwarders q _).setWake_free hk (fun _ _ => id) (by rintro _ _ ⟨⟩; exact id)
    · cases hs
  · -- `forward`, with a forwarder left
    rename_i q bits f rest hk
    split at hs <;> cases hs
    · exact inv_fetchOr h hk (fun _ _ => id) (fun _ => id) fun _ => rfl
    · exact h.setWake_free hk (fun _ _ => id) (by rintro _ _ ⟨⟩; exact id)
  · -- `forward`, at the end
    rename_i q bits hk
    cases hs
    exact (h.setWake_free hk (fun _ _ => id) (by rintro _ _ ⟨⟩)).lockForwarders q none
  · -- `lockTarget`
    rename_i q bits target rest hk
    split at hs
    · rename_i hfree
      cases hs
      exact inv_lock h hk hfree rfl (fun _ hl => Eq.symm hl) (fun _ _ ha => Eq.symm ha) fun y hy => ⟨rfl, hy⟩
    · cases hs
  · -- `scanTarget`, with a waiter left
    rename_i q bits target x ws rest hk
    cases hs
    rw [hk] at hok
    refine inv_scan (k := ⟨q, bits, .scanTarget target (x :: ws) rest⟩) (q := target) h hk rfl
      (by simpa using hok) rfl (fun _ => id) ?_
    rintro q' y ⟨rfl, hy⟩
    refine ⟨rfl, ?_⟩
    rcases mem_cons.mp hy with hy | hy
    · exact .inl hy
    · exact .inr ⟨rfl, hy⟩
  · -- `scanTarget`, at the end
    rename_i q bits target rest hk
    cases hs
    exact inv_unlock h hk rfl (fun _ _ ha => by cases ha.2) fun _ => id

theorem Inv.startWake {bits : ReadyMask} (hw : s.wakes w = none) : Inv (s.setWake w (some ⟨q, bits, .orReady⟩)) := by
  refine h.setWake ?_ ?_
  · rintro k q' ⟨⟩ hl
    cases hl
  · intro k t c hk
    rw [hw] at hk
    cases hk

theorem inv_step {e : Event} (hok : WakeOk s e) (hs : s.step e = some s') : Inv s' := by
  unfold Sys.step at hs
  cases e with
  | wait t call =>
    dsimp only at hs
    split at hs <;> cases hs
    exact h.goto_quiet (by simp)
  | task t now => exact waitStep_inv h hs
  | wake w q bits =>
    dsimp only at hs
    split at hs <;> cases hs
    exact h.startWake ‹_›
  | waker w => exact wakeStep_inv h hok hs
  | cancel token reason w q =>
    dsimp only at hs
    split at hs <;> cases hs
    have ht : Inv { s with tokens := Function.update s.tokens token reason } :=
      { h with }
    exact ht.startWake ‹_›
  | reset token =>
    cases hs
    exact { h with }
  | registerForwarder q target interest =>
    dsimp only at hs
    split at hs
    · split at hs <;> cases hs
      · exact h
      · exact h.setQueue (.inl rfl) (fun _ _ _ _ hx => hx) fun _ _ _ hready => .inl hready
    · cases hs
  | removeForwarder q target =>
    dsimp only at hs
    split at hs <;> cases hs
    exact h.setQueue (.inl rfl) (fun _ _ _ _ hx => hx) fun _ _ _ hready => .inl hready
  | wakePid t =>
    cases hs
    exact h.wakePid t

end

end Steps

/-! ### Runs -/

/-- Task `t` is blocked in `wait` though bits that it waits for are set, and no wake call is in progress. -/
def Lost (s : Sys) (t : Nat) : Prop :=
  ∃ c, (s.procs t).wait = some (c, .blocked) ∧ (s.procs t).blocked = true ∧
    (s.queues c.queue).ready &&& c.interest ≠ 0 ∧ ∀ w, s.wakes w = none

/-- In every run in which no `wake_pid` meets a waiter between its registration and `block_current`, no wakeup is
    lost. -/
theorem no_lost_wakeup {s : Sys}
    (h : Reach (fun s e s' => s.step e = some s') (fun s e => WakeOk s e = true) .init s) (t : Nat) :
    ¬ Lost s t := by
  have hinv : Inv s := h.invariant inv_init fun _ _ _ hi hok hs => inv_step hi hok hs
  rintro ⟨c, hw, hb, hready, hnone⟩
  obtain ⟨w, k, hk, -, -⟩ := hinv.awaited t c (.inr (.inr (.inr ⟨hw, hb⟩))) hready
  rw [hnone w] at hk
  cases hk

def waitFor (steps : Nat) : List Event := .wait 1 ⟨0, 1, none, none⟩ :: List.replicate steps (.task 1 0)

def wakeAll : List Event := .wake 0 0 1 :: List.replicate 6 (.waker 0)

def wokenRun : Option Sys := Reach.run Sys.step WakeOk .init (waitFor 7 ++ wakeAll)

def racingRun : Option Sys := Reach.run Sys.step (fun _ _ => true) .init (waitFor 6 ++ wakeAll ++ [.task 1 0])

theorem no_lost_wakeup_woken : ∃ s, wokenRun = some s ∧ (s.procs 1).blocked = false ∧ ¬ Lost s 1 := by
  have hsome : wokenRun.isSome = true := by decide
  obtain ⟨s, hs⟩ := isSome_iff_exists.mp hsome
  have hb : wokenRun.all (fun s => !(s.procs 1).blocked) = true := by decide
  refine ⟨s, hs, ?_, no_lost_wakeup (Reach.of_run _ .start hs) 1⟩
  rw [hs] at hb
  simpa using hb

theorem racingRun_isSome : racingRun.isSome := by decide

/-- The waiter blocks after the wake call has passed it over. -/
theorem wakeup_lost : ∃ s, Reach (fun s e s' => s.step e = some s') (fun _ _ => True) .init s ∧ Lost s 1 := by
  have hrun : racingRun = some (racingRun.get racingRun_isSome) := (some_get racingRun_isSome).symm
  refine ⟨racingRun.get racingRun_isSome, (Reach.of_run _ .start hrun).mono fun _ _ _ => trivial,
    ⟨0, 1, none, none⟩, by decide, by decide, by decide, ?_⟩
  rintro (_ | w)
  · rfl
  · rfl

end Moxide.Sync
