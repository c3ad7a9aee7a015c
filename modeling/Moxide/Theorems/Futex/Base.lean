import Moxide.Futex
import Moxide.Theorems.WaitQueue

/-! What the elementary updates of a futex state change. -/

namespace Moxide.Futex
open Sync (Sys WakeReason WaitCall WaitQueue)
open State List

/-- The sleeper that a thread is, from its registration to its clean-up of the table. -/
def Pc.sleep : Pc → Option Sleep
  | .enter sl => some sl
  | .asleep sl => some sl
  | .tidyTable sl _ => some sl
  | _ => none

/-- The thread is not registered, has no wakeup to report and is not about to hand a lock over. -/
def Pc.Plain (pc : Pc) : Prop := pc.sleep = none ∧ (∀ k, pc ≠ .unlockHand k) ∧ ∀ k reason, pc ≠ .tidyChain k reason

theorem sysFutex_plain {ts : Tasks} {now : UInt64} {t : Nat} {args : Args} {pc : Pc}
    (h : sysFutex ts now t args = .ok pc) : pc.Plain := by
  have hmap : ∀ (x : Except Int (Option UInt64)) (f : Option UInt64 → Pc), (∀ dl, (f dl).Plain) →
      x.map f = .ok pc → pc.Plain := by
    intro x f hf hx
    cases x with
    | error e => cases hx
    | ok dl =>
      cases hx
      exact hf dl
  unfold sysFutex at h
  dsimp only at h
  split at h
  · cases h
  split at h
  · exact hmap _ _ (fun _ => ⟨rfl, by simp, by simp⟩) h
  · cases h
    exact ⟨rfl, by simp, by simp⟩
  · split at h <;> cases h
    exact ⟨rfl, by simp, by simp⟩
  · split at h <;> cases h
    exact ⟨rfl, by simp, by simp⟩
  · split at h
    · cases h
    · exact hmap _ _ (fun _ => ⟨rfl, by simp, by simp⟩) h
  · split at h <;> cases h
    exact ⟨rfl, by simp, by simp⟩
  · cases h
    exact ⟨rfl, by simp, by simp⟩
  · cases h
    exact ⟨rfl, by simp, by simp⟩
  · cases h
    exact ⟨rfl, by simp, by simp⟩
  all_goals cases h

section Updates
variable {s : State}

theorem threads_update (threads : Nat → Thread) (t u : Nat) (th : Thread) :
    (Function.update threads t th u).pc = if u = t then th.pc else (threads u).pc := by
  by_cases h : u = t
  · subst h
    simp
  · simp [h]

theorem threads_goto (t u : Nat) (pc : Pc) :
    ((s.goto t pc).threads u).pc = if u = t then pc else (s.threads u).pc := threads_update ..

theorem threads_leave (t u : Nat) (ret : Int) :
    ((s.leave t ret).threads u).pc = if u = t then .idle else (s.threads u).pc := threads_update ..

theorem table_setBucket (k k' : FutexKey) (b : Option FutexBucket) :
    (s.setBucket k b).table k' = if k' = k then b else s.table k' := by
  unfold State.setBucket
  by_cases h : k' = k
  · subst h
    simp
  · simp [h]

variable (k : FutexKey)

theorem entry_cases : (∃ b, s.table k = some b ∧ s.entry k = (s, b)) ∨
    (s.table k = none ∧
      s.entry k = ({ s with sync := s.sync.setQueue s.nextWq .new, nextWq := s.nextWq + 1 }, ⟨s.nextWq, []⟩)) := by
  unfold State.entry
  cases h : s.table k with
  | some b => exact .inl ⟨b, rfl, rfl⟩
  | none => exact .inr ⟨rfl, rfl⟩

theorem entry_threads : (s.entry k).1.threads = s.threads := by
  rcases entry_cases (s := s) k with ⟨b, -, h⟩ | ⟨-, h⟩ <;> rw [h]

theorem entry_table : (s.entry k).1.table = s.table := by
  rcases entry_cases (s := s) k with ⟨b, -, h⟩ | ⟨-, h⟩ <;> rw [h]

theorem entry_procs : (s.entry k).1.sync.procs = s.sync.procs := by
  rcases entry_cases (s := s) k with ⟨b, -, h⟩ | ⟨-, h⟩ <;> rw [h]
  rfl

end Updates

/-! ### The table -/

def Shrinks (s s' : State) : Prop :=
  ∀ k b', s'.table k = some b' → ∃ b, s.table k = some b ∧ b.wq = b'.wq ∧ ∀ w ∈ b'.waiters, w ∈ b.waiters

theorem Shrinks.of_eq {s s' : State} (h : s'.table = s.table) : Shrinks s s' := by
  intro k b' hb
  rw [h] at hb
  exact ⟨b', hb, rfl, fun w hw => hw⟩

theorem Shrinks.setBucket_none {s : State} (k : FutexKey) : Shrinks s (s.setBucket k none) := by
  intro k' b' hb
  rw [table_setBucket] at hb
  split at hb
  · cases hb
  · exact ⟨b', hb, rfl, fun w hw => hw⟩

section
variable {s : State} {k : FutexKey} {b b' : FutexBucket} (hb : s.table k = some b) (hwq : b'.wq = b.wq)
    (hsub : ∀ w ∈ b'.waiters, w ∈ b.waiters)
include hb hwq hsub

theorem Shrinks.setBucket : Shrinks s (s.setBucket k (some b')) := by
  intro k' b'' hb''
  rw [table_setBucket] at hb''
  split at hb''
  · rename_i hk
    subst hk
    cases hb''
    exact ⟨b, hb, hwq.symm, hsub⟩
  · exact ⟨b'', hb'', rfl, fun w hw => hw⟩

theorem Shrinks.keepBucket : Shrinks s (s.keepBucket k b') := by
  unfold State.keepBucket
  split
  · exact .setBucket_none k
  · exact .setBucket hb hwq hsub

end

theorem Shrinks.forget {s : State} (k : FutexKey) (pid : Nat) : Shrinks s (s.forget k pid) := by
  unfold State.forget
  split
  · exact .of_eq rfl
  · rename_i b hb
    exact .keepBucket hb rfl fun w hw => (mem_filter.mp hw).1

theorem forget_pid {s : State} {k : FutexKey} {pid : Nat} {b : FutexBucket} {w : Waiter}
    (hb : (s.forget k pid).table k = some b) (hw : w ∈ b.waiters) : w.pid ≠ pid := by
  unfold State.forget at hb
  split at hb
  · rename_i hnone
    rw [hnone] at hb
    cases hb
  unfold State.keepBucket at hb
  rw [table_setBucket, if_pos rfl] at hb
  split at hb
  · cases hb
  · cases hb
    simpa using (mem_filter.mp hw).2

theorem forget_threads {s : State} (k : FutexKey) (pid : Nat) : (s.forget k pid).threads = s.threads := by
  unfold State.forget
  split <;> rfl

theorem forget_sync {s : State} (k : FutexKey) (pid : Nat) : (s.forget k pid).sync = s.sync := by
  unfold State.forget
  split <;> rfl

theorem select_mem (mask : UInt32) (ws : List Waiter) : ∀ n,
    (∀ w ∈ (select mask n ws).1, w ∈ ws ∧ w.bitset &&& mask ≠ 0) ∧ ∀ w ∈ (select mask n ws).2, w ∈ ws := by
  induction ws with
  | nil =>
    intro n
    simp [select]
  | cons x ws ih =>
    intro n
    unfold select
    split
    · rename_i hx
      split
      · refine ⟨fun w hw => ?_, fun w hw => mem_cons_of_mem _ hw⟩
        obtain rfl := mem_singleton.mp hw
        exact ⟨mem_cons_self, hx⟩
      obtain ⟨h1, h2⟩ := ih (n - 1)
      refine ⟨fun w hw => ?_, fun w hw => mem_cons_of_mem _ (h2 w hw)⟩
      rcases mem_cons.mp hw with rfl | hw
      · exact ⟨mem_cons_self, hx⟩
      · exact ⟨mem_cons_of_mem _ (h1 w hw).1, (h1 w hw).2⟩
    · obtain ⟨h1, h2⟩ := ih n
      refine ⟨fun w hw => ⟨mem_cons_of_mem _ (h1 w hw).1, (h1 w hw).2⟩, fun w hw => ?_⟩
      rcases mem_cons.mp hw with rfl | hw
      · exact mem_cons_self
      · exact mem_cons_of_mem _ (h2 w hw)

theorem waitStep_call {s s' : Sys} {t : Nat} {now : UInt64} (hs : s.waitStep t now = some s') {c : WaitCall}
    {pt : Sync.WaitPoint} (h : (s'.procs t).wait = some (c, pt)) : ∃ pt', (s.procs t).wait = some (c, pt') := by
  have hgoto : ∀ (r : Sys) (c' : WaitCall) (pt' : Sync.WaitPoint),
      ((r.goto t c' pt').procs t).wait = some (c, pt) → c' = c := by
    intro r c' pt' hr
    rw [Sync.procs_goto] at hr
    cases hr
    rfl
  have hleave : ∀ (r : Sys) (reason : WakeReason), ((r.leave t reason).procs t).wait ≠ some (c, pt) := by
    intro r reason hr
    rw [Sync.procs_leave] at hr
    cases hr
  unfold Sys.waitStep at hs
  split at hs
  · cases hs
  all_goals
    rename_i c' hw
    suffices hc : c' = c by
      subst hc
      exact ⟨_, hw⟩
    repeat' split at hs
    all_goals
      cases hs
      all_goals first
        | exact absurd h (hleave _ _)
        | exact hgoto _ _ _ h
        | (rw [Sync.procs_setProc, if_pos rfl] at h; cases h; rfl)

theorem step_call {s s' : Sys} {e : Sync.Event} (hs : s.step e = some s') {t : Nat} {c : WaitCall}
    {pt : Sync.WaitPoint} (h : (s'.procs t).wait = some (c, pt)) :
    (∃ pt', (s.procs t).wait = some (c, pt')) ∨ e = .wait t c := by
  rcases (Sync.step_changes hs).2.2 t with hp | ⟨c', he, -, -, hp⟩ | ⟨now, -, hw⟩ | ⟨-, -, hp⟩
  · rw [hp] at h
    exact .inl ⟨pt, h⟩
  · rw [hp] at h
    cases h
    exact .inr he
  · exact .inl (waitStep_call hw h)
  · rw [hp] at h
    exact .inl ⟨pt, h⟩

end Moxide.Futex
